import CommitLog.Proofs.EngineCalls
import CommitLog.Proofs.Json.Depth

/-!
Which commits can be read again. A database takes a commit with headers of any depth, but reads it only if they
nest no deeper than the reader of its rows has room for (`Shallow`); a row that is too deep fails every window and
every page of a feed that it belongs to (`shallow_commits_read`).
-/

namespace CommitLog

/-! ### Stored forms -/

namespace Codec

open Json

theorem readHeaders_takes (headers : Headers) (room : Nat) :
    Takes (readHeaders room) (renderHeaders headers) ((Json.object headers).nesting ≤ room) := by
  intro rest delimited
  cases room with
  | zero => exact .inr ⟨by simp [nesting], rfl⟩
  | succ room =>
    have body := @fieldsBody_takes (readValue room) (fun value => value.nesting ≤ room) headers
      (fun entry _ => readValue_takes entry.2 room) rest delimited
    rw [nesting, Nat.add_le_add_iff_right, nestingFields_le]
    simpa [readHeaders, readObject, renderHeaders, braced, skipBlank_cons (show isBlank 0x7B = false by decide)]
      using body

/-- The headers of an event stand in an object. -/
theorem readEvent_takes (event : Event) (room : Nat) :
    Takes (readEvent room) (renderEvent event) ((Json.object event.headers).nesting + 1 ≤ room) := by
  intro rest delimited
  cases room with
  | zero => exact .inr ⟨by simp, rfl⟩
  | succ room =>
    obtain ⟨one, two, clock, event_⟩ := readEvent_fields event room rest
    rw [event_, Nat.add_le_add_iff_right]
    cases room with
    | zero =>
      have refused : Takes (readField 0 {} "body") (renderOctets event.body) False := fun rest _ => .inr ⟨id, rfl⟩
      rcases fieldsFrom_more refused one (two :: clock) _ with ⟨never, -⟩ | ⟨-, read⟩
      · exact never.elim
      · exact .inr ⟨by simp [nesting], by rw [read]; rfl⟩
    | succ room =>
      rw [(fieldsFrom_field (readField_body event.body room) one (two :: clock) _).2]
      rcases readHeaders_takes event.headers (room + 1) (0x7D :: rest) (.inr (.inr rfl)) with
        ⟨fit, headers, read⟩ | ⟨unfit, read⟩
      · refine .inl ⟨fit, ⟨event.body, headers⟩, ?_⟩
        simp [fieldsFrom, readKey_field, readField, read, skipBlank_cons (show isBlank 0x7D = false by decide),
          Partial.event?]
      · refine .inr ⟨unfit, ?_⟩
        simp [fieldsFrom, readKey_field, readField, read]

/-- Whether a reader takes all of what is written. -/
theorem only_takes {α : Type} {reader : Reader α} {written : Bytes} {fits : Prop} (takes : Takes reader written fits) :
    (fits ∧ ∃ value, only reader written = some value) ∨ (¬ fits ∧ only reader written = none) := by
  have read := takes [] trivial
  rw [List.append_nil] at read
  rcases read with ⟨fit, value, read⟩ | ⟨unfit, read⟩
  · exact .inl ⟨fit, value, by simp [only, read, skipBlank]⟩
  · exact .inr ⟨unfit, by simp [only, read]⟩

theorem decodeHeaders_takes (headers : Headers) :
    ((Json.object headers).nesting ≤ nestingLimit ∧ ∃ value, decodeHeaders (renderHeaders headers) = some value) ∨
      (¬ (Json.object headers).nesting ≤ nestingLimit ∧ decodeHeaders (renderHeaders headers) = none) :=
  only_takes (readHeaders_takes headers nestingLimit)

/-- The events stand in a list. -/
theorem decodeEvents_takes (events : List Event) :
    ((∀ event ∈ events, (Json.object event.headers).nesting + 2 ≤ nestingLimit) ∧
        ∃ value, decodeEvents (renderEvents events) = some value) ∨
      (¬ (∀ event ∈ events, (Json.object event.headers).nesting + 2 ≤ nestingLimit) ∧
        decodeEvents (renderEvents events) = none) := by
  refine only_takes fun rest delimited => ?_
  have body := itemsBody_takes (fun event (_ : event ∈ events) => readEvent_takes event 126)
    (fun event _ => ⟨by decide, by decide, by decide⟩) rest delimited
  have limit : ∀ event : Event, (Json.object event.headers).nesting + 2 ≤ nestingLimit ↔
      (Json.object event.headers).nesting + 1 ≤ 126 := fun event => Nat.succ_le_succ_iff
  simp only [limit]
  simpa [readEvents, nestingLimit, readArray, renderEvents, bracketed, skipBlank_cons (show isBlank 0x5B = false by decide)]
    using body

end Codec

/-! ### Rows -/

/-- Headers that nest so little that they can be read back; the headers of an event stand in an object of a list. -/
structure Attempt.Shallow (attempt : Attempt) : Prop where
  headers : (Json.object attempt.headers).nesting ≤ Json.nestingLimit
  events : ∀ event ∈ attempt.events, (Json.object event.headers).nesting + 2 ≤ Json.nestingLimit

instance (attempt : Attempt) : Decidable attempt.Shallow :=
  decidable_of_iff ((Json.object attempt.headers).nesting ≤ Json.nestingLimit ∧
      ∀ event ∈ attempt.events, (Json.object event.headers).nesting + 2 ≤ Json.nestingLimit)
    ⟨fun both => ⟨both.1, both.2⟩, fun shallow => ⟨shallow.headers, shallow.events⟩⟩

/-- Something is answered if a condition holds, and else that what is stored cannot be read. -/
def ReadIf {α : Type} (answer : Except Error α) (condition : Prop) : Prop :=
  (condition ∧ ∃ value, answer = .ok value) ∨ (¬ condition ∧ ∃ part, answer = .error (.serialization part))

theorem Entry.decode_readIf (entry : Entry) : ReadIf entry.row.decode entry.commit.Shallow := by
  have intact : entry.row.intact = true := decide_eq_true rfl
  have headers : entry.row.headers = Codec.renderHeaders entry.commit.headers := rfl
  have payload : entry.row.payload = Codec.renderEvents entry.commit.events := rfl
  unfold ReadIf
  rw [Row.decode, if_pos intact, headers, payload]
  rcases Codec.decodeHeaders_takes entry.commit.headers with ⟨fit, back, read⟩ | ⟨unfit, read⟩
  · rcases Codec.decodeEvents_takes entry.commit.events with ⟨fits, events, reads⟩ | ⟨unfits, reads⟩
    · rw [read, reads]
      exact .inl ⟨⟨fit, fits⟩, _, rfl⟩
    · rw [read, reads]
      exact .inr ⟨fun shallow => unfits shallow.events, _, rfl⟩
  · rw [read]
    exact .inr ⟨fun shallow => unfit shallow.headers, _, rfl⟩

/-- Rows are read together if each of them is read. -/
theorem decodeAll_readIf {rows : List Row} {good : Row → Prop} (each : ∀ row ∈ rows, ReadIf row.decode (good row)) :
    ReadIf (Row.decodeAll rows) (∀ row ∈ rows, good row) := by
  induction rows with
  | nil => exact .inl ⟨by simp, [], rfl⟩
  | cons row rest ih =>
    unfold ReadIf
    rw [Row.decodeAll]
    rcases each row List.mem_cons_self with ⟨fit, commit, read⟩ | ⟨unfit, part, read⟩
    · rw [read]
      rcases ih fun other member => each other (List.mem_cons_of_mem _ member) with
        ⟨fits, commits, reads⟩ | ⟨unfits, part, reads⟩
      · rw [reads]
        exact .inl ⟨List.forall_mem_cons.2 ⟨fit, fits⟩, commit :: commits, rfl⟩
      · rw [reads]
        exact .inr ⟨fun all => unfits (List.forall_mem_cons.1 all).2, part, rfl⟩
    · rw [read]
      exact .inr ⟨fun all => unfit (List.forall_mem_cons.1 all).1, part, rfl⟩

/-! ### Stores -/

/-- A row is of a commit, among those that have been accepted, that is shallow. -/
def Row.OfShallow (accepted : List Commit) (row : Row) : Prop :=
  ∃ commit ∈ accepted, commit.checkpoint = row.checkpoint ∧ commit.Shallow

/-- What an open store reads of the commits that it has accepted. -/
structure DatabaseStore.ReadsShallow (store : DatabaseStore) (accepted : List Commit) : Prop where
  /-- Each row is of a commit that has been accepted. -/
  known : ∀ row ∈ store.db.rows, ∃ commit ∈ accepted, commit.checkpoint = row.checkpoint
  /-- A row is decoded if its commit is shallow, and else it is not the checksum that fails. -/
  row : ∀ row ∈ store.db.rows, ReadIf row.decode (row.OfShallow accepted)
  window : ∀ key least most,
    ReadIf (store.getFrom key least most) (∀ row ∈ store.db.range key least most, row.OfShallow accepted)
  page : ∀ cursor, ReadIf (store.page cursor)
    (∀ row ∈ (store.db.later cursor.scope cursor.after).take store.handle.pageLimit, row.OfShallow accepted)
  /-- A feed answers with an error only for a page that cannot be read, when it needs that page. -/
  item : ∀ cursor error, (store.next cursor).1 = some (.error error) ↔
    cursor.page = [] ∧ cursor.exhausted = false ∧ store.page cursor = .error error

/-- Accepted commits have different checkpoints. -/
theorem Journal.Sound.eq_of_accepted {journal : Journal} {accepted : List Commit} (sound : journal.Sound accepted)
    {a b : Commit} (first : a ∈ accepted) (second : b ∈ accepted) (same : a.checkpoint = b.checkpoint) : a = b := by
  obtain ⟨i, foundFirst⟩ := List.getElem?_of_mem first
  obtain ⟨j, foundSecond⟩ := List.getElem?_of_mem second
  have one := sound.numbered i a foundFirst
  have two := sound.numbered j b foundSecond
  rw [same] at one
  obtain rfl : i = j := by omega
  exact Option.some.inj (foundFirst.symm.trans foundSecond)

namespace DatabaseStore

variable {store : DatabaseStore} {journal : Journal} {accepted : List Commit}

/-- A feed answers with an error only when it needs a page that cannot be read. -/
theorem next_error (store : DatabaseStore) (cursor : Cursor) (error : Error) :
    (store.next cursor).1 = some (.error error) ↔
      cursor.page = [] ∧ cursor.exhausted = false ∧ store.page cursor = .error error := by
  have popped : ∀ cursor : Cursor, cursor.pop.1 ≠ some (.error error) := by
    intro cursor
    unfold Cursor.pop
    split
    · exact nofun
    · exact nofun
  rw [next]
  by_cases needed : cursor.page.isEmpty ∧ cursor.exhausted = false
  · rw [if_pos needed]
    cases read : store.page cursor with
    | ok commits => simpa using popped _
    | error other => simp [List.isEmpty_iff.1 needed.1, needed.2]
  · rw [if_neg needed]
    constructor
    · exact fun wrong => absurd wrong (popped cursor)
    · rintro ⟨empty, unfinished, -⟩
      exact absurd ⟨List.isEmpty_iff.2 empty, unfinished⟩ needed

theorem Logs.readsShallow (logs : store.Logs True journal) (sound : journal.Sound accepted)
    (isOpen : store.handle.disposed = false) : store.ReadsShallow accepted := by
  have known : ∀ row ∈ store.db.rows, ∃ entry : Entry, entry.row = row ∧ entry.commit ∈ accepted := by
    intro row stored
    rw [logs.holds.rows] at stored
    obtain ⟨entry, member, same⟩ := List.mem_map.1 stored
    exact ⟨entry, same, sound.kept.subset (List.mem_map_of_mem member)⟩
  have each : ∀ row ∈ store.db.rows, ReadIf row.decode (row.OfShallow accepted) := by
    intro row stored
    obtain ⟨entry, rfl, member⟩ := known row stored
    have shallow : entry.row.OfShallow accepted ↔ entry.commit.Shallow := by
      constructor
      · rintro ⟨commit, other, same, shallow⟩
        rwa [sound.eq_of_accepted other member same] at shallow
      · exact fun shallow => ⟨entry.commit, member, rfl, shallow⟩
    rw [ReadIf, shallow]
    exact entry.decode_readIf
  refine ⟨fun row stored => ?_, each, fun key least most => ?_, fun cursor => ?_, fun cursor error => ?_⟩
  · obtain ⟨entry, rfl, member⟩ := known row stored
    exact ⟨entry.commit, member, rfl⟩
  · rw [getFrom, query_eq isOpen]
    refine decodeAll_readIf fun row member => each row ?_
    have inStream := (List.mem_filter.1 (List.mem_mergeSort.1 member)).1
    exact (List.mem_filter.1 inStream).1
  · rw [page, query_eq isOpen]
    exact decodeAll_readIf fun row member => each row (mem_later.1 (List.mem_of_mem_take member)).1
  · exact next_error store cursor error

theorem open_serveAll (isOpen : store.handle.disposed = false) {calls : List Call} (others : .dispose ∉ calls) :
    (Call.serveAll calls store).2.handle.disposed = false := by
  induction calls generalizing store with
  | nil => exact isOpen
  | cons call calls ih =>
    rw [List.mem_cons, not_or] at others
    exact ih ((store.disposed_serve (Ne.symm others.1)).trans isOpen) others.2

end DatabaseStore

/-- As many lists as given, each in the next. -/
def Json.nested : Nat → Json
  | 0 => .null
  | depth + 1 => .array [nested depth]

/-- Of the commits that a database has accepted, and still holds, it reads those that are shallow, and no others:
each window and each page is read if all of its commits are, and fails as one that cannot be decoded if not. -/
theorem shallow_commits_read (config : DatabaseConfig) {calls : List Call} (kept : .dispose ∉ calls) :
    (Call.serveAll calls (DatabaseStore.fresh config)).2.ReadsShallow
      (Call.accepted (Call.serveAll calls (DatabaseStore.fresh config)).1) := by
  obtain ⟨journal, sound, logs⟩ := DatabaseStore.serveAll_sound (.fresh config) .empty calls
  exact logs.readsShallow sound (DatabaseStore.open_serveAll rfl kept)

/-- Of two commits the second, whose header is one list too deep, is accepted like the first but not read. -/
theorem shallow_commits_read_beside_deep :
    let attempt (name : String) (depth : Nat) : Attempt :=
      ⟨⟨"orders"⟩, ⟨name⟩, 1, ⟨name⟩, 1, 0, [("nested", .nested depth)], [{ body := [1] }]⟩
    let calls : List Call := [.commit (attempt "7" 126), .commit (attempt "8" 127)]
    let run := Call.serveAll calls (DatabaseStore.fresh {})
    .dispose ∉ calls ∧ (Call.accepted run.1).map (fun commit => decide commit.Shallow) = [true, false] ∧
      run.2.ReadsShallow (Call.accepted run.1) := by
  intro attempt calls run
  have kept : .dispose ∉ calls := by simp [calls]
  exact ⟨kept, by decide +kernel, shallow_commits_read {} kept⟩

/-- A commit that has been accepted cannot be read, neither from its stream nor from a feed. -/
theorem accepted_commit_unread :
    let attempt : Attempt := ⟨⟨"default"⟩, ⟨"s"⟩, 1, ⟨"a"⟩, 1, 0, [("k", .nested 127)], [{ body := [1] }]⟩
    let run := Call.serveAll [.commit attempt] (DatabaseStore.fresh {})
    (Call.accepted run.1).map (fun commit => (commit.key, commit.id)) = [(attempt.key, attempt.id)] ∧
      (∃ part, run.2.getFrom attempt.key 0 maxRevision = .error (.serialization part)) ∧
      ∃ part, (run.2.next (Cursor.start .all ⟨0⟩)).1 = some (.error (.serialization part)) := by
  intro attempt run
  obtain ⟨journal, sound, logs⟩ := DatabaseStore.serveAll_sound (.fresh {}) .empty [.commit attempt]
  have reads : run.2.ReadsShallow (Call.accepted run.1) := logs.readsShallow sound (by decide +kernel)
  have deep : ∀ commit ∈ Call.accepted run.1, ¬ commit.Shallow := by decide +kernel
  have unread : ∀ row : Row, ¬ row.OfShallow (Call.accepted run.1) := fun row ⟨commit, member, _, shallow⟩ =>
    deep commit member shallow
  refine ⟨by decide +kernel, ?_, ?_⟩
  · have stored : (run.2.db.range attempt.key 0 maxRevision).length = 1 := by decide +kernel
    obtain ⟨row, member⟩ := List.exists_mem_of_length_pos (Nat.lt_of_lt_of_eq Nat.one_pos stored.symm)
    exact ((reads.window attempt.key 0 maxRevision).resolve_left fun fit => unread row (fit.1 row member)).2
  · have stored : ((run.2.db.later .all ⟨0⟩).take run.2.handle.pageLimit).length = 1 := by decide +kernel
    obtain ⟨row, member⟩ := List.exists_mem_of_length_pos (Nat.lt_of_lt_of_eq Nat.one_pos stored.symm)
    obtain ⟨-, part, failed⟩ :=
      (reads.page (Cursor.start .all ⟨0⟩)).resolve_left fun fit => unread row (fit.1 row member)
    exact ⟨part, (reads.item _ _).2 ⟨rfl, rfl, failed⟩⟩

end CommitLog
