import CommitLog.Proofs.Database.Reading
import CommitLog.Proofs.Streams

/-!
One stream of a database among the others. As of ledgers, stores that are alike on a stream answer alike about
it (`Alike.answer`) and go on to be alike, whatever is called on both (`Alike.after`).
-/

namespace CommitLog

/-- A row apart from its place in the log, and from whether it has been dispatched. -/
def Row.unnumbered (row : Row) : Row := { row with checkpoint := Checkpoint.start, dispatched := false }

namespace Row

theorem decode_unnumbered {row : Row} (intact : row.intact = true) :
    row.unnumbered.decode = row.decode.map Commit.unnumbered := by
  have same : row.unnumbered.intact = true := intact
  rw [decode, decode, if_pos intact, if_pos same]
  have headers : row.unnumbered.headers = row.headers := rfl
  have payload : row.unnumbered.payload = row.payload := rfl
  rw [headers, payload]
  cases Codec.decodeHeaders row.headers with
  | none => rfl
  | some headers => cases Codec.decodeEvents row.payload <;> rfl

theorem decodeAll_unnumbered {rows : List Row} (intact : ∀ row ∈ rows, row.intact = true) :
    decodeAll (rows.map unnumbered) = (decodeAll rows).map fun commits => commits.map Commit.unnumbered := by
  induction rows with
  | nil => rfl
  | cons row rest ih =>
    have first := decode_unnumbered (intact row (by simp))
    have others := ih fun other member => intact other (by simp [member])
    rw [List.map_cons, decodeAll, decodeAll, first, others]
    cases row.decode with
    | error => rfl
    | ok commit => cases decodeAll rest <;> rfl

end Row

namespace Database

/-- Two databases hold the same of a stream. -/
structure Alike (key : StreamKey) (a b : Database) : Prop where
  stream : (a.stream key).map Row.unnumbered = (b.stream key).map Row.unnumbered
  heads : (a.heads.filter fun head => head.key = key) = b.heads.filter fun head => head.key = key
  snapshots : (a.snapshots.filter fun row => row.key = key) = b.snapshots.filter fun row => row.key = key

variable {key : StreamKey} {a b c : Database}

theorem Alike.refl (key : StreamKey) (a : Database) : Alike key a a := ⟨rfl, rfl, rfl⟩

theorem Alike.symm (alike : Alike key a b) : Alike key b a :=
  ⟨alike.stream.symm, alike.heads.symm, alike.snapshots.symm⟩

theorem Alike.trans (first : Alike key a b) (second : Alike key b c) : Alike key a c :=
  ⟨first.stream.trans second.stream, first.heads.trans second.heads, first.snapshots.trans second.snapshots⟩

/-! ### Queries -/

theorem Alike.range (alike : Alike key a b) (least most : UInt64) :
    (a.range key least most).map Row.unnumbered = (b.range key least most).map Row.unnumbered := by
  have parts : ∀ db : Database, (db.range key least most).map Row.unnumbered =
      (((db.stream key).map Row.unnumbered).filter fun row =>
        row.intersects (Column.ofWord least) (Column.ofWord most)).mergeSort fun a b =>
          a.sequence.toInt ≤ b.sequence.toInt := by
    intro db
    rw [Database.range, List.filter_map]
    exact List.map_mergeSort fun _ _ _ _ => rfl
  rw [parts, parts, alike.stream]

/-- Nothing has changed the rows of a journal. -/
theorem Holds.range_intact {db : Database} {journal : Journal} (holds : db.Holds journal) (key : StreamKey)
    (least most : UInt64) : ∀ row ∈ db.range key least most, row.intact = true := by
  intro row member
  have inStream := (List.mem_filter.1 (List.mem_mergeSort.1 member)).1
  have stored := (List.mem_filter.1 inStream).1
  rw [holds.rows] at stored
  obtain ⟨entry, -, rfl⟩ := List.mem_map.1 stored
  exact decide_eq_true rfl

theorem Alike.head? (alike : Alike key a b) : a.head? key = b.head? key := by
  rw [Database.head?, Database.head?, ← List.head?_filter, ← List.head?_filter, alike.heads]

theorem Alike.snapshot? (alike : Alike key a b) (most : UInt64) : a.snapshot? key most = b.snapshot? key most := by
  have parts : ∀ db : Database, (db.snapshots.filter fun row => row.key = key ∧ row.revision ≤ Column.ofWord most) =
      (db.snapshots.filter fun row => row.key = key).filter fun row => row.revision ≤ Column.ofWord most := by
    intro db
    simp only [List.filter_filter, Bool.decide_and, Bool.and_comm]
  rw [Database.snapshot?, Database.snapshot?, parts, parts, alike.snapshots]

theorem Alike.known (alike : Alike key a b) (revision : Int64) :
    (a.snapshots.any fun row => row.key = key ∧ row.revision = revision) =
      b.snapshots.any fun row => row.key = key ∧ row.revision = revision := by
  have parts : ∀ db : Database, (db.snapshots.any fun row => row.key = key ∧ row.revision = revision) =
      (db.snapshots.filter fun row => row.key = key).any fun row => row.revision = revision := by
    intro db
    simp only [List.any_filter, Bool.decide_and]
  rw [parts, parts, alike.snapshots]

theorem Alike.mem_heads (alike : Alike key a b) {head : HeadRow} (same : head.key = key) :
    head ∈ a.heads ↔ head ∈ b.heads := by
  have parts : ∀ db : Database, head ∈ db.heads ↔ head ∈ db.heads.filter fun head => head.key = key := by
    intro db
    simp [List.mem_filter, same]
  rw [parts, parts, alike.heads]

/-! ### What a transaction does to the stream -/

theorem raiseHead_of_other {other : StreamKey} (different : other ≠ key) (revision : Int64) (heads : List HeadRow) :
    ((raiseHead other revision heads).filter fun head => head.key = key) = heads.filter fun head => head.key = key := by
  induction heads with
  | nil => simp [raiseHead, different]
  | cons head rest ih =>
    rw [raiseHead]
    by_cases here : head.key = other
    · simp [here, different]
    · rw [if_neg here, List.filter_cons, List.filter_cons, ih]

/-- The head of a stream is raised alike wherever it is among the others. -/
theorem raiseHead_of_same (revision : Int64) (heads : List HeadRow) :
    ((raiseHead key revision heads).filter fun head => head.key = key) =
      raiseHead key revision (heads.filter fun head => head.key = key) := by
  induction heads with
  | nil => simp [raiseHead]
  | cons head rest ih =>
    rw [raiseHead]
    by_cases here : head.key = key
    · simp [here, raiseHead]
    · rw [if_neg here, List.filter_cons, List.filter_cons, if_neg (by simp [here]), if_neg (by simp [here]), ih]

theorem stream_appended (attempt : Attempt) (checkpoint : Checkpoint) (db : Database) :
    (db.appended attempt checkpoint).stream key =
      db.stream key ++ if attempt.key = key then [rowOf attempt checkpoint] else [] := by
  have row : (rowOf attempt checkpoint).key = attempt.key := rfl
  show List.filter _ (db.rows ++ _) = _
  rw [List.filter_append, List.filter_singleton, row]
  congr 1
  by_cases same : attempt.key = key
  · simp [same]
  · simp [same]

theorem alike_appended_other {attempt : Attempt} (other : attempt.key ≠ key) (checkpoint : Checkpoint)
    (db : Database) : Alike key (db.appended attempt checkpoint) db where
  stream := by rw [stream_appended, if_neg other, List.append_nil]
  heads := raiseHead_of_other other _ db.heads
  snapshots := rfl

theorem Alike.appended (alike : Alike key a b) {attempt : Attempt} (same : attempt.key = key)
    (first second : Checkpoint) : Alike key (a.appended attempt first) (b.appended attempt second) where
  stream := by
    rw [stream_appended, stream_appended, if_pos same, if_pos same, List.map_append, List.map_append, alike.stream]
    rfl
  heads := by
    subst same
    have raised := fun db : Database => @raiseHead_of_same attempt.key (Column.ofWord attempt.revision) db.heads
    exact (raised a).trans ((congrArg _ alike.heads).trans (raised b).symm)
  snapshots := alike.snapshots

theorem alike_markDispatched (checkpoint : Checkpoint) (db : Database) :
    Alike key (db.markDispatched checkpoint) db where
  stream := by
    have sameKey : ∀ row : Row,
        (if row.checkpoint = checkpoint then { row with dispatched := true } else row).key = row.key := by
      intro row
      split <;> rfl
    have sameForm : ∀ row : Row,
        (if row.checkpoint = checkpoint then { row with dispatched := true } else row).unnumbered = row.unnumbered := by
      intro row
      split <;> rfl
    refine (congrArg (List.map Row.unnumbered) (filter_edited sameKey key db.rows)).trans ?_
    rw [List.map_map]
    exact List.map_congr_left fun row _ => sameForm row
  heads := rfl
  snapshots := rfl

/-- Raising the snapshot revision of heads keeps their streams. -/
theorem key_raised (other : StreamKey) (revision : Int64) (head : HeadRow) :
    (if head.key = other then
        { head with snapshot := if head.snapshot < revision then revision else head.snapshot }
      else head).key = head.key := by
  split <;> rfl

theorem alike_addSnapshot_other {snapshot : Snapshot} (other : snapshot.key ≠ key) (db : Database) :
    Alike key (db.addSnapshot snapshot).2 db := by
  unfold Database.addSnapshot
  dsimp only
  split
  · exact .refl key db
  split
  · exact .refl key db
  · refine ⟨rfl, ?_, ?_⟩
    · exact filter_edited_other (key_raised snapshot.key _)
        (fun head here => if_neg (by rw [here]; exact Ne.symm other)) db.heads
    · simp [List.filter_append, other]

theorem Alike.addSnapshot (alike : Alike key a b) {snapshot : Snapshot} (same : snapshot.key = key) :
    (a.addSnapshot snapshot).1 = (b.addSnapshot snapshot).1 ∧
      Alike key (a.addSnapshot snapshot).2 (b.addSnapshot snapshot).2 := by
  subst same
  unfold Database.addSnapshot
  dsimp only
  rw [alike.head?, alike.known]
  split
  · exact ⟨rfl, alike⟩
  split
  · exact ⟨rfl, alike⟩
  · refine ⟨rfl, alike.stream, ?_, ?_⟩
    · have raised := filter_edited (key_raised snapshot.key (Column.ofWord snapshot.revision)) snapshot.key
      exact (raised a.heads).trans ((congrArg _ alike.heads).trans (raised b.heads).symm)
    · dsimp only
      rw [List.filter_append, List.filter_append, alike.snapshots]

theorem stream_removeWhere (gone : StreamKey → Bool) (key : StreamKey) (db : Database) :
    (db.removeWhere gone).stream key = if gone key then [] else db.stream key :=
  filter_removed Row.key gone key db.rows

theorem Alike.removeWhere (alike : Alike key a b) (gone : StreamKey → Bool) :
    Alike key (a.removeWhere gone) (b.removeWhere gone) where
  stream := by
    rw [stream_removeWhere, stream_removeWhere]
    split
    · rfl
    · exact alike.stream
  heads := by
    show List.filter _ (a.heads.filter _) = List.filter _ (b.heads.filter _)
    rw [List.filter_comm, alike.heads, List.filter_comm]
  snapshots := by
    show List.filter _ (a.snapshots.filter _) = List.filter _ (b.snapshots.filter _)
    rw [List.filter_comm, alike.snapshots, List.filter_comm]

/-- A removal leaves a stream that it does not cover as it is. -/
theorem alike_removeWhere_kept {gone : StreamKey → Bool} (kept : gone key = false) (db : Database) :
    Alike key (db.removeWhere gone) db where
  stream := by rw [stream_removeWhere, if_neg (by simp [kept])]
  heads := (filter_removed HeadRow.key gone key db.heads).trans (if_neg (by simp [kept]))
  snapshots := (filter_removed SnapshotRow.key gone key db.snapshots).trans (if_neg (by simp [kept]))

/-- Of a stream that it covers, a removal leaves what an empty database has of it. -/
theorem alike_removeWhere_gone {gone : StreamKey → Bool} (removed : gone key = true) (db : Database) :
    Alike key (db.removeWhere gone) {} where
  stream := by
    rw [stream_removeWhere, if_pos removed]
    rfl
  heads := (filter_removed HeadRow.key gone key db.heads).trans (if_pos removed)
  snapshots := (filter_removed SnapshotRow.key gone key db.snapshots).trans (if_pos removed)

end Database

/-! ### Stores -/

namespace DatabaseStore

/-- Two stores hold the same of a stream. -/
structure Alike (key : StreamKey) (a b : DatabaseStore) : Prop where
  db : a.db.Alike key b.db
  disposed : a.handle.disposed = b.handle.disposed

variable {key : StreamKey} {a b c : DatabaseStore} {journalA journalB : Journal} {acceptedA acceptedB : List Commit}

theorem Alike.refl (key : StreamKey) (a : DatabaseStore) : Alike key a a := ⟨.refl key a.db, rfl⟩

theorem Alike.symm (alike : Alike key a b) : Alike key b a := ⟨alike.db.symm, alike.disposed.symm⟩

theorem Alike.trans (first : Alike key a b) (second : Alike key b c) : Alike key a c :=
  ⟨first.db.trans second.db, first.disposed.trans second.disposed⟩

/-- Stores that are alike on a stream decide an attempt to add to it by the same rule. -/
theorem Alike.refusal (alike : Alike key a b) (holdsA : a.db.Holds journalA) (holdsB : b.db.Holds journalB)
    (soundA : journalA.Sound acceptedA) (soundB : journalB.Sound acceptedB) {attempt : Attempt}
    (same : attempt.key = key) :
    attempt.refusal (journalA.postings attempt.key) = attempt.refusal (journalB.postings attempt.key) := by
  refine attempt.refusal_congr ?_
  have postings : ∀ db : Database, ((db.stream key).map Row.posting).map Posting.unnumbered =
      ((db.stream key).map Row.unnumbered).map Row.posting := by
    intro db
    rw [List.map_map, List.map_map]
    rfl
  rw [same, ← holdsA.postings_eq soundA, ← holdsB.postings_eq soundB, postings, postings, alike.db.stream]

/-- Stores that are alike on a stream answer every call about it in the same form, if they do so for attempts to add
to it and for windows on it. -/
theorem Alike.answer_of (form : Call.Answer → Call.Answer) (alike : Alike key a b) (holdsA : a.db.Holds journalA)
    (holdsB : b.db.Holds journalB)
    (commit : b.handle.disposed = false → ∀ attempt, attempt.key = key →
      form ((Call.commit attempt).serve a).1 = form ((Call.commit attempt).serve b).1)
    (window : b.handle.disposed = false → ∀ least most,
      form ((Call.getFrom key least most).serve a).1 = form ((Call.getFrom key least most).serve b).1)
    {call : Call} (concerns : call.concerns key = true) : form (call.serve a).1 = form (call.serve b).1 := by
  cases disposed : b.handle.disposed with
  | true =>
    have other : call ≠ .dispose ∧ call ≠ .isDisposed := by constructor <;> rintro rfl <;> cases concerns
    rw [(closed (alike.disposed.trans disposed)).serve other.1 other.2, (closed disposed).serve other.1 other.2]
  | false =>
    have openA := alike.disposed.trans disposed
    cases call with
    | commit attempt => exact commit disposed attempt (of_decide_eq_true concerns)
    | getFrom other least most =>
      obtain rfl : other = key := of_decide_eq_true concerns
      exact window disposed least most
    | head other =>
      obtain rfl : other = key := of_decide_eq_true concerns
      have read : ∀ store : DatabaseStore, ((Call.head other).serve store).1 = (store.head other).map .head :=
        fun _ => rfl
      rw [read, read, head, head, query_eq openA, query_eq disposed, alike.db.head?]
    | addSnapshot taken =>
      obtain rfl : taken.key = key := of_decide_eq_true concerns
      have served : ∀ store : DatabaseStore, ((Call.addSnapshot taken).serve store).1 =
          (store.addSnapshot taken).1.map .flag := fun _ => rfl
      rw [served, served, addSnapshot, addSnapshot, update_eq openA holdsA.unlocked, update_eq disposed holdsB.unlocked]
      have same := (alike.db.addSnapshot rfl).1
      exact congrArg (fun added => form (.ok (.flag added))) same
    | snapshot other most =>
      obtain rfl : other = key := of_decide_eq_true concerns
      have read : ∀ store : DatabaseStore, ((Call.snapshot other most).serve store).1 =
          (store.snapshot other most).map .snapshot := fun _ => rfl
      rw [read, read, snapshot, snapshot, query_eq openA, query_eq disposed, alike.db.snapshot?]
    | deleteStream other =>
      have served : ∀ store : DatabaseStore, ((Call.deleteStream other).serve store).1 =
          (store.remove fun gone => gone = other).1.map fun _ => .done := fun _ => rfl
      rw [served, served, remove, remove, update_eq openA holdsA.unlocked, update_eq disposed holdsB.unlocked]
    | _ => cases concerns

/-- A snapshot is due for the stream in both stores, or in neither. -/
theorem Alike.lists (alike : Alike key a b) {head : StreamHead} (same : head.key = key) (bucket : BucketId)
    (threshold : UInt64) :
    ((Call.streamsToSnapshot bucket threshold).serve a).1.Lists head ↔
      ((Call.streamsToSnapshot bucket threshold).serve b).1.Lists head := by
  have served : ∀ store : DatabaseStore, ((Call.streamsToSnapshot bucket threshold).serve store).1 =
      (store.streamsToSnapshot bucket threshold).map .heads := fun _ => rfl
  rw [served, served, streamsToSnapshot, streamsToSnapshot]
  cases isOpen : b.handle.disposed with
  | true =>
    have refused : ∀ {store : DatabaseStore}, store.handle.disposed = true → store.ensureOpen = .error .disposed :=
      ensureOpen_of_disposed
    rw [query, query, refused isOpen, refused (alike.disposed.trans isOpen)]
    rfl
  | false =>
    have due : ∀ db : Database, head ∈ (db.streamsToSnapshot bucket threshold).map HeadRow.toHead ↔
        ∃ row ∈ db.heads, row.key = key ∧ ((row.key.bucket = bucket ∧
          (Column.ofWord threshold).toInt ≤ max (Database.HeadRow.lead row) 0) ∧ row.toHead = head) := by
      intro db
      simp only [Database.streamsToSnapshot, List.mem_map, List.mem_mergeSort, List.mem_filter, Bool.and_eq_true,
        decide_eq_true_eq]
      constructor
      · rintro ⟨row, ⟨member, due⟩, rfl⟩
        exact ⟨row, member, same, due, rfl⟩
      · rintro ⟨row, member, -, due, rfl⟩
        exact ⟨row, ⟨member, due⟩, rfl⟩
    rw [query_eq isOpen, query_eq (alike.disposed.trans isOpen)]
    refine Call.Answer.lists_ok.trans (Iff.trans ?_ Call.Answer.lists_ok.symm)
    rw [due, due]
    refine exists_congr fun row => ⟨?_, ?_⟩
    · rintro ⟨member, here, rest⟩
      exact ⟨(alike.db.mem_heads here).1 member, here, rest⟩
    · rintro ⟨member, here, rest⟩
      exact ⟨(alike.db.mem_heads here).2 member, here, rest⟩

/-- The answers are the same if the commits of the stream have the same places, and the next one has. -/
theorem Alike.answer_eq (alike : Alike key a b) (logsA : a.Logs True journalA) (logsB : b.Logs True journalB)
    (soundA : journalA.Sound acceptedA) (soundB : journalB.Sound acceptedB)
    (stream : a.db.stream key = b.db.stream key) (last : journalA.last = journalB.last) {call : Call}
    (concerns : call.concerns key = true) : (call.serve a).1 = (call.serve b).1 := by
  refine alike.answer_of id logsA.holds logsB.holds (fun isOpen attempt same => ?_) (fun isOpen least most => ?_) concerns
  · have served : ∀ store : DatabaseStore, ((Call.commit attempt).serve store).1 =
        (store.commit attempt).1.map .commit := fun _ => rfl
    rw [served, served, commit_eq logsA.holds soundA (alike.disposed.trans isOpen) attempt (logsA.cached trivial),
      commit_eq logsB.holds soundB isOpen attempt (logsB.cached trivial),
      alike.refusal logsA.holds logsB.holds soundA soundB same, last]
    split
    · rfl
    split <;> rfl
  · have read : ∀ store : DatabaseStore, ((Call.getFrom key least most).serve store).1 =
        (store.getFrom key least most).map .commits := fun _ => rfl
    rw [read, read, getFrom, getFrom, query_eq (alike.disposed.trans isOpen), query_eq isOpen, Database.range,
      Database.range, stream]

theorem Alike.answer (alike : Alike key a b) (logsA : a.Logs True journalA) (logsB : b.Logs True journalB)
    (soundA : journalA.Sound acceptedA) (soundB : journalB.Sound acceptedB)
    (roomA : acceptedA.length < 2 ^ 63 - 1) (roomB : acceptedB.length < 2 ^ 63 - 1) {call : Call}
    (concerns : call.concerns key = true) : (call.serve a).1.unnumbered = (call.serve b).1.unnumbered := by
  refine alike.answer_of Call.Answer.unnumbered logsA.holds logsB.holds (fun isOpen attempt same => ?_)
    (fun isOpen least most => ?_) concerns
  · have served : ∀ store : DatabaseStore, ((Call.commit attempt).serve store).1 =
        (store.commit attempt).1.map .commit := fun _ => rfl
    rw [served, served, commit_eq logsA.holds soundA (alike.disposed.trans isOpen) attempt (logsA.cached trivial),
      commit_eq logsB.holds soundB isOpen attempt (logsB.cached trivial),
      alike.refusal logsA.holds logsB.holds soundA soundB same, soundA.next_eq roomA, soundB.next_eq roomB]
    split <;> rfl
  · have read : ∀ store : DatabaseStore, ((Call.getFrom key least most).serve store).1.unnumbered =
        ((store.getFrom key least most).map fun commits => commits.map Commit.unnumbered).map .commits := by
      intro store
      show Call.Answer.unnumbered ((store.getFrom key least most).map .commits) = _
      cases store.getFrom key least most <;> rfl
    rw [read, read, getFrom, getFrom, query_eq (alike.disposed.trans isOpen), query_eq isOpen,
      ← Row.decodeAll_unnumbered (logsA.holds.range_intact key least most),
      ← Row.decodeAll_unnumbered (logsB.holds.range_intact key least most), alike.db.range]

/-! ### What a call does to the stream -/

theorem alike_commit_other (logs : a.Logs True journalA) (sound : journalA.Sound acceptedA)
    (isOpen : a.handle.disposed = false) {attempt : Attempt} (other : attempt.key ≠ key) :
    Alike key (a.commit attempt).2 a := by
  rw [commit_eq logs.holds sound isOpen attempt (logs.cached trivial)]
  split
  · exact .refl key a
  split
  · exact .refl key a
  · exact ⟨Database.alike_appended_other other _ a.db, rfl⟩

theorem alike_addSnapshot_other (holds : a.db.Holds journalA) (isOpen : a.handle.disposed = false)
    {snapshot : Snapshot} (other : snapshot.key ≠ key) : Alike key (a.addSnapshot snapshot).2 a := by
  rw [addSnapshot, update_eq isOpen holds.unlocked]
  exact ⟨Database.alike_addSnapshot_other other a.db, rfl⟩

theorem Alike.remove (alike : Alike key a b) (holdsA : a.db.Holds journalA) (holdsB : b.db.Holds journalB)
    (isOpen : b.handle.disposed = false) (gone : StreamKey → Bool) :
    Alike key (a.remove gone).2 (b.remove gone).2 := by
  rw [DatabaseStore.remove, DatabaseStore.remove, update_eq (alike.disposed.trans isOpen) holdsA.unlocked,
    update_eq isOpen holdsB.unlocked]
  exact ⟨alike.db.removeWhere gone, alike.disposed⟩

/-- Stores that are alike on a stream are so after any call. -/
theorem Alike.after (alike : Alike key a b) (logsA : a.Logs True journalA) (logsB : b.Logs True journalB)
    (soundA : journalA.Sound acceptedA) (soundB : journalB.Sound acceptedB)
    (roomA : acceptedA.length < 2 ^ 63 - 1) (roomB : acceptedB.length < 2 ^ 63 - 1) (call : Call) :
    Alike key (call.serve a).2 (call.serve b).2 := by
  cases isOpen : b.handle.disposed with
  | true =>
    have refusedA := @Call.Closed.serve _ _ a (closed (alike.disposed.trans isOpen)) call
    have refusedB := @Call.Closed.serve _ _ b (closed isOpen) call
    cases call with
    | dispose => exact ⟨alike.db, rfl⟩
    | isDisposed => exact alike
    | _ =>
      rw [refusedA (by simp) (by simp), refusedB (by simp) (by simp)]
      exact alike
  | false =>
    have openA := alike.disposed.trans isOpen
    cases call with
    | commit attempt =>
      show Alike key (a.commit attempt).2 (b.commit attempt).2
      by_cases same : attempt.key = key
      · rw [commit_eq logsA.holds soundA openA attempt (logsA.cached trivial),
          commit_eq logsB.holds soundB isOpen attempt (logsB.cached trivial),
          alike.refusal logsA.holds logsB.holds soundA soundB same, soundA.next_eq roomA, soundB.next_eq roomB]
        split
        · exact alike
        · exact ⟨alike.db.appended same _ _, alike.disposed⟩
      · exact (alike_commit_other logsA soundA openA same).trans
          (alike.trans (alike_commit_other logsB soundB isOpen same).symm)
    | addSnapshot snapshot =>
      show Alike key (a.addSnapshot snapshot).2 (b.addSnapshot snapshot).2
      by_cases same : snapshot.key = key
      · rw [addSnapshot, addSnapshot, update_eq openA logsA.holds.unlocked, update_eq isOpen logsB.holds.unlocked]
        exact ⟨(alike.db.addSnapshot same).2, alike.disposed⟩
      · exact (alike_addSnapshot_other logsA.holds openA same).trans
          (alike.trans (alike_addSnapshot_other logsB.holds isOpen same).symm)
    | markDispatched checkpoint =>
      show Alike key (a.markDispatched checkpoint).2 (b.markDispatched checkpoint).2
      rw [markDispatched, markDispatched, update_eq openA logsA.holds.unlocked, update_eq isOpen logsB.holds.unlocked]
      exact ⟨(Database.alike_markDispatched checkpoint a.db).trans
        (alike.db.trans (Database.alike_markDispatched checkpoint b.db).symm), alike.disposed⟩
    | readFeed scope after =>
      show Alike key (CommitStore.readFeed scope after a).2 (CommitStore.readFeed scope after b).2
      rw [readFeed_store, readFeed_store]
      exact alike
    | deleteStream gone => exact alike.remove logsA.holds logsB.holds isOpen fun other => other = gone
    | purgeBucket bucket => exact alike.remove logsA.holds logsB.holds isOpen fun other => other.bucket = bucket
    | purge => exact alike.remove logsA.holds logsB.holds isOpen fun _ => true
    | dispose => exact ⟨alike.db, rfl⟩
    | prepare | getFrom | head | snapshot | streamsToSnapshot | isDisposed => exact alike

/-- Stores that are alike on a stream are so after any calls, as long as there are checkpoints left. -/
theorem Alike.afterAll (alike : Alike key a b) (logsA : a.Logs True journalA) (logsB : b.Logs True journalB)
    (soundA : journalA.Sound acceptedA) (soundB : journalB.Sound acceptedB) {calls : List Call}
    (roomA : (acceptedA ++ Call.accepted (Call.serveAll calls a).1).length < 2 ^ 63 - 1)
    (roomB : (acceptedB ++ Call.accepted (Call.serveAll calls b).1).length < 2 ^ 63 - 1) :
    Alike key (Call.serveAll calls a).2 (Call.serveAll calls b).2 := by
  induction calls generalizing a b journalA journalB acceptedA acceptedB with
  | nil => exact alike
  | cons call calls ih =>
    simp only [Call.serveAll, Call.accepted_cons, ← List.append_assoc] at roomA roomB
    obtain ⟨nextA, stepA, loggedA⟩ := serve_step logsA soundA call
    obtain ⟨nextB, stepB, loggedB⟩ := serve_step logsB soundB call
    have before : acceptedA.length < 2 ^ 63 - 1 ∧ acceptedB.length < 2 ^ 63 - 1 := by
      simp only [List.length_append] at roomA roomB
      omega
    exact ih (alike.after logsA logsB soundA soundB before.1 before.2 call) loggedA loggedB (soundA.step stepA)
      (soundB.step stepB) roomA roomB

end DatabaseStore
end CommitLog
