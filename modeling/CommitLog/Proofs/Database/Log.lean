import CommitLog.Proofs.Database.Rows

/-!
The log of a database holds a journal (`Database.Holds`): there is one row for each entry, in the same
order. A transaction decides an attempt by the postings of its stream (`append_eq`), and whatever else
is done to the database, its log goes on to hold a journal.
-/

namespace CommitLog.Database

structure Holds (db : Database) (journal : Journal) : Prop where
  rows : db.rows = journal.entries.map Entry.row
  last : db.lastCheckpoint = journal.last
  unlocked : db.writeLocked = false
  stamps : db.stampsUnique = false

theorem Holds.empty : Holds {} {} := ⟨rfl, rfl, rfl, rfl⟩

variable {db : Database} {journal : Journal} {accepted : List Commit}

theorem Holds.stream_eq (holds : db.Holds journal) (key : StreamKey) :
    db.stream key = (journal.entriesOf key).map Entry.row := by
  rw [Database.stream, holds.rows, List.filter_map]
  rfl

theorem Holds.holdsId_iff (holds : db.Holds journal) (attempt : Attempt) :
    db.holdsId attempt = true ↔ ∃ posting ∈ journal.postings attempt.key, posting.id = attempt.id := by
  rw [holdsId, holds.stream_eq, List.any_eq_true, Journal.postings, Journal.stream_eq_map]
  constructor
  · rintro ⟨row, member, same⟩
    obtain ⟨entry, inStream, rfl⟩ := List.mem_map.1 member
    exact ⟨entry.commit.posting, List.mem_map_of_mem (List.mem_map_of_mem inStream), of_decide_eq_true same⟩
  · rintro ⟨posting, member, same⟩
    rw [List.map_map] at member
    obtain ⟨entry, inStream, rfl⟩ := List.mem_map.1 member
    exact ⟨entry.row, List.mem_map_of_mem inStream, decide_eq_true same⟩

/-- The postings that the rows of a stream tell are those of its commits. -/
theorem Holds.postings_eq (holds : db.Holds journal) (sound : journal.Sound accepted) (key : StreamKey) :
    (db.stream key).map Row.posting = journal.postings key := by
  rw [holds.stream_eq, Journal.postings, Journal.stream_eq_map, List.map_map, List.map_map]
  exact List.map_congr_left fun entry member => Entry.posting_row (sound.fits (Journal.mem_entriesOf member))

/-- The row of the greatest sequence is the last one of the stream. -/
theorem Holds.lastRow_eq (holds : db.Holds journal) (sound : journal.Sound accepted) (key : StreamKey) :
    db.lastRow key = (journal.entriesOf key).getLast?.map Entry.row := by
  rw [lastRow, holds.stream_eq]
  cases last : (journal.entriesOf key).getLast? with
  | none =>
    simp [List.getLast?_eq_none_iff.1 last]
  | some entry =>
    obtain ⟨before, shape⟩ := List.getLast?_eq_some_iff.1 last
    have column : ∀ other ∈ journal.entriesOf key, other.row.sequence.toInt = other.commit.sequence.toNat :=
      fun other member =>
        Column.toInt_ofWord (sound.fits (Journal.mem_entriesOf member)).sequence
    have ordered := sound.sequences_ascend key
    rw [shape] at ordered
    obtain ⟨-, -, below⟩ := List.pairwise_append.1 ordered
    have earlier : ∀ other ∈ journal.entriesOf key,
        other = entry ∨ other.commit.sequence.toNat < entry.commit.sequence.toNat := by
      intro other member
      rw [shape] at member
      rcases List.mem_append.1 member with early | same
      · exact .inr (below other early entry (by simp))
      · exact .inl (List.mem_singleton.1 same)
    have member := List.mem_of_getLast? last
    refine head?_mergeSort (List.mem_map_of_mem member) ?_ ?_
    · intro row inRows
      obtain ⟨other, inStream, rfl⟩ := List.mem_map.1 inRows
      rw [column other inStream, column entry member]
      rcases earlier other inStream with rfl | less <;> omega
    · intro row inRows same
      obtain ⟨other, inStream, rfl⟩ := List.mem_map.1 inRows
      rw [column other inStream, column entry member] at same
      rcases earlier other inStream with rfl | less
      · rfl
      · omega

theorem Holds.lastSequence_eq (holds : db.Holds journal) (sound : journal.Sound accepted) (key : StreamKey) :
    ((db.lastRow key).map fun row => Column.toWord row.sequence).getD 0 =
      UInt64.ofNat (journal.postings key).length := by
  rw [holds.lastRow_eq sound]
  cases last : (journal.entriesOf key).getLast? with
  | none =>
    have empty : journal.postings key = [] := by
      rw [Journal.postings, Journal.stream_eq_map, List.getLast?_eq_none_iff.1 last]
      rfl
    rw [empty]
    rfl
  | some entry =>
    have member := Journal.mem_entriesOf (List.mem_of_getLast? last)
    have posted : (journal.postings key).getLast? = some entry.commit.posting := by
      rw [Journal.postings, Journal.stream_eq_map, List.getLast?_map, List.getLast?_map, last]
      rfl
    have sequence : entry.commit.sequence.toNat = _ := (sound.streams key).sequence_last posted
    rw [← sequence, UInt64.ofNat_toNat]
    exact Column.toWord_ofWord (sound.fits member).sequence

theorem Holds.lastRevision_eq (holds : db.Holds journal) (sound : journal.Sound accepted) (key : StreamKey) :
    (((db.lastRow key).map fun row => Column.toWord row.revision).getD 0).toNat =
      Posting.lastRevision (journal.postings key) := by
  rw [holds.lastRow_eq sound, Posting.lastRevision, Journal.postings, Journal.stream_eq_map, List.getLast?_map,
    List.getLast?_map]
  cases last : (journal.entriesOf key).getLast? with
  | none => rfl
  | some entry =>
    have member := Journal.mem_entriesOf (List.mem_of_getLast? last)
    exact congrArg UInt64.toNat (Column.toWord_ofWord (sound.fits member).revision)

/-! ### Appending -/

/-- The tables once a commit has been added. -/
def appended (attempt : Attempt) (checkpoint : Checkpoint) (db : Database) : Database :=
  { db with
    rows := db.rows ++ [rowOf attempt checkpoint]
    lastCheckpoint := checkpoint
    heads := raiseHead attempt.key (Column.ofWord attempt.revision) db.heads }

/-- A new commit is in no unique index if its stream takes it. -/
theorem Holds.no_violation (holds : db.Holds journal) (sound : journal.Sound accepted) {attempt : Attempt}
    (taken : attempt.refusal (journal.postings attempt.key) = none) {checkpoint : Checkpoint}
    (next : journal.last.next = .ok checkpoint) : db.violatesUnique (rowOf attempt checkpoint) = false := by
  obtain ⟨-, -, fresh, sequence, -⟩ := Attempt.refusal_eq_none.1 taken
  rw [Bool.eq_false_iff, violatesUnique, holds.stamps, holds.rows, ne_eq, List.any_eq_true]
  rintro ⟨row, member, clash⟩
  obtain ⟨entry, inJournal, rfl⟩ := List.mem_map.1 member
  simp only [Bool.false_and, Bool.or_false, Bool.and_eq_true, Bool.or_eq_true, decide_eq_true_eq] at clash
  have inCommits : entry.commit ∈ journal.commits := List.mem_map_of_mem inJournal
  have inStream : entry.commit ∈ journal.stream attempt.key :=
    List.mem_filter.2 ⟨inCommits, decide_eq_true clash.1⟩
  rcases clash.2 with sameSequence | sameId
  · -- The new sequence is beyond all others, and still fits its column.
    have limit : maxRevision.toNat = 9223372036854775807 := rfl
    have bound := sound.sequence_le inStream
    have few : (journal.postings attempt.key).length ≤ accepted.length := sound.length_le attempt.key
    have room := checkpoint.toInt_lt
    rw [Checkpoint.toInt_next next, sound.last] at room
    have stored : (Column.ofWord entry.commit.sequence).toInt = entry.commit.sequence.toNat :=
      Column.toInt_ofWord (by omega)
    have new : (Column.ofWord attempt.sequence).toInt = attempt.sequence.toNat := Column.toInt_ofWord (by omega)
    have same : (Column.ofWord entry.commit.sequence).toInt = (Column.ofWord attempt.sequence).toInt :=
      congrArg Int64.toInt sameSequence
    omega
  · exact fresh entry.commit.posting (List.mem_map_of_mem inStream) sameId

/-- A transaction decides an attempt of the right form by the postings of its stream. -/
theorem Holds.append_eq (holds : db.Holds journal) (sound : journal.Sound accepted) {attempt : Attempt}
    (valid : attempt.validate = .ok ()) :
    db.append attempt =
      match attempt.refusal (journal.postings attempt.key) with
      | some error => .error error
      | none =>
        match journal.last.next with
        | .error _ => .error (.sql "database or disk is full")
        | .ok checkpoint => .ok (checkpoint, db.appended attempt checkpoint) := by
  have ends := holds.lastRevision_eq sound attempt.key
  unfold append
  dsimp only
  rw [holds.lastSequence_eq sound, holds.last]
  by_cases held : ∃ posting ∈ journal.postings attempt.key, posting.id = attempt.id
  · rw [Attempt.refusal_of_valid valid, if_pos held, if_pos ((holds.holdsId_iff attempt).2 held)]
    rfl
  · have notHeld : ¬ db.holdsId attempt = true := fun found => held ((holds.holdsId_iff attempt).1 found)
    have follows := Attempt.checkFollows_eq valid held (sound.length_lt attempt.key) ends
    rw [if_neg notHeld, follows]
    cases taken : attempt.refusal (journal.postings attempt.key) with
    | some error => rfl
    | none =>
      cases next : journal.last.next with
      | error overflow => rfl
      | ok checkpoint =>
        have free := holds.no_violation sound taken next
        show (if db.violatesUnique (rowOf attempt checkpoint) = true then _ else _) = _
        rw [free]
        rfl

/-! ### What a transaction does to the log -/

theorem Holds.appended (holds : db.Holds journal) (attempt : Attempt) (checkpoint : Checkpoint) :
    (db.appended attempt checkpoint).Holds (journal.accept attempt checkpoint) where
  rows := by
    show db.rows ++ _ = (journal.entries ++ _).map Entry.row
    rw [holds.rows, List.map_append]
    rfl
  last := rfl
  unlocked := holds.unlocked
  stamps := holds.stamps

theorem Holds.markDispatched (holds : db.Holds journal) (checkpoint : Checkpoint) :
    (db.markDispatched checkpoint).Holds (journal.dispatch checkpoint) where
  rows := by
    show db.rows.map _ = (journal.entries.map _).map Entry.row
    rw [holds.rows, List.map_map, List.map_map]
    refine List.map_congr_left fun entry _ => ?_
    have same : entry.row.checkpoint = entry.commit.checkpoint := rfl
    simp only [Function.comp_apply, same]
    split <;> rfl
  last := holds.last
  unlocked := holds.unlocked
  stamps := holds.stamps

theorem Holds.removeWhere (holds : db.Holds journal) (gone : StreamKey → Bool) :
    (db.removeWhere gone).Holds (journal.remove gone) where
  rows := by
    show db.rows.filter _ = (journal.entries.filter _).map Entry.row
    rw [holds.rows, List.filter_map]
    rfl
  last := holds.last
  unlocked := holds.unlocked
  stamps := holds.stamps

theorem Holds.addSnapshot (holds : db.Holds journal) (snapshot : Snapshot) :
    (db.addSnapshot snapshot).2.Holds journal := by
  unfold Database.addSnapshot
  dsimp only
  split
  · exact holds
  split
  · exact holds
  · exact ⟨holds.rows, holds.last, holds.unlocked, holds.stamps⟩

/-- Opening a database writes at most its version. -/
theorem Holds.verifyVersion (holds : db.Holds journal) : db.verifyVersion.2.Holds journal := by
  have free : ¬ db.writeLocked = true := by simp [holds.unlocked]
  unfold Database.verifyVersion
  split
  · split
    · exact holds
    · exact holds
  · rw [Database.write, if_neg free]
    exact ⟨holds.rows, holds.last, holds.unlocked, holds.stamps⟩

end CommitLog.Database
