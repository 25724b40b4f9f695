import CommitLog.Proofs.Database.Log
import CommitLog.Proofs.Feed
import CommitLog.Proofs.Ledger

/-!
Reading from a database whose log holds a journal: a window shows the commits of the stream that it
overlaps, where one that starts beyond the largest revision counts as starting there (`getFrom_eq`,
`intersects_row`), and a feed shows everything that lies after its checkpoint (`rest_eq`).
-/

namespace CommitLog

/-- The columns of a row know which windows its commit overlaps. A window that starts beyond the largest
revision counts as one that starts there. -/
theorem Entry.intersects_row {entry : Entry} (fits : entry.commit.Fits) (least most : UInt64) :
    entry.row.intersects (Column.ofWord least) (Column.ofWord most) =
      entry.commit.overlaps (min least maxRevision) most := by
  have limit : maxRevision.toNat = 9223372036854775807 := rfl
  have revision : entry.row.revision.toInt = entry.commit.revision.toNat := Column.toInt_ofWord fits.revision
  have items := Entry.items_row fits
  have events := List.length_pos_iff.2 fits.events
  have covers := fits.covers
  have bound := fits.revision
  have lower : (Column.ofWord least).toInt ≤ entry.commit.revision.toNat ↔
      (min least maxRevision).toNat ≤ entry.commit.revision.toNat := by
    rw [toNat_min]
    by_cases small : least.toNat ≤ maxRevision.toNat
    · rw [Column.toInt_ofWord small]
      omega
    · rw [Column.toInt_ofWord_large (by omega)]
      omega
  have upper : (entry.commit.revision.toNat : Int) - entry.commit.events.length + 1 ≤ (Column.ofWord most).toInt ↔
      entry.commit.revision.toNat + 1 ≤ most.toNat + entry.commit.events.length := by
    by_cases small : most.toNat ≤ maxRevision.toNat
    · rw [Column.toInt_ofWord small]
      omega
    · rw [Column.toInt_ofWord_large (by omega)]
      omega
  rw [Row.intersects, Commit.overlaps, revision, items, decide_eq_decide.2 lower, decide_eq_decide.2 upper]

namespace Database

variable {db : Database} {journal : Journal} {accepted : List Commit}

/-- A window shows rows of the stream in their order. -/
theorem Holds.range_eq (holds : db.Holds journal) (sound : journal.Sound accepted) (key : StreamKey)
    (least most : UInt64) :
    db.range key least most =
      ((journal.entriesOf key).filter fun entry =>
        entry.row.intersects (Column.ofWord least) (Column.ofWord most)).map Entry.row := by
  rw [range, holds.stream_eq, List.filter_map]
  refine List.mergeSort_of_pairwise ?_
  rw [List.pairwise_map]
  refine List.Pairwise.imp_of_mem (fun {a b} first second less => ?_)
    ((sound.sequences_ascend key).sublist List.filter_sublist)
  have fitsFirst := sound.fits (Journal.mem_entriesOf (List.mem_filter.1 first).1)
  have fitsSecond := sound.fits (Journal.mem_entriesOf (List.mem_filter.1 second).1)
  have one : a.row.sequence.toInt = a.commit.sequence.toNat := Column.toInt_ofWord fitsFirst.sequence
  have two : b.row.sequence.toInt = b.commit.sequence.toNat := Column.toInt_ofWord fitsSecond.sequence
  rw [decide_eq_true_eq, one, two]
  omega

/-- A feed shows the entries after its checkpoint in their order. -/
theorem Holds.later_eq (holds : db.Holds journal) (sound : journal.Sound accepted) (scope : Scope)
    (after : Checkpoint) :
    db.later scope after = (journal.entries.filter (Entry.shown scope after)).map Entry.row := by
  have shown : (db.rows.filter fun row => after < row.checkpoint && row.inScope scope) =
      (journal.entries.filter (Entry.shown scope after)).map Entry.row := by
    rw [holds.rows, List.filter_map]
    refine congrArg (List.map Entry.row) (List.filter_congr fun entry _ => ?_)
    cases scope <;> rfl
  rw [later, shown]
  refine List.mergeSort_of_pairwise ?_
  have ascending := sound.ascending
  rw [Journal.commits, List.pairwise_map] at ascending
  rw [List.pairwise_map]
  refine (ascending.sublist List.filter_sublist).imp fun less => ?_
  exact decide_eq_true (Int.le_of_lt less)

end Database

/-! ### Feeds -/

/-- What a feed shows after a commit that it has shown. -/
theorem Journal.shown_later {journal : Journal} {scope : Scope} {after : Checkpoint} {last : Entry}
    (member : last ∈ journal.entries.filter (Entry.shown scope after)) :
    journal.entries.filter (Entry.shown scope last.commit.checkpoint) =
      (journal.entries.filter (Entry.shown scope after)).filter fun entry =>
        last.commit.checkpoint.toInt < entry.commit.checkpoint.toInt := by
  have ahead : after.toInt < last.commit.checkpoint.toInt := by
    have shown := (List.mem_filter.1 member).2
    unfold Entry.shown at shown
    rw [Bool.and_eq_true, decide_eq_true_eq] at shown
    exact shown.1
  rw [List.filter_filter]
  refine List.filter_congr fun entry _ => ?_
  simp only [Entry.shown, Checkpoint.lt_iff]
  by_cases far : last.commit.checkpoint.toInt < entry.commit.checkpoint.toInt
  · simp [far, show after.toInt < entry.commit.checkpoint.toInt by omega]
  · simp [far]

namespace DatabaseStore

/-- The commits that a feed shows after a checkpoint, each as `back` gives it. -/
def shown (back : Entry → Commit) (journal : Journal) (scope : Scope) (after : Checkpoint) : List Commit :=
  (journal.entries.filter (Entry.shown scope after)).map back

/-- The commits that a feed shows after a checkpoint, as they come back from their rows. -/
def stored (journal : Journal) (scope : Scope) (after : Checkpoint) : List Commit :=
  shown (fun entry => entry.commit.stored) journal scope after

variable {store : DatabaseStore} {journal : Journal} {accepted : List Commit}

/-- A window shows the commits that it overlaps, as they come back from their rows. -/
theorem getFrom_eq (holds : store.db.Holds journal) (sound : journal.Sound accepted) {key : StreamKey}
    (storable : ∀ commit ∈ journal.stream key, commit.Storable) (isOpen : store.handle.disposed = false)
    (least most : UInt64) :
    store.getFrom key least most =
      .ok (((journal.stream key).filter (Commit.overlaps (min least maxRevision) most)).map Commit.stored) := by
  have window : ((journal.entriesOf key).filter fun entry =>
      entry.row.intersects (Column.ofWord least) (Column.ofWord most)) =
        (journal.entriesOf key).filter fun entry => entry.commit.overlaps (min least maxRevision) most :=
    List.filter_congr fun entry member =>
      Entry.intersects_row (sound.fits (Journal.mem_entriesOf member)) least most
  have shown : ∀ entry ∈ (journal.entriesOf key).filter fun entry =>
      entry.commit.overlaps (min least maxRevision) most, entry ∈ journal.entriesOf key := fun entry member =>
    (List.mem_filter.1 member).1
  have inStream : ∀ entry ∈ journal.entriesOf key, entry.commit ∈ journal.stream key := by
    intro entry member
    rw [Journal.stream_eq_map]
    exact List.mem_map_of_mem member
  have decoded := decodeAll_map fun entry member =>
    Entry.decode_row (sound.fits (Journal.mem_entriesOf (shown entry member)))
      (storable _ (inStream entry (shown entry member)))
  rw [getFrom, query, ensureOpen, if_neg (by simp [isOpen]), holds.range_eq sound, window, Journal.stream_eq_map,
    List.filter_map, List.map_map]
  exact decoded

/-- Every entry of a journal is read back from its row as `back` says. -/
def ReadsBack (journal : Journal) (back : Entry → Commit) : Prop :=
  ∀ entry ∈ journal.entries, entry.row.decode = .ok (back entry)

theorem ReadsBack.of_storable (sound : journal.Sound accepted) (storable : ∀ commit ∈ journal.commits, commit.Storable) :
    ReadsBack journal fun entry => entry.commit.stored := by
  intro entry member
  have known : entry.commit ∈ journal.commits := List.mem_map_of_mem member
  exact Entry.decode_row (sound.fits known) (storable _ known)

variable {back : Entry → Commit}

theorem ReadsBack.checkpoint (reads : ReadsBack journal back) {entry : Entry} (member : entry ∈ journal.entries) :
    (back entry).checkpoint = entry.commit.checkpoint :=
  decode_checkpoint (reads entry member)

/-- What a feed shows ascends. -/
theorem shown_ascending (sound : journal.Sound accepted) (reads : ReadsBack journal back) (scope : Scope)
    (after : Checkpoint) :
    (shown back journal scope after).Pairwise fun a b => a.checkpoint.toInt < b.checkpoint.toInt := by
  have ascending := sound.ascending
  rw [Journal.commits, List.pairwise_map] at ascending
  refine List.pairwise_map.2 ((ascending.sublist List.filter_sublist).imp_of_mem fun {a b} first second less => ?_)
  rw [reads.checkpoint (List.mem_filter.1 first).1, reads.checkpoint (List.mem_filter.1 second).1]
  exact less

theorem page_eq (holds : store.db.Holds journal) (sound : journal.Sound accepted) (reads : ReadsBack journal back)
    (isOpen : store.handle.disposed = false) (cursor : Cursor) :
    store.page cursor = .ok ((shown back journal cursor.scope cursor.after).take store.handle.pageLimit) := by
  rw [page, query, ensureOpen, if_neg (by simp [isOpen]), holds.later_eq sound, ← List.map_take, shown,
    ← List.map_take]
  exact decodeAll_map fun entry member => reads entry (List.mem_filter.1 (List.mem_of_mem_take member)).1

theorem shown_beyond (reads : ReadsBack journal back) {scope : Scope} {after : Checkpoint} {commit : Commit}
    (member : commit ∈ shown back journal scope after) : after < commit.checkpoint := by
  obtain ⟨entry, inJournal, rfl⟩ := List.mem_map.1 member
  obtain ⟨known, visible⟩ := List.mem_filter.1 inJournal
  rw [reads.checkpoint known]
  unfold Entry.shown at visible
  rw [Bool.and_eq_true, decide_eq_true_eq] at visible
  exact visible.1

/-- A full page leaves what lies after its last commit. -/
theorem shown_after_page (sound : journal.Sound accepted) (reads : ReadsBack journal back) {scope : Scope}
    {after : Checkpoint} {count : Nat} {last : Commit}
    (found : ((shown back journal scope after).take count).getLast? = some last) :
    shown back journal scope last.checkpoint = (shown back journal scope after).drop count := by
  rw [shown, ← List.map_take, List.getLast?_map] at found
  obtain ⟨entry, isLast, rfl⟩ := Option.map_eq_some_iff.1 found
  have ascending := sound.ascending
  rw [Journal.commits, List.pairwise_map] at ascending
  have member := List.mem_of_mem_take (List.mem_of_getLast? isLast)
  have beyond := @beyond_page _ (fun entry => entry.commit.checkpoint.toInt) _
    (ascending.sublist List.filter_sublist) _ _ isLast
  have later := Journal.shown_later member
  rw [beyond] at later
  rw [reads.checkpoint (List.mem_filter.1 member).1, shown, shown, ← List.map_drop, ← later]

/-- A page is asked for when the one before it is empty, and what it holds is what lies next. -/
theorem turns (holds : store.db.Holds journal) (sound : journal.Sound accepted) (reads : ReadsBack journal back)
    (isOpen : store.handle.disposed = false) : Turns (fun cursor => next cursor store) (shown back journal) := by
  intro cursor
  by_cases needed : cursor.page.isEmpty ∧ cursor.exhausted = false
  · have read := page_eq holds sound reads isOpen cursor
    have limit : 1 ≤ store.handle.pageLimit := Nat.le_max_left 1 _
    refine ⟨_, by dsimp only; rw [next, if_pos needed, read], .inr ?_⟩
    generalize taken : (shown back journal cursor.scope cursor.after).take store.handle.pageLimit = page
    have ascending : page.Pairwise fun a b => a.checkpoint.toInt < b.checkpoint.toInt := by
      rw [← taken]
      exact (shown_ascending sound reads _ _).sublist (List.take_sublist _ _)
    have later : ∀ commit ∈ page, cursor.after < commit.checkpoint := by
      intro commit member
      rw [← taken] at member
      exact shown_beyond reads (List.mem_of_mem_take member)
    have place : page = [] ∨ ∃ last, page.getLast? = some last := by
      cases found : page.getLast? with
      | none => exact .inl (List.getLast?_eq_none_iff.1 found)
      | some last => exact .inr ⟨last, rfl⟩
    refine ⟨List.isEmpty_iff.1 needed.1, needed.2, rfl, ?_, ?_, ?_, fun empty => ?_⟩
    · rcases place with rfl | ⟨last, found⟩
      · exact Int.le_refl _
      · have ahead := later last (List.mem_of_getLast? found)
        rw [Checkpoint.lt_iff] at ahead
        simpa [found, Checkpoint.le_iff] using Int.le_of_lt ahead
    · rcases place with rfl | ⟨last, found⟩
      · simp
      · simpa [found, Checkpoint.le_iff] using le_getLast ascending found
    · by_cases short : page.length < store.handle.pageLimit
      · have whole : page = shown back journal cursor.scope cursor.after := by
          rw [← taken]
          refine List.take_of_length_le ?_
          rw [← taken, List.length_take] at short
          omega
        simp only [Cursor.left, decide_eq_true short, if_true, List.append_nil]
        rw [whole]
      · obtain ⟨last, found⟩ := place.resolve_left fun empty => short (by rw [empty, List.length_nil]; omega)
        have rest := shown_after_page sound reads (by rw [taken]; exact found)
        simp only [Cursor.left, decide_eq_false short, found, Option.map_some, Option.getD_some, rest,
          Bool.false_eq_true, if_false]
        rw [← taken, List.take_append_drop]
    · have empty : page = [] := empty
      exact decide_eq_true (by rw [empty, List.length_nil]; omega)
  · refine ⟨cursor, if_neg needed, .inl ⟨rfl, fun empty => ?_⟩⟩
    simpa [empty] using needed

/-- A feed that is read to its end shows everything that lies after its checkpoint, in order. -/
theorem rest_eq (holds : store.db.Holds journal) (sound : journal.Sound accepted)
    (storable : ∀ commit ∈ journal.commits, commit.Storable) (isOpen : store.handle.disposed = false)
    (cursor : Cursor) :
    CommitStore.rest (σ := DatabaseStore) cursor store =
      (cursor.left (stored journal cursor.scope cursor.after), store) := by
  have turns := turns holds sound (.of_storable sound storable) isOpen
  refine @CommitStore.rest_of_next DatabaseStore _ store
    (fun cursor : Cursor => cursor.left (stored journal cursor.scope cursor.after))
    (fun cursor nothing => ?_) (fun cursor item items remains => ?_) cursor
  · obtain ⟨after, found⟩ := turns.ended nothing
    exact ⟨after, by simp only [CommitStore.next, found]⟩
  · obtain ⟨after, found, fewer⟩ := turns.shown remains
    exact ⟨after, by simp only [CommitStore.next, found], fewer⟩

end DatabaseStore
end CommitLog
