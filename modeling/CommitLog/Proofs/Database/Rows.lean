import CommitLog.Database.Store
import CommitLog.Proofs.Journal
import CommitLog.Proofs.StoredForm

/-!
Rows and the commits they are made from. A number that fits a signed word is stored as it is and a
larger one as the largest (`toInt_ofWord`, `toInt_ofWord_large`). A row has the posting of its commit
(`posting_row`), and it is decoded to its commit if the headers can be read back (`decode_row`).
-/

namespace CommitLog

/-! ### Words -/

namespace Column

theorem toInt_ofWord {n : UInt64} (small : n.toNat ≤ maxRevision.toNat) : (ofWord n).toInt = n.toNat := by
  have limit : maxRevision.toNat = 9223372036854775807 := rfl
  rw [ofWord, if_pos (UInt64.le_iff_toNat_le.2 small)]
  have same : n.toInt64 = Int64.ofNat n.toNat := by
    rw [← UInt64.toInt64_ofNat', UInt64.ofNat_toNat]
  rw [same, Int64.toInt_ofNat_of_lt (by omega)]

theorem toInt_ofWord_large {n : UInt64} (large : maxRevision.toNat < n.toNat) :
    (ofWord n).toInt = maxRevision.toNat := by
  rw [ofWord, if_neg (by rw [UInt64.le_iff_toNat_le]; omega)]
  rfl

theorem toWord_ofWord {n : UInt64} (small : n.toNat ≤ maxRevision.toNat) : toWord (ofWord n) = n := by
  rw [ofWord, if_pos (UInt64.le_iff_toNat_le.2 small), toWord, UInt64.toUInt64_toInt64]

end Column

/-- The posting of a commit, as far as its row tells it. -/
def Row.posting (row : Row) : Posting where
  key := row.key
  id := row.id
  sequence := row.sequence.toInt.toNat
  revision := row.revision.toInt.toNat
  size := row.items.toInt.toNat
  checkpoint := row.checkpoint.toInt

/-- The row of an entry. -/
def Entry.row (entry : Entry) : Row :=
  { Database.rowOf entry.commit.toAttempt entry.commit.checkpoint with dispatched := entry.dispatched }

theorem Entry.items_row {entry : Entry} (fits : entry.commit.Fits) :
    entry.row.items.toInt = entry.commit.events.length := by
  have limit : maxRevision.toNat = 9223372036854775807 := rfl
  have covers := fits.covers
  have revision := fits.revision
  exact Int64.toInt_ofNat_of_lt (by omega)

theorem Entry.posting_row {entry : Entry} (fits : entry.commit.Fits) : entry.row.posting = entry.commit.posting := by
  have sequence : entry.row.sequence.toInt = entry.commit.sequence.toNat := Column.toInt_ofWord fits.sequence
  have revision : entry.row.revision.toInt = entry.commit.revision.toNat := Column.toInt_ofWord fits.revision
  rw [Row.posting, sequence, revision, Entry.items_row fits]
  rfl

/-! ### Decoding -/

/-- Headers that can be read back from their stored form. -/
structure Attempt.Storable (attempt : Attempt) : Prop where
  headers : Json.ReadableFields 126 attempt.headers
  events : ∀ event ∈ attempt.events, Json.ReadableFields 124 event.headers

/-- An attempt without headers comes back. -/
theorem Attempt.Storable.of_bare {attempt : Attempt} (headers : attempt.headers = [])
    (events : ∀ event ∈ attempt.events, event.headers = []) : attempt.Storable where
  headers := by
    rw [headers]
    exact ⟨.nil, trivial, trivial, Nat.zero_le _⟩
  events event member := by
    rw [events event member]
    exact ⟨.nil, trivial, trivial, Nat.zero_le _⟩

theorem Commit.storable_of_bare {commits : List Commit}
    (bare : (commits.all fun commit => commit.headers.isEmpty && commit.events.all fun event => event.headers.isEmpty) =
      true) : ∀ commit ∈ commits, commit.Storable := by
  intro commit member
  have found := List.all_eq_true.1 bare commit member
  rw [Bool.and_eq_true, List.isEmpty_iff] at found
  exact .of_bare found.1 fun event inside => List.isEmpty_iff.1 (List.all_eq_true.1 found.2 event inside)

/-- A commit as it comes back from its row: a stamp that is too large has become the largest. -/
def Commit.stored (commit : Commit) : Commit := { commit with stamp := Column.toWord (Column.ofWord commit.stamp) }

theorem Commit.stored_eq {commit : Commit} (stamp : commit.stamp.toNat ≤ maxRevision.toNat) :
    commit.stored = commit := by
  rw [Commit.stored, Column.toWord_ofWord stamp]

theorem Entry.decode_row {entry : Entry} (fits : entry.commit.Fits) (storable : entry.commit.Storable) :
    entry.row.decode = .ok entry.commit.stored := by
  have headers : Codec.decodeHeaders entry.row.headers = some entry.commit.headers :=
    Codec.decodeHeaders_render storable.headers
  have events : Codec.decodeEvents entry.row.payload = some entry.commit.events :=
    Codec.decodeEvents_render storable.events
  have revision : Column.toWord entry.row.revision = entry.commit.revision := Column.toWord_ofWord fits.revision
  have sequence : Column.toWord entry.row.sequence = entry.commit.sequence := Column.toWord_ofWord fits.sequence
  have intact : entry.row.intact = true := decide_eq_true rfl
  rw [Row.decode, if_pos intact, headers, events]
  dsimp only
  rw [revision, sequence]
  rfl

/-- Rows that can each be decoded can be decoded together. -/
theorem decodeAll_map {entries : List Entry} {back : Entry → Commit}
    (decoded : ∀ entry ∈ entries, entry.row.decode = .ok (back entry)) :
    Row.decodeAll (entries.map Entry.row) = .ok (entries.map back) := by
  induction entries with
  | nil => rfl
  | cons entry rest ih =>
    have first := decoded entry (by simp)
    have others := ih fun other member => decoded other (by simp [member])
    rw [List.map_cons, Row.decodeAll, first, others]
    rfl

/-! ### The greatest -/

/-- The first of a descending order is the greatest, if no other is as great. -/
theorem head?_mergeSort {α : Type} {place : α → Int} {xs : List α} {greatest : α} (member : greatest ∈ xs)
    (above : ∀ x ∈ xs, place x ≤ place greatest) (distinct : ∀ x ∈ xs, place x = place greatest → x = greatest) :
    (xs.mergeSort fun a b => place b ≤ place a).head? = some greatest := by
  have ordered : (xs.mergeSort fun a b => place b ≤ place a).Pairwise fun a b => decide (place b ≤ place a) = true := by
    refine List.pairwise_mergeSort (fun a b c first second => ?_) (fun a b => ?_) xs
    · simp only [decide_eq_true_eq] at first second ⊢
      omega
    · simp only [Bool.or_eq_true, decide_eq_true_eq]
      omega
  have inside : greatest ∈ xs.mergeSort fun a b => place b ≤ place a := List.mem_mergeSort.2 member
  cases sorted : xs.mergeSort fun a b => place b ≤ place a with
  | nil => simp [sorted] at inside
  | cons first others =>
    rw [sorted] at ordered inside
    have known : first ∈ xs := by
      have : first ∈ xs.mergeSort fun a b => place b ≤ place a := by simp [sorted]
      exact List.mem_mergeSort.1 this
    have least := above first known
    have most : place greatest ≤ place first := by
      rcases List.mem_cons.1 inside with rfl | later
      · exact Int.le_refl _
      · exact of_decide_eq_true ((List.pairwise_cons.1 ordered).1 greatest later)
    rw [List.head?_cons, distinct first known (by omega)]

end CommitLog
