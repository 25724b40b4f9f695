import CommitLog.Proofs.Call
import Mathlib.Algebra.Order.Ring.Int

/-!
What the place of a commit in its log depends on is its posting: the id, the sequence, the revision
and the number of events, as numbers without a bound. A stream is `Chained` if its postings follow one
another without a gap. `Attempt.refusal` decides an attempt by the postings of its stream alone, and
the checks of a store decide it likewise (`checkFollows_eq`).
-/

namespace CommitLog

theorem toNat_max (a b : UInt64) : (max a b).toNat = max a.toNat b.toNat := by
  have larger : max a b = if a ≤ b then b else a := rfl
  rw [larger]
  split
  · next below =>
    rw [UInt64.le_iff_toNat_le] at below
    omega
  · next above =>
    rw [UInt64.le_iff_toNat_le] at above
    omega

theorem toNat_min (a b : UInt64) : (min a b).toNat = min a.toNat b.toNat := by
  have smaller : min a b = if a ≤ b then a else b := rfl
  rw [smaller]
  split
  · next below =>
    rw [UInt64.le_iff_toNat_le] at below
    omega
  · next above =>
    rw [UInt64.le_iff_toNat_le] at above
    omega

structure Posting where
  key : StreamKey
  id : CommitId
  sequence : Nat
  revision : Nat
  /-- The number of events. -/
  size : Nat
  checkpoint : Int
  deriving DecidableEq

def Commit.posting (commit : Commit) : Posting where
  key := commit.key
  id := commit.id
  sequence := commit.sequence.toNat
  revision := commit.revision.toNat
  size := commit.events.length
  checkpoint := commit.checkpoint.toInt

namespace Posting

/-- Each posting has the revision before it plus its own number of events. -/
def Cumulative : Nat → List Posting → Prop
  | _, [] => True
  | before, posting :: later =>
    posting.revision = before + posting.size ∧ Cumulative posting.revision later

/-- The revision of a stream, 0 before its first commit. -/
def lastRevision (stored : List Posting) : Nat := (stored.getLast?.map revision).getD 0

/-- The postings of one stream, in order. -/
structure Chained (stored : List Posting) : Prop where
  sequences : stored.map sequence = List.range' 1 stored.length
  revisions : Cumulative 0 stored
  ids : (stored.map id).Nodup
  checkpoints : stored.Pairwise fun a b => a.checkpoint < b.checkpoint

theorem Cumulative.append {before : Nat} {stored : List Posting} (revisions : Cumulative before stored)
    {posting : Posting} (next : posting.revision = (stored.getLast?.map revision).getD before + posting.size) :
    Cumulative before (stored ++ [posting]) := by
  induction stored generalizing before with
  | nil => exact ⟨by simpa using next, trivial⟩
  | cons first later ih =>
    refine ⟨revisions.1, ih revisions.2 ?_⟩
    simpa [List.getLast?_cons] using next

/-- A revision is the number of events up to its posting. -/
theorem Cumulative.place {before : Nat} {stored later : List Posting} {posting : Posting}
    (revisions : Cumulative before (stored ++ posting :: later)) :
    posting.revision = before + (stored.map size).sum + posting.size := by
  induction stored generalizing before with
  | nil => exact revisions.1
  | cons first rest ih =>
    have place := ih revisions.2
    rw [revisions.1] at place
    rw [place, List.map_cons, List.sum_cons, Nat.add_assoc before]

theorem Chained.nil : Chained [] := ⟨rfl, trivial, .nil, .nil⟩

/-- A posting that comes after all others extends the chain. -/
theorem Chained.append {stored : List Posting} (chained : Chained stored) {posting : Posting}
    (sequence : posting.sequence = stored.length + 1)
    (revision : posting.revision = lastRevision stored + posting.size)
    (fresh : ∀ other ∈ stored, other.id ≠ posting.id)
    (later : ∀ other ∈ stored, other.checkpoint < posting.checkpoint) : Chained (stored ++ [posting]) where
  sequences := by
    rw [List.map_append, chained.sequences, List.length_append, List.range'_append_1.symm]
    simp [sequence, Nat.add_comm]
  revisions := chained.revisions.append revision
  ids := by
    rw [List.map_append, List.nodup_append]
    refine ⟨chained.ids, by simp, ?_⟩
    rintro a among b last rfl
    obtain ⟨other, member, same⟩ := List.mem_map.1 among
    exact fresh other member (by simpa [same] using last)
  checkpoints := by
    rw [List.pairwise_append]
    exact ⟨chained.checkpoints, by simp, fun other member => by simpa using later other member⟩

/-- The last sequence is the number of postings. -/
theorem Chained.sequence_last {stored : List Posting} (chained : Chained stored) {posting : Posting}
    (last : stored.getLast? = some posting) : posting.sequence = stored.length := by
  obtain ⟨before, rfl⟩ := List.getLast?_eq_some_iff.1 last
  have sequences := chained.sequences
  rw [List.map_append, List.length_append, List.length_singleton, List.range'_1_concat] at sequences
  have same : posting.sequence = 1 + before.length := by
    simpa using (List.append_inj' sequences rfl).2
  simp [same, Nat.add_comm]

end Posting

namespace Attempt

/-- Why a stream with the given postings does not take an attempt, if it does not: the first reason
counts. -/
def refusal (attempt : Attempt) (stored : List Posting) : Option Error :=
  let size := attempt.events.length
  if size = 0 then some (.invalidAttempt (.noEvents attempt.id attempt.key))
  else if attempt.sequence.toNat = 0 then some (.invalidAttempt (.sequenceZero attempt.id))
  else if attempt.revision.toNat < size ∨ maxRevision.toNat < attempt.revision.toNat then
    some (.invalidAttempt (.revisionRange attempt.id attempt.revision size))
  else if ∃ posting ∈ stored, posting.id = attempt.id then some attempt.duplicate
  else if attempt.sequence.toNat ≤ stored.length then some attempt.conflict
  else if attempt.sequence.toNat ≠ stored.length + 1 then
    some (.invalidAttempt (.sequenceGap attempt.sequence (UInt64.ofNat stored.length)))
  else if attempt.revision.toNat - size ≠ Posting.lastRevision stored then
    some (.invalidAttempt (.revisionMismatch (UInt64.ofNat (attempt.revision.toNat - size + 1))
      (UInt64.ofNat (Posting.lastRevision stored))))
  else none

/-- Nothing speaks against an attempt that continues its stream. -/
theorem refusal_eq_none {attempt : Attempt} {stored : List Posting} :
    attempt.refusal stored = none ↔
      attempt.events ≠ [] ∧ attempt.revision.toNat ≤ maxRevision.toNat ∧
        (∀ posting ∈ stored, posting.id ≠ attempt.id) ∧ attempt.sequence.toNat = stored.length + 1 ∧
        attempt.revision.toNat = Posting.lastRevision stored + attempt.events.length := by
  rw [← List.length_pos_iff]
  simp only [refusal]
  constructor
  · intro taken
    repeat' split at taken
    all_goals first | contradiction | skip
    rename_i held _ _ _
    refine ⟨by omega, by omega, ?_, by omega, by omega⟩
    intro posting member same
    exact held ⟨posting, member, same⟩
  · rintro ⟨events, small, fresh, sequence, revision⟩
    have notHeld : ¬ ∃ posting ∈ stored, posting.id = attempt.id := fun ⟨posting, member, same⟩ =>
      fresh posting member same
    rw [if_neg (by omega), if_neg (by omega), if_neg (by omega), if_neg notHeld, if_neg (by omega),
      if_neg (by omega), if_neg (by omega)]

/-! ### The checks of a store -/

theorem previousRevision_eq {attempt : Attempt} (covers : attempt.events.length ≤ attempt.revision.toNat) :
    attempt.previousRevision = .ok (UInt64.ofNat (attempt.revision.toNat - attempt.events.length)) :=
  if_pos covers

theorem firstRevision_eq {attempt : Attempt} (covers : attempt.events.length ≤ attempt.revision.toNat)
    (small : attempt.revision.toNat ≤ maxRevision.toNat) :
    attempt.firstRevision = .ok (UInt64.ofNat (attempt.revision.toNat - attempt.events.length + 1)) := by
  have limit : maxRevision.toNat = 9223372036854775807 := rfl
  have size : UInt64.size = 18446744073709551616 := rfl
  have fits : attempt.revision.toNat + 1 < UInt64.size := by omega
  have sum : Overflow.sum attempt.revision 1 = .ok (UInt64.ofNat (attempt.revision.toNat + 1)) := if_pos fits
  have back : (UInt64.ofNat (attempt.revision.toNat + 1)).toNat = attempt.revision.toNat + 1 :=
    UInt64.toNat_ofNat_of_lt' fits
  have less : attempt.revision.toNat + 1 - attempt.events.length =
      attempt.revision.toNat - attempt.events.length + 1 := by omega
  rw [firstRevision, sum]
  show Overflow.difference _ _ = _
  rw [Overflow.difference, if_pos (by omega), back, less]

theorem refusal_of_invalid {attempt : Attempt} {error : Error} (invalid : attempt.validate = .error error)
    (stored : List Posting) : attempt.refusal stored = some error := by
  simp only [validate, List.isEmpty_iff, ← List.length_eq_zero_iff, ← UInt64.toNat_inj, UInt64.lt_iff_toNat_lt,
    UInt64.toNat_zero] at invalid
  simp only [refusal]
  split at invalid
  · next empty => rw [if_pos empty]; cases invalid; rfl
  next events =>
  rw [if_neg events]
  split at invalid
  · next zero => rw [if_pos zero]; cases invalid; rfl
  next sequence =>
  rw [if_neg sequence]
  split at invalid
  · next range => rw [if_pos range]; cases invalid; rfl
  · contradiction

/-- What is left to decide once the form of an attempt is found right. -/
theorem refusal_of_valid {attempt : Attempt} (valid : attempt.validate = .ok ()) (stored : List Posting) :
    attempt.refusal stored =
      if ∃ posting ∈ stored, posting.id = attempt.id then some attempt.duplicate
      else if attempt.sequence.toNat ≤ stored.length then some attempt.conflict
      else if attempt.sequence.toNat ≠ stored.length + 1 then
        some (.invalidAttempt (.sequenceGap attempt.sequence (UInt64.ofNat stored.length)))
      else if attempt.revision.toNat - attempt.events.length ≠ Posting.lastRevision stored then
        some (.invalidAttempt (.revisionMismatch
          (UInt64.ofNat (attempt.revision.toNat - attempt.events.length + 1))
          (UInt64.ofNat (Posting.lastRevision stored))))
      else none := by
  simp only [validate, List.isEmpty_iff, ← List.length_eq_zero_iff, ← UInt64.toNat_inj, UInt64.lt_iff_toNat_lt,
    UInt64.toNat_zero] at valid
  simp only [refusal]
  split at valid
  · contradiction
  next events =>
  split at valid
  · contradiction
  next sequence =>
  split at valid
  · contradiction
  next range => rw [if_neg events, if_neg sequence, if_neg range]

theorem bounds_of_valid {attempt : Attempt} (valid : attempt.validate = .ok ()) :
    attempt.events.length ≤ attempt.revision.toNat ∧ attempt.revision.toNat ≤ maxRevision.toNat := by
  simp only [validate, UInt64.lt_iff_toNat_lt] at valid
  split at valid
  · contradiction
  split at valid
  · contradiction
  split at valid
  · contradiction
  · omega

/-- The last check of a store, once the form is found right and the id is found new. -/
theorem checkFollows_eq {attempt : Attempt} {stored : List Posting} {last : UInt64}
    (valid : attempt.validate = .ok ()) (fresh : ¬ ∃ posting ∈ stored, posting.id = attempt.id)
    (few : stored.length < 2 ^ 63) (ends : last.toNat = Posting.lastRevision stored) :
    attempt.checkFollows (UInt64.ofNat stored.length) last =
      match attempt.refusal stored with
      | some error => .error error
      | none => .ok () := by
  have length : (UInt64.ofNat stored.length).toNat = stored.length :=
    UInt64.toNat_ofNat_of_lt' (Nat.lt_trans few (by decide))
  have next : (UInt64.ofNat stored.length + 1).toNat = stored.length + 1 := by
    rw [UInt64.toNat_add, length]
    exact Nat.mod_eq_of_lt (by simpa using Nat.lt_trans (Nat.succ_lt_succ few) (by decide))
  obtain ⟨covers, small⟩ := bounds_of_valid valid
  have before : (UInt64.ofNat (attempt.revision.toNat - attempt.events.length)).toNat =
      attempt.revision.toNat - attempt.events.length :=
    UInt64.toNat_ofNat_of_lt' (Nat.lt_of_le_of_lt (Nat.sub_le _ _) attempt.revision.toNat_lt)
  have known : UInt64.ofNat (Posting.lastRevision stored) = last := by rw [← ends, UInt64.ofNat_toNat]
  have taken : attempt.sequence ≤ UInt64.ofNat stored.length ↔ attempt.sequence.toNat ≤ stored.length := by
    rw [UInt64.le_iff_toNat_le, length]
  have gap : attempt.sequence = UInt64.ofNat stored.length + 1 ↔ attempt.sequence.toNat = stored.length + 1 := by
    rw [← UInt64.toNat_inj, next]
  have moved : UInt64.ofNat (attempt.revision.toNat - attempt.events.length) = last ↔
      attempt.revision.toNat - attempt.events.length = Posting.lastRevision stored := by
    rw [← UInt64.toNat_inj, before, ends]
  rw [refusal_of_valid valid, if_neg fresh, known]
  simp only [checkFollows, taken, gap, ne_eq, previousRevision_eq covers, firstRevision_eq covers small]
  by_cases conflicting : attempt.sequence.toNat ≤ stored.length
  · rw [if_pos conflicting, if_pos conflicting]
    rfl
  by_cases following : attempt.sequence.toNat = stored.length + 1
  · rw [if_neg conflicting, if_neg conflicting, if_neg (not_not_intro following), if_neg (not_not_intro following)]
    by_cases continuing : attempt.revision.toNat - attempt.events.length = Posting.lastRevision stored
    · rw [if_neg (not_not_intro continuing)]
      exact if_neg (not_not_intro (moved.2 continuing))
    · rw [if_pos continuing]
      exact if_pos fun same => continuing (moved.1 same)
  · rw [if_neg conflicting, if_neg conflicting, if_pos following, if_pos following]
    rfl

end Attempt
end CommitLog
