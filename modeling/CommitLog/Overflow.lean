/-!
Arithmetic that may leave its word. Revisions and sequences are unsigned and checkpoints signed
64-bit numbers; a result outside the word is reported, never wrapped.
-/

namespace CommitLog

/-- The operation whose result did not fit. -/
inductive Overflow where
  | add
  | subtract
  deriving DecidableEq, Repr

namespace Overflow

def message : Overflow → String
  | .add => "attempt to add with overflow"
  | .subtract => "attempt to subtract with overflow"

/-- The sum, if it fits. -/
def sum (a : UInt64) (n : Nat) : Except Overflow UInt64 :=
  if a.toNat + n < UInt64.size then .ok (UInt64.ofNat (a.toNat + n)) else .error .add

/-- The difference, if it is not negative. -/
def difference (a : UInt64) (n : Nat) : Except Overflow UInt64 :=
  if n ≤ a.toNat then .ok (UInt64.ofNat (a.toNat - n)) else .error .subtract

theorem sum_eq_ok {a b : UInt64} {n : Nat} (h : sum a n = .ok b) : b.toNat = a.toNat + n := by
  unfold sum at h
  split at h
  · next fits =>
    cases h
    exact UInt64.toNat_ofNat_of_lt' (by simpa using fits)
  · contradiction

end Overflow
end CommitLog
