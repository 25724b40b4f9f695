import CommitLog.Decimal.Binary64

/-!
The shortest decimal that reads back as a given magnitude: of all decimals nearer to it than to
any other magnitude, those with the fewest digits, and of these the nearest; the even one of two
that are equally near.
-/

namespace CommitLog.Decimal

/-- Digits times a power of ten. -/
structure Scientific where
  digits : Nat
  exponent : Int
  deriving DecidableEq, Repr

/-- How many places the value has before its decimal point: it is less than ten to this power
and not less than ten to the power below. -/
def magnitude (units : Nat) : Int :=
  (Nat.toDigits 10 (units * powerOfTen 330 / Binary64.unitsPerOne)).length - 330

/-- The decimals that read back as the magnitude at `place` lie between the midpoints to its
neighbours; a midpoint itself belongs to the even place. All in half units. -/
structure Interval where
  low : Nat
  middle : Nat
  high : Nat
  closed : Bool

def Interval.around (place : Nat) : Interval where
  low := Binary64.units (place - 1) + Binary64.units place
  middle := 2 * Binary64.units place
  high := Binary64.units place + Binary64.units (place + 1)
  closed := place % 2 = 0

/-- One, in half units. -/
def halfUnitsPerOne : Nat := 2 * Binary64.unitsPerOne

/-- Whether the digits times ten to the exponent lie in the interval. -/
def Interval.holds (interval : Interval) (digits : Nat) (exponent : Int) : Bool :=
  let value := digits * halfUnitsPerOne * powerOfTen exponent.toNat
  let scale := powerOfTen (-exponent).toNat
  if interval.closed then interval.low * scale ≤ value && value ≤ interval.high * scale
  else interval.low * scale < value && value < interval.high * scale

/-- The best decimal on one grid, if the grid has one in the interval. -/
def Interval.onGrid (interval : Interval) (exponent : Int) : Option Nat :=
  let step := halfUnitsPerOne * powerOfTen exponent.toNat
  let value := interval.middle * powerOfTen (-exponent).toNat
  let below := value / step
  let rest := value % step
  let upper := step < 2 * rest || (step = 2 * rest && below % 2 = 1)
  match interval.holds below exponent, interval.holds (below + 1) exponent with
  | true, true => some (if upper then below + 1 else below)
  | true, false => some below
  | false, true => some (below + 1)
  | false, false => none

/-- Zeros at the end move into the exponent. -/
def Scientific.trim : Nat → Scientific → Scientific
  | 0, x => x
  | fuel + 1, x =>
    if x.digits ≠ 0 ∧ x.digits % 10 = 0 then trim fuel ⟨x.digits / 10, x.exponent + 1⟩ else x

/-- Grids of one digit, of two digits and so on; seventeen always suffice. -/
def shortest (place : Nat) : Scientific :=
  let interval := Interval.around place
  let top := magnitude (Binary64.units place)
  let attempts := (List.range 17).filterMap fun n =>
    (interval.onGrid (top - (n + 1 : Nat))).map fun digits =>
      (Scientific.mk digits (top - (n + 1 : Nat))).trim 17
  attempts.head?.getD ⟨0, 0⟩

end CommitLog.Decimal
