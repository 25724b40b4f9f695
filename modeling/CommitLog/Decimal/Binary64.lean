import CommitLog.Decimal.Power

/-!
Finite 64-bit floating-point numbers. A magnitude is named by its place among the finite
magnitudes in ascending order, which is also its bit pattern without the sign; so there is no
pattern for an infinity or for a number that is none, and the order of magnitudes is the order of
their places. Every magnitude is a whole multiple of the smallest one, `2 ^ -1074`.
-/

namespace CommitLog

/-- How many magnitudes lie from one power of two up to the next. -/
def Binary64.placesPerBinade : Nat := 4503599627370496

/-- How many finite magnitudes there are. -/
def Binary64.placeLimit : Nat := 2047 * placesPerBinade

structure Binary64 where
  negative : Bool
  /-- How many finite magnitudes are smaller. -/
  place : Nat
  finite : place < Binary64.placeLimit := by decide
  deriving DecidableEq

namespace Binary64

/-- The bit of the sign. -/
def signBit : Nat := 9223372036854775808

def bits (x : Binary64) : UInt64 :=
  UInt64.ofNat ((if x.negative then signBit else 0) + x.place)

/-- The number of a bit pattern, if the pattern stands for a finite one. -/
def ofBits? (bits : UInt64) : Option Binary64 :=
  if finite : bits.toNat % signBit < placeLimit then
    some ⟨signBit ≤ bits.toNat, bits.toNat % signBit, finite⟩
  else none

/-- The magnitude at a place, counted in units of `2 ^ -1074`. -/
def units (place : Nat) : Nat :=
  let exponent := place / placesPerBinade
  let fraction := place % placesPerBinade
  if exponent = 0 then fraction else (placesPerBinade + fraction) * powerOfTwo (exponent - 1)

/-- How many units make one. -/
def unitsPerOne : Nat := powerOfTwo 1074

/-- The quotient rounded to the nearest whole number; a half goes to the even neighbour. -/
def roundQuotient (num den : Nat) : Nat :=
  let quotient := num / den
  let rest := num % den
  if 2 * rest < den then quotient
  else if den < 2 * rest then quotient + 1
  else quotient + quotient % 2

/-- The place of the magnitude nearest to `num / den` units; the even place of two. The result
may lie beyond the finite places. -/
def nearestPlace (num den : Nat) : Nat :=
  if num / den < 2 * placesPerBinade then roundQuotient num den
  else
    let shift := (num / den).log2 - 52
    shift * placesPerBinade + roundQuotient num (den * powerOfTwo shift)

/-- The finite number at a place. -/
def ofPlace? (negative : Bool) (place : Nat) : Option Binary64 :=
  if finite : place < placeLimit then some ⟨negative, place, finite⟩ else none

/-- A whole number, rounded. -/
def ofNat? (n : Nat) : Option Binary64 :=
  ofPlace? false (nearestPlace (n * unitsPerOne) 1)

/-- The product of two magnitudes, rounded. -/
def times? (x y : Binary64) : Option Binary64 :=
  ofPlace? x.negative (nearestPlace (units x.place * units y.place) unitsPerOne)

/-- The quotient of two magnitudes, rounded; the second is not zero. -/
def over? (x y : Binary64) : Option Binary64 :=
  ofPlace? x.negative (nearestPlace (units x.place * unitsPerOne) (units y.place))

def zero : Binary64 := ⟨false, 0, by decide⟩

def withSign (x : Binary64) (negative : Bool) : Binary64 := { x with negative }

/-- Ten to a power of at most 308, rounded. -/
def tenTo? (n : Nat) : Option Binary64 := ofNat? (powerOfTen n)

/-- The magnitude read from a significand and a decimal exponent. The significand is rounded
first and then scaled by powers of ten of at most 308, each step being rounded; so a long decimal
may miss the nearest magnitude by a place. Nothing is read from a decimal that is too large. -/
def ofDecimal? (significand : Nat) (exponent : Int) : Option Binary64 := do
  scale (← ofNat? significand) exponent
where
  scale (x : Binary64) (exponent : Int) : Option Binary64 :=
    if 308 < exponent then
      if x.place = 0 then some x else none
    else if 0 ≤ exponent then do
      x.times? (← tenTo? exponent.toNat)
    else if -308 ≤ exponent then do
      x.over? (← tenTo? (-exponent).toNat)
    else if x.place = 0 then some x
    else do
      scale (← x.over? (← tenTo? 308)) (exponent + 308)
  termination_by exponent.natAbs

end Binary64
end CommitLog
