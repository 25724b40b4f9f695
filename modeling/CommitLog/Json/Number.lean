import CommitLog.Json.Value
import CommitLog.Text.Utf8

/-!
JSON numbers: what they look like, and what they stand for. A number without fraction and exponent
is whole if it fits a 64-bit word; every other number is read as a floating-point number, and so
are whole numbers that do not fit and a zero with a minus sign.
-/

namespace CommitLog.Json

/-- Reads a value at the start and leaves the rest. -/
abbrev Reader (α : Type) := Bytes → Option (α × Bytes)

def isDigit (b : UInt8) : Bool := 0x30 ≤ b && b ≤ 0x39

def digitValue (b : UInt8) : Nat := b.toNat - 0x30

/-- A number as written. -/
structure Numeral where
  negative : Bool
  /-- The digits before the point. -/
  lead : Bytes
  /-- The digits after the point, if there is one. -/
  fraction : Option Bytes
  /-- Whether the exponent is negative, and its digits. -/
  exponent : Option (Bool × Bytes)

namespace Numeral

/-- At least one digit. -/
def digits : Reader Bytes := fun s =>
  let found := s.takeWhile isDigit
  if found.isEmpty then none else some (found, s.dropWhile isDigit)

/-- No zero stands before another digit. -/
def leadDigits : Reader Bytes := fun s => do
  let (found, s) ← digits s
  if found.head? = some 0x30 ∧ found.length ≠ 1 then none else some (found, s)

def fractionDigits : Reader (Option Bytes)
  | 0x2E :: s => (digits s).map fun (found, s) => (some found, s)
  | s => some (none, s)

def signedDigits : Reader (Bool × Bytes)
  | 0x2B :: s => (digits s).map fun (found, s) => ((false, found), s)
  | 0x2D :: s => (digits s).map fun (found, s) => ((true, found), s)
  | s => (digits s).map fun (found, s) => ((false, found), s)

def exponentDigits : Reader (Option (Bool × Bytes))
  | b :: s =>
    if b = 0x45 ∨ b = 0x65 then (signedDigits s).map fun (found, s) => (some found, s)
    else some (none, b :: s)
  | [] => some (none, [])

/-- What follows the sign of a number. -/
def unsigned (negative : Bool) : Reader Numeral := fun s => do
  let (lead, s) ← leadDigits s
  let (fraction, s) ← fractionDigits s
  let (exponent, s) ← exponentDigits s
  return (⟨negative, lead, fraction, exponent⟩, s)

def read : Reader Numeral
  | 0x2D :: s => unsigned true s
  | s => unsigned false s

/-- The largest significand that is kept exactly. -/
def significandLimit : Nat := 18446744073709551615

/-- Digits gathered into a significand until the next would pass the limit. -/
structure Gathered where
  significand : Nat
  exponent : Int
  full : Bool

/-- A digit before the point; once full it only moves the exponent. -/
def Gathered.lead (g : Gathered) (b : UInt8) : Gathered :=
  let extended := g.significand * 10 + digitValue b
  if g.full = false ∧ extended ≤ significandLimit then { g with significand := extended }
  else { g with exponent := g.exponent + 1, full := true }

/-- A digit after the point; once full it is dropped. -/
def Gathered.fraction (g : Gathered) (b : UInt8) : Gathered :=
  let extended := g.significand * 10 + digitValue b
  if g.full = false ∧ extended ≤ significandLimit then
    { g with significand := extended, exponent := g.exponent - 1 }
  else { g with full := true }

def natural (digits : Bytes) : Nat := digits.foldl (fun n b => n * 10 + digitValue b) 0

/-- The floating-point number that is read, if it is not too large. -/
def real? (numeral : Numeral) : Option Binary64 :=
  let lead := numeral.lead.foldl Gathered.lead ⟨0, 0, false⟩
  let all := (numeral.fraction.getD []).foldl Gathered.fraction { lead with full := false }
  let exponent := match numeral.exponent with
    | none => 0
    | some (true, digits) => -(natural digits : Int)
    | some (false, digits) => (natural digits : Int)
  (Binary64.ofDecimal? all.significand (all.exponent + exponent)).map (·.withSign numeral.negative)

/-- The whole number that is read, if the number is written as one and fits a word. -/
def whole? (numeral : Numeral) : Option Whole :=
  match numeral.fraction, numeral.exponent with
  | none, none =>
    let n : Int := natural numeral.lead
    if numeral.negative then
      if n = 0 then none else Whole.ofInt? (-n)
    else Whole.ofInt? n
  | _, _ => none

/-- The value of a number; none if it is too large. -/
def value? (numeral : Numeral) : Option Json :=
  match numeral.whole? with
  | some n => some (.whole n)
  | none => numeral.real?.map .real

end Numeral
end CommitLog.Json
