import CommitLog.Json.Printer
import CommitLog.Json.Reader

/-!
Whole numbers that are written and read back: the digits of a number are gathered to the number
again (`read_integer`), if what follows cannot extend it (`Delimited`).
-/

namespace CommitLog.Json

/-- What may follow a value: nothing, or a comma or closing bracket. -/
def Delimited : Bytes → Prop
  | [] => True
  | b :: _ => b = 0x2C ∨ b = 0x5D ∨ b = 0x7D

/-- The octets of the decimal digits of a number. -/
def digitOctets (n : Nat) : Bytes := (Nat.toDigits 10 n).map fun c => UInt8.ofNat c.toNat

theorem ascii_natural (n : Nat) : ascii (toString n) = digitOctets n := by
  simp [ascii, digitOctets]

theorem ascii_integer (n : Int) :
    ascii (toString n) = if n < 0 then 0x2D :: digitOctets n.natAbs else digitOctets n.natAbs := by
  cases n with
  | ofNat m =>
    rw [if_neg (by simp)]
    exact ascii_natural m
  | negSucc m =>
    rw [if_pos (Int.negSucc_lt_zero m)]
    show ascii ("-" ++ (m + 1).repr) = _
    simp [ascii, digitOctets]

/-! ### Digits -/

private theorem octet_of_digit {d : Nat} (small : d < 10) :
    isDigit (UInt8.ofNat d.digitChar.toNat) = true ∧ digitValue (UInt8.ofNat d.digitChar.toNat) = d ∧
      (UInt8.ofNat d.digitChar.toNat = 0x30 ↔ d = 0) := by
  have all : ∀ d < 10, isDigit (UInt8.ofNat d.digitChar.toNat) = true ∧
      digitValue (UInt8.ofNat d.digitChar.toNat) = d ∧
      (UInt8.ofNat d.digitChar.toNat = 0x30 ↔ d = 0) := by decide
  exact all d small

private theorem digitOctets_one {d : Nat} (small : d < 10) :
    digitOctets d = [UInt8.ofNat d.digitChar.toNat] := by
  rw [digitOctets, Nat.toDigits_of_lt_base small]
  rfl

private theorem digitOctets_more {m d : Nat} (positive : 0 < m) (small : d < 10) :
    digitOctets (10 * m + d) = digitOctets m ++ [UInt8.ofNat d.digitChar.toNat] := by
  rw [digitOctets, ← Nat.toDigits_append_toDigits (by decide) positive small, List.map_append,
    Nat.toDigits_of_lt_base small]
  rfl

theorem digitOctets_ne_nil (n : Nat) : digitOctets n ≠ [] := by
  simp [digitOctets]

theorem isDigit_of_mem {n : Nat} {b : UInt8} (member : b ∈ digitOctets n) : isDigit b = true := by
  induction n using Nat.base_induction 10 (by decide) with
  | single d small =>
    rw [digitOctets_one small, List.mem_singleton] at member
    rw [member]
    exact (octet_of_digit small).1
  | digit m d small positive ih =>
    rw [digitOctets_more positive small, List.mem_append, List.mem_singleton] at member
    rcases member with lead | last
    · exact ih lead
    · rw [last]
      exact (octet_of_digit small).1

theorem natural_digitOctets (n : Nat) : Numeral.natural (digitOctets n) = n := by
  induction n using Nat.base_induction 10 (by decide) with
  | single d small =>
    rw [digitOctets_one small]
    simp [Numeral.natural, (octet_of_digit small).2.1]
  | digit m d small positive ih =>
    rw [digitOctets_more positive small]
    unfold Numeral.natural at ih ⊢
    rw [List.foldl_append, ih]
    simp only [List.foldl_cons, List.foldl_nil, (octet_of_digit small).2.1]
    omega

/-- A number that is written with more than one digit does not start with zero. -/
theorem digitOctets_head {n : Nat} (positive : 0 < n) : (digitOctets n).head? ≠ some 0x30 := by
  induction n using Nat.base_induction 10 (by decide) with
  | single d small =>
    rw [digitOctets_one small, List.head?_cons, ne_eq, Option.some.injEq, (octet_of_digit small).2.2]
    omega
  | digit m d small more ih =>
    obtain ⟨first, others, shape⟩ := List.exists_cons_of_ne_nil (digitOctets_ne_nil m)
    rw [digitOctets_more more small]
    simpa [shape] using ih more

/-- Only the number zero is written with a zero at the front. -/
theorem digitOctets_plain {n : Nat} (zero : (digitOctets n).head? = some 0x30) : (digitOctets n).length = 1 := by
  by_cases positive : 0 < n
  · exact absurd zero (digitOctets_head positive)
  · rw [show n = 0 by omega]
    rfl

/-! ### Numerals -/

/-- Octets that are all digits, at least one. -/
structure Digits (found : Bytes) : Prop where
  some : found ≠ []
  digits : ∀ b ∈ found, isDigit b = true

theorem digits_octets (n : Nat) : Digits (digitOctets n) := ⟨digitOctets_ne_nil n, fun _ member => isDigit_of_mem member⟩

/-- No octet follows that could belong to the digits of a number or to its fraction. -/
def Stops (rest : Bytes) : Prop := ∀ b ∈ rest.head?, isDigit b = false ∧ b ≠ 0x2E

theorem Delimited.stops {rest : Bytes} (delimited : Delimited rest) : Stops rest := by
  intro b first
  cases rest with
  | nil => cases first
  | cons c rest =>
    cases first
    rcases delimited with rfl | rfl | rfl <;> exact ⟨rfl, by decide⟩

theorem Digits.read {found rest : Bytes} (digits : Digits found) (stops : ∀ b ∈ rest.head?, isDigit b = false) :
    Numeral.digits (found ++ rest) = Option.some (found, rest) := by
  have taken : (found ++ rest).takeWhile isDigit = found ∧ (found ++ rest).dropWhile isDigit = rest := by
    rw [List.takeWhile_append_of_pos digits.digits, List.dropWhile_append_of_pos digits.digits]
    cases rest with
    | nil => simp
    | cons b rest => simp [stops b rfl]
  rw [Numeral.digits, taken.1, taken.2]
  simp [digits.some]

namespace Numeral

def fractionPart : Option Bytes → Bytes
  | none => []
  | some digits => 0x2E :: digits

/-- An exponent as it is written, with a small letter and a sign. -/
def exponentPart : Option (Bool × Bytes) → Bytes
  | none => []
  | some (negative, digits) => 0x65 :: (if negative then 0x2D else 0x2B) :: digits

/-- A numeral without its sign. -/
def written (numeral : Numeral) : Bytes :=
  numeral.lead ++ (fractionPart numeral.fraction ++ exponentPart numeral.exponent)

/-- What the grammar demands of a numeral. -/
structure Proper (numeral : Numeral) : Prop where
  lead : Digits numeral.lead
  /-- No zero stands before another digit. -/
  plain : numeral.lead.head? = some 0x30 → numeral.lead.length = 1
  fraction : ∀ digits, numeral.fraction = some digits → Digits digits
  exponent : ∀ negative digits, numeral.exponent = some (negative, digits) → Digits digits

theorem read_exponentPart {exponent : Option (Bool × Bytes)}
    (proper : ∀ negative digits, exponent = some (negative, digits) → Digits digits) {rest : Bytes}
    (delimited : Delimited rest) :
    exponentDigits (exponentPart exponent ++ rest) = some (exponent, rest) ∧ Stops (exponentPart exponent ++ rest) := by
  cases exponent with
  | none =>
    refine ⟨?_, delimited.stops⟩
    cases rest with
    | nil => rfl
    | cons b rest => rcases delimited with rfl | rfl | rfl <;> rfl
  | some found =>
    obtain ⟨negative, digits⟩ := found
    have read := (proper negative digits rfl).read fun b first => (delimited.stops b first).1
    refine ⟨?_, fun b first => ?_⟩
    · cases negative <;> simp [exponentDigits, exponentPart, signedDigits, read]
    · cases first
      exact ⟨rfl, by decide⟩

theorem read_fractionPart {fraction : Option Bytes} (proper : ∀ digits, fraction = some digits → Digits digits)
    {rest : Bytes} (stops : Stops rest) :
    fractionDigits (fractionPart fraction ++ rest) = some (fraction, rest) ∧
      ∀ b ∈ (fractionPart fraction ++ rest).head?, isDigit b = false := by
  cases fraction with
  | none =>
    refine ⟨?_, fun b first => (stops b first).1⟩
    show fractionDigits rest = _
    rw [fractionDigits.eq_def]
    split
    · exact absurd rfl (stops 0x2E rfl).2
    · rfl
  | some digits =>
    have read := (proper digits rfl).read fun b first => (stops b first).1
    refine ⟨?_, fun b first => ?_⟩
    · simp [fractionDigits, fractionPart, read]
    · cases first
      rfl

/-- A numeral is read as it was written. -/
theorem Proper.read {numeral : Numeral} (proper : numeral.Proper) {rest : Bytes} (delimited : Delimited rest) :
    unsigned numeral.negative (numeral.written ++ rest) = some (numeral, rest) := by
  obtain ⟨negative, lead, fraction, exponent⟩ := numeral
  obtain ⟨exponential, ends⟩ := read_exponentPart proper.exponent delimited
  obtain ⟨fractional, stops⟩ := read_fractionPart proper.fraction ends
  have leading : leadDigits (lead ++ (fractionPart fraction ++ (exponentPart exponent ++ rest))) =
      some (lead, fractionPart fraction ++ (exponentPart exponent ++ rest)) := by
    have plain : ¬ (lead.head? = some 0x30 ∧ lead.length ≠ 1) := fun zero => zero.2 (proper.plain zero.1)
    simp only [leadDigits, proper.lead.read stops, Option.bind_eq_bind, Option.bind_some]
    rw [if_neg plain]
  simp only [written, List.append_assoc]
  simp [unsigned, leading, fractional, exponential]

/-- A numeral starts like nothing else. -/
theorem Proper.first {numeral : Numeral} (proper : numeral.Proper) :
    ∃ first others, numeral.written = first :: others ∧ isDigit first = true := by
  obtain ⟨first, others, shape⟩ := List.exists_cons_of_ne_nil proper.lead.some
  refine ⟨first, _, by rw [written, shape, List.cons_append], proper.lead.digits first ?_⟩
  rw [shape]
  exact List.mem_cons_self

/-- A numeral with its sign is read as it was written. -/
theorem Proper.read_signed {numeral : Numeral} (proper : numeral.Proper) {rest : Bytes} (delimited : Delimited rest) :
    Numeral.read ((if numeral.negative then [0x2D] else []) ++ numeral.written ++ rest) = some (numeral, rest) := by
  have read := proper.read delimited
  cases sign : numeral.negative with
  | true =>
    rw [sign] at read
    exact read
  | false =>
    obtain ⟨first, others, shape, digit⟩ := proper.first
    rw [sign, shape] at read
    rw [shape]
    show Numeral.read (first :: (others ++ rest)) = _
    rw [Numeral.read.eq_def]
    split
    · next same =>
      cases same
      exact absurd digit (by decide)
    · exact read

end Numeral

/-- A whole number is read as it was written. -/
theorem read_integer (n : Int) {rest : Bytes} (delimited : Delimited rest) :
    Numeral.read (ascii (toString n) ++ rest) =
      some (⟨decide (n < 0), digitOctets n.natAbs, none, none⟩, rest) := by
  have proper : Numeral.Proper ⟨decide (n < 0), digitOctets n.natAbs, none, none⟩ := by
    exact ⟨digits_octets _, digitOctets_plain, nofun, nofun⟩
  have read := proper.read_signed delimited
  have written : ascii (toString n) = (if decide (n < 0) = true then [0x2D] else []) ++ digitOctets n.natAbs := by
    rw [ascii_integer]
    by_cases negative : n < 0
    · simp [negative]
    · simp [negative]
  rw [written]
  simpa [Numeral.written, Numeral.fractionPart, Numeral.exponentPart] using read

theorem whole?_integer (n : Whole) :
    (⟨decide (n.value < 0), digitOctets n.value.natAbs, none, none⟩ : Numeral).whole? = some n := by
  simp only [Numeral.whole?, natural_digitOctets]
  have back : Whole.ofInt? n.value = some n := dif_pos ⟨n.lower, n.upper⟩
  by_cases negative : n.value < 0
  · rw [if_pos (by simpa using negative), if_neg (by omega), show (-(n.value.natAbs : Int)) = n.value by omega]
    exact back
  · rw [if_neg (by simpa using negative), show ((n.value.natAbs : Int)) = n.value by omega]
    exact back

end CommitLog.Json
