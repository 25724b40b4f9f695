import CommitLog.Proofs.Decimal.Shortest
import CommitLog.Proofs.Json.Values

/-!
A floating-point number is written as a numeral (`layout_written`) that is read as a floating-point number
(`readValue_real`), though not always as the same one: a reader that rounds twice may miss it by a place.
-/

namespace CommitLog.Json

open Decimal (Scientific)

namespace Numeral

/-! ### Gathering digits -/

/-- A number that goes on with further digits. -/
def extend (n : Nat) (digits : Bytes) : Nat := digits.foldl (fun n b => n * 10 + digitValue b) n

theorem le_extend (n : Nat) (digits : Bytes) : n ≤ extend n digits := by
  induction digits generalizing n with
  | nil => exact Nat.le_refl n
  | cons b digits ih => exact Nat.le_trans (by omega) (ih (n * 10 + digitValue b))

theorem natural_append (before after : Bytes) : natural (before ++ after) = extend (natural before) after :=
  List.foldl_append

theorem lead_gathered {n : Nat} {digits : Bytes} (fits : extend n digits ≤ significandLimit) :
    digits.foldl Gathered.lead ⟨n, 0, false⟩ = ⟨extend n digits, 0, false⟩ := by
  induction digits generalizing n with
  | nil => rfl
  | cons b digits ih =>
    have here : n * 10 + digitValue b ≤ significandLimit := Nat.le_trans (le_extend _ digits) fits
    have step : Gathered.lead ⟨n, 0, false⟩ b = ⟨n * 10 + digitValue b, 0, false⟩ := if_pos ⟨rfl, here⟩
    rw [List.foldl_cons, step]
    exact ih fits

theorem fraction_gathered {n : Nat} {digits : Bytes} (fits : extend n digits ≤ significandLimit) (exponent : Int) :
    digits.foldl Gathered.fraction ⟨n, exponent, false⟩ = ⟨extend n digits, exponent - digits.length, false⟩ := by
  induction digits generalizing n exponent with
  | nil => simp [extend]
  | cons b digits ih =>
    have here : n * 10 + digitValue b ≤ significandLimit := Nat.le_trans (le_extend _ digits) fits
    have step : Gathered.fraction ⟨n, exponent, false⟩ b = ⟨n * 10 + digitValue b, exponent - 1, false⟩ :=
      if_pos ⟨rfl, here⟩
    rw [List.foldl_cons, step, ih fits, List.length_cons]
    congr 1
    omega

theorem extend_zeros (n count : Nat) : extend n (List.replicate count 0x30) = n * powerOfTen count := by
  induction count generalizing n with
  | zero => exact (Nat.mul_one n).symm
  | succ count ih =>
    have step : extend n (List.replicate (count + 1) 0x30) = extend (n * 10 + 0) (List.replicate count 0x30) := rfl
    have power : powerOfTen (count + 1) = powerOfTen count * 10 := Decimal.powerOfTen_add count 1
    rw [step, ih, power]
    ring

/-- What an exponent adds to the one that the digits behind the point leave. -/
def exponentValue : Option (Bool × Bytes) → Int
  | none => 0
  | some (true, digits) => -(natural digits : Int)
  | some (false, digits) => (natural digits : Int)

/-- All digits of a numeral, as far as they are not its exponent. -/
def digitsOf (numeral : Numeral) : Bytes := numeral.lead ++ numeral.fraction.getD []

/-- A numeral of not too many digits is read with all of them. -/
theorem real?_eq {numeral : Numeral} (fits : natural numeral.digitsOf ≤ significandLimit) :
    numeral.real? = (Binary64.ofDecimal? (natural numeral.digitsOf)
      (exponentValue numeral.exponent - (numeral.fraction.getD []).length)).map (·.withSign numeral.negative) := by
  obtain ⟨negative, lead, fraction, exponent⟩ := numeral
  rw [digitsOf, natural_append] at fits
  have leads := @lead_gathered 0 lead (Nat.le_trans (le_extend _ _) fits)
  have whole : (fraction.getD []).foldl Gathered.fraction { lead.foldl Gathered.lead ⟨0, 0, false⟩ with full := false } =
      ⟨natural (lead ++ fraction.getD []), 0 - (fraction.getD []).length, false⟩ := by
    rw [leads, natural_append]
    exact fraction_gathered fits 0
  have shifted : ∀ exponent : Int, 0 - ((fraction.getD []).length : Int) + exponent =
      exponent - (fraction.getD []).length := by
    intro exponent
    omega
  rw [real?]
  dsimp only
  rw [whole, digitsOf]
  dsimp only
  rw [shifted]
  rcases exponent with _ | ⟨_ | _, digits⟩ <;> rfl

/-- A numeral that is written with a fraction or an exponent is not whole. -/
theorem value?_eq {numeral : Numeral} (part : numeral.fraction ≠ none ∨ numeral.exponent ≠ none) :
    numeral.value? = numeral.real?.map .real := by
  obtain ⟨negative, lead, fraction, exponent⟩ := numeral
  rcases fraction with _ | fraction
  · rcases exponent with _ | exponent
    · simp at part
    · rfl
  · rfl

end Numeral

/-! ### Layout -/

/-- A decimal that is laid out so that it can be read. -/
structure Legible (x : Scientific) : Prop where
  plain : 0 < x.digits ∨ x.exponent = 0
  few : x.digits ≤ powerOfTen 17
  finite : ∃ z, Binary64.ofDecimal? x.digits x.exponent = some z

theorem ascii_ofList (chars : List Char) : ascii (String.ofList chars) = chars.map fun c => UInt8.ofNat c.toNat := by
  simp [ascii]

/-- A numeral that stands for a decimal, as far as reading goes. -/
structure Stands (numeral : Numeral) (negative : Bool) (octets : Bytes) : Prop where
  written : numeral.written = octets
  sign : numeral.negative = negative
  proper : numeral.Proper
  value : ∃ z, numeral.value? = some (.real z)

theorem Stands.of_digits {numeral : Numeral} {octets : Bytes} {digits : Nat} {exponent : Int}
    (few : digits ≤ powerOfTen 17) (finite : ∃ z, Binary64.ofDecimal? digits exponent = some z)
    (written : numeral.written = octets) (proper : numeral.Proper)
    (part : numeral.fraction ≠ none ∨ numeral.exponent ≠ none) (same : Numeral.natural numeral.digitsOf = digits)
    (point : Numeral.exponentValue numeral.exponent - (numeral.fraction.getD []).length = exponent) :
    Stands numeral numeral.negative octets := by
  refine ⟨written, rfl, proper, ?_⟩
  have fits : Numeral.natural numeral.digitsOf ≤ Numeral.significandLimit := by
    rw [same]
    exact Nat.le_trans few (by decide)
  obtain ⟨z, found⟩ := finite
  refine ⟨z.withSign numeral.negative, ?_⟩
  rw [Numeral.value?_eq part, Numeral.real?_eq fits, same, point, found]
  rfl

theorem Digits.append {before after : Bytes} (digits : Digits before) (more : ∀ b ∈ after, isDigit b = true) :
    Digits (before ++ after) := by
  refine ⟨fun none => digits.some (List.append_eq_nil_iff.1 none).1, fun b member => ?_⟩
  rcases List.mem_append.1 member with early | late
  · exact digits.digits b early
  · exact more b late

theorem zeros_digits (count : Nat) : ∀ b ∈ List.replicate count (0x30 : UInt8), isDigit b = true := by
  intro b member
  rw [List.eq_of_mem_replicate member]
  rfl

theorem Digits.take {found : Bytes} (digits : Digits found) {point : Nat} (positive : 0 < point) :
    Digits (found.take point) := by
  refine ⟨fun none => ?_, fun b member => digits.digits b (List.mem_of_mem_take member)⟩
  rcases List.take_eq_nil_iff.1 none with zero | empty
  · omega
  · exact digits.some empty

theorem Digits.drop {found : Bytes} (digits : Digits found) {point : Nat} (inside : point < found.length) :
    Digits (found.drop point) := by
  refine ⟨fun none => ?_, fun b member => digits.digits b (List.mem_of_mem_drop member)⟩
  exact Nat.not_le_of_lt inside (List.drop_eq_nil_iff.1 none)

theorem lt_digitOctets (n : Nat) : n < powerOfTen (digitOctets n).length := by
  have length : (digitOctets n).length = (Nat.toDigits 10 n).length := List.length_map ..
  rw [length]
  exact (Nat.length_toDigits_le_iff (by decide) Nat.length_toDigits_pos).1 (Nat.le_refl _)

/-- The first digit of a number with more than one is not zero. -/
theorem digitOctets_take_plain {n point : Nat} (positive : 0 < point)
    (zero : ((digitOctets n).take point).head? = some 0x30) : ((digitOctets n).take point).length = 1 := by
  have some := List.length_pos_iff.2 (digitOctets_ne_nil n)
  rw [List.head?_take, if_neg (by omega)] at zero
  have one := digitOctets_plain zero
  rw [List.length_take]
  omega

theorem exponentText_written (exponent : Int) :
    (0x65 : UInt8) :: (exponentText exponent).map (fun c => UInt8.ofNat c.toNat) =
      Numeral.exponentPart (some (decide (exponent < 0), digitOctets exponent.natAbs)) := by
  unfold exponentText
  by_cases negative : exponent < 0
  · simp [Numeral.exponentPart, negative, digitOctets]
  · simp [Numeral.exponentPart, negative, digitOctets]

theorem exponentValue_written (exponent : Int) :
    Numeral.exponentValue (some (decide (exponent < 0), digitOctets exponent.natAbs)) = exponent := by
  by_cases negative : exponent < 0
  · rw [decide_eq_true negative, Numeral.exponentValue, natural_digitOctets]
    omega
  · rw [decide_eq_false negative, Numeral.exponentValue, natural_digitOctets]
    omega

/-- The digits after the first make a fraction, if there are any. -/
theorem exists_fraction {found : Bytes} (digits : Digits found) :
    ∃ fraction, Numeral.fractionPart fraction = (if found.length = 1 then [] else 0x2E :: found.drop 1) ∧
      (∀ after, fraction = some after → Digits after) ∧ fraction.getD [] = found.drop 1 := by
  have positive := List.length_pos_iff.2 digits.some
  by_cases single : found.length = 1
  · refine ⟨none, by rw [if_pos single]; rfl, by simp, ?_⟩
    rw [List.drop_of_length_le (by omega)]
    rfl
  · refine ⟨some (found.drop 1), by rw [if_neg single]; rfl, fun after same => ?_, rfl⟩
    cases same
    exact digits.drop (by omega)

variable {x : Scientific} (legible : Legible x) (negative : Bool)

include legible

/-- All digits stand before the point, and zeros after them. -/
theorem stands_whole (up : 0 ≤ x.exponent) (short : (digitOctets x.digits).length + x.exponent ≤ 16) :
    ∃ numeral, Stands numeral negative
      (digitOctets x.digits ++ List.replicate x.exponent.toNat 0x30 ++ [0x2E, 0x30]) := by
  have few : x.digits * powerOfTen (x.exponent.toNat + 1) ≤ powerOfTen 17 := by
    refine Nat.le_trans (Nat.mul_le_mul_right _ (Nat.le_of_lt (lt_digitOctets x.digits))) ?_
    rw [← Decimal.powerOfTen_add]
    exact Binary64.powerOfTen_le (by omega)
  refine ⟨⟨negative, digitOctets x.digits ++ List.replicate x.exponent.toNat 0x30, some [0x30], none⟩,
    .of_digits few (Decimal.few_finite few (show (-1 : Int) < 0 by decide)) ?_ ?_ (.inl (Option.some_ne_none _)) ?_ rfl⟩
  · simp [Numeral.written, Numeral.fractionPart, Numeral.exponentPart]
  · refine ⟨(digits_octets _).append (zeros_digits _), fun zero => ?_, fun digits same => ?_, by simp⟩
    · dsimp only at zero ⊢
      have front : (digitOctets x.digits).head? = some 0x30 := by
        obtain ⟨first, others, shape⟩ := List.exists_cons_of_ne_nil (digitOctets_ne_nil x.digits)
        rw [shape] at zero ⊢
        exact zero
      rcases legible.plain with positive | none
      · exact absurd front (digitOctets_head positive)
      · simpa [none] using digitOctets_plain front
    · cases same
      exact ⟨List.cons_ne_nil _ _, by simp [isDigit]⟩
  · show Numeral.natural (digitOctets x.digits ++ List.replicate x.exponent.toNat 0x30 ++ [0x30]) = _
    have zeros : List.replicate x.exponent.toNat 0x30 ++ [0x30] = List.replicate (x.exponent.toNat + 1) (0x30 : UInt8) :=
      List.replicate_succ'.symm
    rw [List.append_assoc, zeros, Numeral.natural_append, natural_digitOctets, Numeral.extend_zeros]

/-- The point is among the digits. -/
theorem stands_among (up : x.exponent < 0) (inside : 0 < (digitOctets x.digits).length + x.exponent) :
    ∃ numeral, Stands numeral negative
      ((digitOctets x.digits).take ((digitOctets x.digits).length + x.exponent).toNat ++ [0x2E] ++
        (digitOctets x.digits).drop ((digitOctets x.digits).length + x.exponent).toNat) := by
  generalize place : ((digitOctets x.digits).length + x.exponent).toNat = point
  have digits := digits_octets x.digits
  refine ⟨⟨negative, (digitOctets x.digits).take point, some ((digitOctets x.digits).drop point), none⟩,
    .of_digits legible.few legible.finite ?_ ⟨digits.take (by omega), digitOctets_take_plain (by omega), ?_, by simp⟩
      (.inl (Option.some_ne_none _)) ?_ ?_⟩
  · simp [Numeral.written, Numeral.fractionPart, Numeral.exponentPart]
  · intro behind same
    cases same
    exact digits.drop (by omega)
  · show Numeral.natural ((digitOctets x.digits).take point ++ (digitOctets x.digits).drop point) = _
    rw [List.take_append_drop, natural_digitOctets]
  · show (0 : Int) - ((digitOctets x.digits).drop point).length = _
    rw [List.length_drop]
    omega

/-- All digits stand after the point, and zeros before them. -/
theorem stands_behind (outside : (digitOctets x.digits).length + x.exponent ≤ 0) :
    ∃ numeral, Stands numeral negative
      ([0x30, 0x2E] ++ List.replicate (-((digitOctets x.digits).length + x.exponent)).toNat 0x30 ++
        digitOctets x.digits) := by
  generalize place : (-((digitOctets x.digits).length + x.exponent)).toNat = zeros
  refine ⟨⟨negative, [0x30], some (List.replicate zeros 0x30 ++ digitOctets x.digits), none⟩,
    .of_digits legible.few legible.finite ?_ ⟨⟨List.cons_ne_nil _ _, by simp [isDigit]⟩, fun _ => rfl, ?_, by simp⟩
      (.inl (Option.some_ne_none _)) ?_ ?_⟩
  · simp [Numeral.written, Numeral.fractionPart, Numeral.exponentPart]
  · intro digits same
    cases same
    refine ⟨fun none => digitOctets_ne_nil _ (List.append_eq_nil_iff.1 none).2, fun b member => ?_⟩
    rcases List.mem_append.1 member with zero | digit
    · exact zeros_digits zeros b zero
    · exact isDigit_of_mem digit
  · have zero : Numeral.natural (List.replicate (zeros + 1) 0x30) = 0 := by
      rw [show Numeral.natural (List.replicate (zeros + 1) 0x30) = Numeral.extend 0 _ from rfl, Numeral.extend_zeros,
        Nat.zero_mul]
    show Numeral.natural (List.replicate (zeros + 1) 0x30 ++ digitOctets x.digits) = _
    rw [Numeral.natural_append, zero]
    exact natural_digitOctets x.digits
  · show (0 : Int) - (List.replicate zeros 0x30 ++ digitOctets x.digits).length = _
    rw [List.length_append, List.length_replicate]
    omega

/-- One digit stands before the point, and an exponent after the others. -/
theorem stands_scientific :
    ∃ numeral, Stands numeral negative
      ((digitOctets x.digits).take 1 ++
        ((if (digitOctets x.digits).length = 1 then [] else 0x2E :: (digitOctets x.digits).drop 1) ++
          0x65 :: (exponentText ((digitOctets x.digits).length + x.exponent - 1)).map fun c => UInt8.ofNat c.toNat)) := by
  have positive := List.length_pos_iff.2 (digitOctets_ne_nil x.digits)
  generalize power : (digitOctets x.digits).length + x.exponent - 1 = exponent
  obtain ⟨fraction, drawn, proper, behind⟩ := exists_fraction (digits_octets x.digits)
  refine ⟨⟨negative, (digitOctets x.digits).take 1, fraction, some (decide (exponent < 0), digitOctets exponent.natAbs)⟩,
    .of_digits legible.few legible.finite ?_ ⟨(digits_octets _).take Nat.one_pos, digitOctets_take_plain Nat.one_pos, proper, ?_⟩
      (.inr (Option.some_ne_none _)) ?_ ?_⟩
  · rw [Numeral.written, drawn, exponentText_written]
  · intro negative digits same
    cases same
    exact digits_octets _
  · show Numeral.natural ((digitOctets x.digits).take 1 ++ fraction.getD []) = _
    rw [behind, List.take_append_drop, natural_digitOctets]
  · show Numeral.exponentValue (some (decide (exponent < 0), digitOctets exponent.natAbs)) - _ = _
    rw [exponentValue_written, behind, List.length_drop]
    omega

theorem layout_stands : ∃ numeral, Stands numeral negative (ascii (layout x)) := by
  have long : (Nat.toDigits 10 x.digits).length = (digitOctets x.digits).length := by simp [digitOctets]
  have drawn : (Nat.toDigits 10 x.digits).map (fun c => UInt8.ofNat c.toNat) = digitOctets x.digits := rfl
  unfold layout
  dsimp only
  rw [ascii_ofList, long]
  split
  · next whole =>
    simpa [drawn] using stands_whole legible negative whole.1 whole.2
  next notWhole =>
  split
  · next among =>
    simpa [drawn, List.map_take, List.map_drop] using stands_among legible negative (by omega) among.1
  split
  · next behind =>
    simpa [drawn] using stands_behind legible negative behind.2
  · have stands := stands_scientific legible negative
    split at stands
    · next single => simpa [drawn, single] using stands
    · next several => simpa [drawn, several] using stands

omit legible

/-! ### Values -/

/-- A floating-point number without its sign is written as a decimal that can be read. -/
theorem exists_legible (x : Binary64) :
    ∃ decimal, Legible decimal ∧ realText x = (if x.negative then "-" else "") ++ layout decimal := by
  by_cases zero : x.place = 0
  · refine ⟨⟨0, 0⟩, ⟨.inr rfl, Nat.zero_le _, ⟨.zero, by decide +kernel⟩⟩, ?_⟩
    rw [realText, if_pos zero]
    rfl
  · have positive := Nat.pos_of_ne_zero zero
    refine ⟨Decimal.shortest x.place, ?_, by rw [realText, if_neg zero]⟩
    have finite := Decimal.shortest_finite x.finite positive
    rcases Decimal.shortest_suits positive with none | suits
    · rw [none] at finite ⊢
      exact ⟨.inr rfl, Nat.zero_le _, finite⟩
    · exact ⟨.inl suits.positive, suits.few, finite⟩

/-- A floating-point number is written as a numeral of a floating-point number. -/
theorem real_written (x : Binary64) :
    ∃ numeral : Numeral, render (.real x) = (if numeral.negative then [0x2D] else []) ++ numeral.written ∧
      numeral.Proper ∧ ∃ z, numeral.value? = some (.real z) := by
  obtain ⟨decimal, legible, text⟩ := exists_legible x
  obtain ⟨numeral, stands⟩ := layout_stands legible x.negative
  refine ⟨numeral, ?_, stands.proper, stands.value⟩
  rw [render, text, stands.written, stands.sign]
  cases x.negative <;> simp [ascii]

/-- A floating-point number starts like nothing else. -/
theorem numeric_real (x : Binary64) :
    ∃ first others, render (.real x) = first :: others ∧ (first = 0x2D ∨ isDigit first = true) := by
  obtain ⟨numeral, written, proper, -⟩ := real_written x
  rw [written]
  cases numeral.negative with
  | true => exact ⟨_, _, rfl, .inl rfl⟩
  | false =>
    obtain ⟨first, others, shape, digit⟩ := proper.first
    exact ⟨first, others, shape, .inr digit⟩

/-- A floating-point number is read as a floating-point number. -/
theorem readValue_real (x : Binary64) (room : Nat) {rest : Bytes} (delimited : Delimited rest) :
    ∃ z, readValue room (render (.real x) ++ rest) = some (.real z, rest) := by
  obtain ⟨numeral, written, proper, z, value⟩ := real_written x
  obtain ⟨first, others, shape, numeric⟩ := numeric_real x
  have read := proper.read_signed delimited
  rw [← written, shape, List.cons_append] at read
  refine ⟨z, ?_⟩
  rw [shape, List.cons_append]
  exact readValue_numeral numeric read value room

end CommitLog.Json
