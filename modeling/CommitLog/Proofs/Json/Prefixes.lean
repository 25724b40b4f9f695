import CommitLog.Proofs.Json.Grammar

/-!
What has been read is read in the same way if more follows. A reader that ends with a bracket, a brace or a quote ends
there whatever comes behind (`Stable`); one that may end with a number has to see the octet behind it
(`StableInside`). More room makes no difference either (`readValue_stable`).
-/

namespace CommitLog.Json

variable {α : Type}

/-- What one reader reads the other reads too, whatever comes behind. -/
def Stable (reader onward : Reader α) : Prop :=
  ∀ s value rest more, reader s = some (value, rest) → onward (s ++ more) = some (value, rest ++ more)

/-- What one reader reads the other reads too, whatever comes behind, if something is left after it: the octet
that shows where a number ends. -/
def StableInside (reader onward : Reader α) : Prop :=
  ∀ s value rest more, rest ≠ [] → reader s = some (value, rest) → onward (s ++ more) = some (value, rest ++ more)

theorem skipBlank_append {s t : Bytes} {b : UInt8} (visible : skipBlank s = b :: t) (more : Bytes) :
    skipBlank (s ++ more) = b :: (t ++ more) := by
  unfold skipBlank at visible ⊢
  rw [List.dropWhile_append, visible]
  rfl

theorem ne_nil_of_skipBlank {s t : Bytes} {b : UInt8} (visible : skipBlank s = b :: t) : s ≠ [] := by
  rintro rfl
  contradiction

theorem word_append {expected : String} {s rest : Bytes} (spelled : word expected s = some rest)
    (fits : expected.length ≤ (Utf8.ofString expected).length) (more : Bytes) :
    word expected (s ++ more) = some (rest ++ more) := by
  unfold word at spelled ⊢
  split at spelled
  · next start =>
    rw [List.isPrefixOf_iff_prefix] at start
    cases spelled
    have longer : (Utf8.ofString expected).isPrefixOf (s ++ more) = true := by
      rw [List.isPrefixOf_iff_prefix]
      exact start.trans (List.prefix_append s more)
    have inside : expected.length ≤ s.length := Nat.le_trans fits start.length_le
    rw [if_pos longer, List.drop_append_of_le_length inside]
  · contradiction

/-! ### Text -/

theorem hexUnit_stable : Stable hexUnit hexUnit := by
  intro s value rest more read
  unfold hexUnit at read
  split at read
  · obtain ⟨a, first, read⟩ := Option.bind_eq_some_iff.1 read
    obtain ⟨b, second, read⟩ := Option.bind_eq_some_iff.1 read
    obtain ⟨c, third, read⟩ := Option.bind_eq_some_iff.1 read
    obtain ⟨d, fourth, same⟩ := Option.bind_eq_some_iff.1 read
    cases same
    simp [hexUnit, first, second, third, fourth]
  · contradiction

theorem numberedEscape_stable : Stable numberedEscape numberedEscape := by
  intro s value rest more read
  unfold numberedEscape at read ⊢
  cases unit : hexUnit s with
  | none => simp [unit] at read
  | some found =>
    obtain ⟨n, after⟩ := found
    simp only [unit, hexUnit_stable _ _ _ more unit, Option.bind_eq_bind, Option.bind_some] at read ⊢
    split at read
    · next plain =>
      obtain ⟨c, found, same⟩ := Option.bind_eq_some_iff.1 read
      cases same
      rw [if_pos plain, found]
      rfl
    next pair =>
    rw [if_neg pair]
    split at read
    · contradiction
    next high =>
    rw [if_neg high]
    split at read
    · next later =>
      obtain ⟨⟨low, last⟩, second, read⟩ := Option.bind_eq_some_iff.1 read
      simp only [List.cons_append, hexUnit_stable _ _ _ more second, Option.bind_some]
      dsimp only at read
      split at read
      · next fits =>
        obtain ⟨c, found, same⟩ := Option.bind_eq_some_iff.1 read
        cases same
        rw [if_pos fits, found]
        rfl
      · contradiction
    · contradiction

theorem quotedFrom_append {clock s rest : Bytes} {chars : List Char} (read : quotedFrom clock s = some (chars, rest))
    {longer : Bytes} (enough : clock.length ≤ longer.length) (more : Bytes) :
    quotedFrom longer (s ++ more) = some (chars, rest ++ more) := by
  induction clock generalizing s chars longer with
  | nil => contradiction
  | cons tick clock ih =>
    obtain ⟨other, longer, rfl⟩ := List.exists_cons_of_length_pos (Nat.lt_of_lt_of_le (Nat.zero_lt_succ _) enough)
    have fewer : clock.length ≤ longer.length := Nat.le_of_succ_le_succ enough
    rw [quotedFrom.eq_def] at read
    dsimp only at read
    split at read
    · contradiction
    · cases read
      simp [quotedFrom]
    · obtain ⟨⟨c, after⟩, escape, read⟩ := Option.bind_eq_some_iff.1 read
      obtain ⟨⟨others, last⟩, later, same⟩ := Option.bind_eq_some_iff.1 read
      cases same
      simp [quotedFrom, numberedEscape_stable _ _ _ more escape, ih later fewer]
    · obtain ⟨c, escape, read⟩ := Option.bind_eq_some_iff.1 read
      obtain ⟨⟨others, last⟩, later, same⟩ := Option.bind_eq_some_iff.1 read
      cases same
      simp [quotedFrom, escape, ih later fewer]
    · next notQuote _ _ =>
      obtain ⟨⟨c, after⟩, plain, read⟩ := Option.bind_eq_some_iff.1 read
      dsimp only at read
      split at read
      · contradiction
      next printable =>
      rw [not_or] at printable
      obtain ⟨⟨others, last⟩, later, same⟩ := Option.bind_eq_some_iff.1 read
      cases same
      have spelled := Utf8.eq_encode_of_decode? plain
      have quote : c.toNat ≠ 0x22 := by
        intro same
        have written : Utf8.encode c = [0x22] := by
          rw [Utf8.encode, if_pos (by omega), same]
          rfl
        exact notQuote after (by rw [spelled, written]; rfl)
      have backslash : c.toNat ≠ 0x5C := fun same => printable.2 (Char.toNat_inj.1 same)
      rw [spelled, List.append_assoc, quotedFrom_plain (by omega) quote backslash, ih later fewer]
      rfl

theorem textBody_stable : Stable textBody textBody := by
  intro s value rest more read
  obtain ⟨⟨chars, after⟩, quoted, same⟩ := Option.map_eq_some_iff.1 read
  cases same
  have longer : s.length ≤ (s ++ more).length := by simp
  rw [textBody, quotedFrom_append quoted longer more]
  rfl

theorem readText_stable : Stable readText readText := by
  intro s value rest more read
  unfold readText at read ⊢
  split at read
  · next visible =>
    rw [skipBlank_append visible]
    exact textBody_stable _ _ _ more read
  · contradiction

/-! ### Numbers -/

namespace Numeral

theorem digits_stable : StableInside digits digits := by
  intro s found rest more left read
  obtain ⟨taken, dropped, some⟩ := digits_eq_some read
  have stops : (s.dropWhile isDigit).isEmpty = false := by
    rw [← dropped]
    simpa using left
  have short : (s.takeWhile isDigit).length ≠ s.length := by
    intro whole
    have parts := congrArg List.length (List.takeWhile_append_dropWhile (p := isDigit) (l := s))
    rw [List.length_append, ← dropped] at parts
    have := List.length_pos_iff.2 left
    omega
  rw [digits, List.takeWhile_append, List.dropWhile_append, if_neg short, stops, ← taken, ← dropped]
  simp [some]

theorem leadDigits_stable : StableInside leadDigits leadDigits := by
  intro s found rest more left read
  unfold leadDigits at read ⊢
  obtain ⟨⟨lead, after⟩, leads, read⟩ := Option.bind_eq_some_iff.1 read
  dsimp only at read
  split at read
  · contradiction
  · next plain =>
    cases read
    simp only [digits_stable _ _ _ more left leads, Option.bind_eq_bind, Option.bind_some]
    rw [if_neg plain]

theorem fractionDigits_stable : StableInside fractionDigits fractionDigits := by
  intro s found rest more left read
  rw [fractionDigits.eq_def] at read
  split at read
  · obtain ⟨⟨digits, after⟩, behind, same⟩ := Option.map_eq_some_iff.1 read
    cases same
    simp [fractionDigits, digits_stable _ _ _ more left behind]
  · next other =>
    cases read
    obtain ⟨b, s, rfl⟩ := List.exists_cons_of_ne_nil left
    rw [List.cons_append, fractionDigits.eq_def]
    split
    · next same =>
      cases same
      exact absurd rfl (other s)
    · rfl

theorem signedDigits_stable : StableInside signedDigits signedDigits := by
  intro s found rest more left read
  rw [signedDigits.eq_def] at read
  split at read
  all_goals
    obtain ⟨⟨digits, after⟩, behind, same⟩ := Option.map_eq_some_iff.1 read
    cases same
    have onward := digits_stable _ _ _ more left behind
  · simp [signedDigits, onward]
  · simp [signedDigits, onward]
  · obtain ⟨first, others, rfl, digit⟩ := digits_head behind
    rw [List.cons_append] at onward ⊢
    rw [signedDigits.eq_def]
    split
    · next same =>
      cases same
      exact absurd digit (by decide)
    · next same =>
      cases same
      exact absurd digit (by decide)
    · rw [onward]
      rfl

theorem exponentDigits_stable : StableInside exponentDigits exponentDigits := by
  intro s found rest more left read
  cases s with
  | nil =>
    cases read
    contradiction
  | cons b s =>
    rw [exponentDigits] at read
    rw [List.cons_append, exponentDigits]
    split at read
    · next letter =>
      obtain ⟨⟨digits, after⟩, behind, same⟩ := Option.map_eq_some_iff.1 read
      cases same
      rw [if_pos letter, signedDigits_stable _ _ _ more left behind]
      rfl
    · next other =>
      cases read
      rw [if_neg other]
      rfl

theorem unsigned_stable (negative : Bool) : StableInside (unsigned negative) (unsigned negative) := by
  intro s numeral rest more left read
  unfold unsigned at read ⊢
  obtain ⟨⟨lead, first⟩, leads, read⟩ := Option.bind_eq_some_iff.1 read
  obtain ⟨⟨fraction, second⟩, fractional, read⟩ := Option.bind_eq_some_iff.1 read
  obtain ⟨⟨exponent, third⟩, exponential, same⟩ := Option.bind_eq_some_iff.1 read
  cases same
  have inside : second ≠ [] := by
    rintro rfl
    cases exponential
    contradiction
  have before : first ≠ [] := by
    rintro rfl
    cases fractional
    contradiction
  simp only [leadDigits_stable _ _ _ more before leads, fractionDigits_stable _ _ _ more inside fractional,
    exponentDigits_stable _ _ _ more left exponential, Option.bind_eq_bind, Option.bind_some]
  rfl

theorem read_stable : StableInside read read := by
  intro s numeral rest more left reads
  rw [read.eq_def] at reads
  split at reads
  · exact unsigned_stable true _ _ _ more left reads
  · have onward := unsigned_stable false _ _ _ more left reads
    obtain ⟨first, others, rfl, digit⟩ := unsigned_head reads
    rw [List.cons_append] at onward ⊢
    rw [read.eq_def]
    split
    · next same =>
      cases same
      exact absurd digit (by decide)
    · exact onward

end Numeral

/-! ### Arrays and objects -/

theorem itemsFrom_append {item onward : Reader α} (stable : StableInside item onward) {clock s rest : Bytes}
    {items : List α} (read : itemsFrom item clock s = some (items, rest)) {longer : Bytes}
    (enough : clock.length ≤ longer.length) (more : Bytes) :
    itemsFrom onward longer (s ++ more) = some (items, rest ++ more) := by
  induction clock generalizing s items longer with
  | nil => contradiction
  | cons tick clock ih =>
    obtain ⟨other, longer, rfl⟩ := List.exists_cons_of_length_pos (Nat.lt_of_lt_of_le (Nat.zero_lt_succ _) enough)
    obtain ⟨⟨x, after⟩, first, read⟩ := Option.bind_eq_some_iff.1 read
    dsimp only at read
    split at read
    · next visible =>
      cases read
      have here := stable _ _ _ more (ne_nil_of_skipBlank visible) first
      simp [itemsFrom, here, skipBlank_append visible]
    · next visible =>
      obtain ⟨⟨others, last⟩, later, same⟩ := Option.bind_eq_some_iff.1 read
      cases same
      have here := stable _ _ _ more (ne_nil_of_skipBlank visible) first
      simp [itemsFrom, here, skipBlank_append visible, ih later (Nat.le_of_succ_le_succ enough)]
    · contradiction

theorem itemsBody_stable {item onward : Reader α} (stable : StableInside item onward) :
    Stable (itemsBody item) (itemsBody onward) := by
  intro s items rest more read
  unfold itemsBody at read ⊢
  split at read
  · next visible =>
    cases read
    simp [skipBlank_append visible]
  · next open_ =>
    cases visible : skipBlank s with
    | nil =>
      rw [visible] at read
      contradiction
    | cons b t =>
      rw [skipBlank_append visible]
      split
      · next same =>
        cases same
        exact absurd visible (open_ _)
      · rw [visible] at read
        exact itemsFrom_append stable read (by simp) more

theorem readKey_stable : Stable (readKey readText) (readKey readText) := by
  intro s key rest more read
  unfold readKey at read ⊢
  obtain ⟨⟨found, after⟩, text, read⟩ := Option.bind_eq_some_iff.1 read
  dsimp only at read
  split at read
  · next visible =>
    cases read
    simp [readText_stable _ _ _ more text, skipBlank_append visible]
  · contradiction

variable {β : Type}

theorem fieldsFrom_append {step onward : β → String → Reader β}
    (stable : ∀ seen key, StableInside (step seen key) (onward seen key)) {clock s rest : Bytes} {seen last : β}
    (read : fieldsFrom readText step clock seen s = some (last, rest)) {longer : Bytes}
    (enough : clock.length ≤ longer.length) (more : Bytes) :
    fieldsFrom readText onward longer seen (s ++ more) = some (last, rest ++ more) := by
  induction clock generalizing s seen longer with
  | nil => contradiction
  | cons tick clock ih =>
    obtain ⟨other, longer, rfl⟩ := List.exists_cons_of_length_pos (Nat.lt_of_lt_of_le (Nat.zero_lt_succ _) enough)
    obtain ⟨⟨key, colon⟩, named, read⟩ := Option.bind_eq_some_iff.1 read
    obtain ⟨⟨next, after⟩, stepped, read⟩ := Option.bind_eq_some_iff.1 read
    have keyed := readKey_stable _ _ _ more named
    dsimp only at read
    split at read
    · next visible =>
      cases read
      have here := stable _ _ _ _ _ more (ne_nil_of_skipBlank visible) stepped
      simp [fieldsFrom, keyed, here, skipBlank_append visible]
    · next visible =>
      have here := stable _ _ _ _ _ more (ne_nil_of_skipBlank visible) stepped
      simp [fieldsFrom, keyed, here, skipBlank_append visible, ih read (Nat.le_of_succ_le_succ enough)]
    · contradiction

theorem fieldsBody_stable {step onward : β → String → Reader β}
    (stable : ∀ seen key, StableInside (step seen key) (onward seen key)) (start : β) :
    Stable (fieldsBody readText step start) (fieldsBody readText onward start) := by
  intro s last rest more read
  unfold fieldsBody at read ⊢
  split at read
  · next visible =>
    cases read
    simp [skipBlank_append visible]
  · next open_ =>
    cases visible : skipBlank s with
    | nil =>
      rw [visible] at read
      contradiction
    | cons b t =>
      rw [skipBlank_append visible]
      split
      · next same =>
        cases same
        exact absurd visible (open_ _)
      · rw [visible] at read
        exact fieldsFrom_append stable read (by simp) more

theorem insertField_stable {reader onward : Reader Json} (stable : StableInside reader onward) (seen : Fields)
    (key : String) : StableInside (insertField reader seen key) (insertField onward seen key) := by
  intro s fields rest more left read
  obtain ⟨⟨value, after⟩, found, same⟩ := Option.map_eq_some_iff.1 read
  cases same
  simp [insertField, stable _ _ _ more left found]

/-! ### Values -/

/-- The octets of a value stay those of the value if more follows, and if there is more room. -/
theorem ReadAs.append {room wider : Nat}
    (inner : ∀ less, room = less + 1 → ∃ lesser, wider = lesser + 1 ∧ StableInside (readValue less) (readValue lesser))
    {s rest : Bytes} {value : Json} (read : ReadAs room s value rest) (left : rest ≠ []) (more : Bytes) :
    ReadAs wider (s ++ more) value (rest ++ more) := by
  cases read with
  | null spelled => exact .null (word_append spelled (by decide) more)
  | true spelled => exact .true (word_append spelled (by decide) more)
  | false spelled => exact .false (word_append spelled (by decide) more)
  | text body => exact .text (textBody_stable _ _ _ more body)
  | array body =>
    obtain ⟨lesser, rfl, stable⟩ := inner _ rfl
    exact .array (itemsBody_stable stable _ _ _ more body)
  | object body =>
    obtain ⟨lesser, rfl, stable⟩ := inner _ rfl
    exact .object (fieldsBody_stable (insertField_stable stable) [] _ _ _ more body)
  | number numbered known => exact .number (Numeral.read_stable _ _ _ more left numbered) known

/-- A value that has been read is read too if more follows, and if there is more room. -/
theorem readValue_stable {room wider : Nat} (fits : room ≤ wider) : StableInside (readValue room) (readValue wider) := by
  induction room using Nat.strongRecOn generalizing wider with
  | ind room ih =>
    intro s value rest more left read
    rw [readValue_iff] at read ⊢
    obtain ⟨b, t, visible⟩ := List.exists_cons_of_ne_nil read.ne_nil
    rw [visible] at read
    rw [skipBlank_append visible]
    exact read.append (fun less same => ⟨wider - 1, by omega, ih less (by omega) (by omega)⟩) left more

end CommitLog.Json
