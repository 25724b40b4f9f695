import CommitLog.Json.Printer
import CommitLog.Json.Reader

/-!
Text that is written and read back. A character in UTF-8 is read as itself (`decode?_encode`), and so
is every string between quotes (`readText_quoted`), whatever octets follow. Nothing is read as a character
but its own octets (`eq_encode_of_decode?`).
-/

namespace CommitLog
namespace Utf8

theorem toNat_octet {n : Nat} (small : n < 256) : (octet n).toNat = n := by
  unfold octet
  rw [UInt8.toNat_ofNat']
  omega

theorem charFrom?_toNat (c : Char) {least : Nat} (enough : least ≤ c.toNat) :
    charFrom? least c.toNat = some c := by
  have valid : c.toNat.isValidChar := c.valid
  unfold charFrom?
  rw [dif_pos ⟨valid, enough⟩]
  rfl

theorem tail?_octet {n : Nat} (small : n < 64) : tail? (octet (0x80 + n)) = some n := by
  unfold tail?
  rw [toNat_octet (by omega), if_pos (by omega), Nat.add_sub_cancel_left]

/-! ### One form each for two, three and four octets -/

section forms

variable {a b c d : UInt8} {x y z : Nat} {ch : Char} {rest : Bytes}

private theorem decode?_two (least : 0xC0 ≤ a.toNat) (most : a.toNat < 0xE0) (second : tail? b = some x)
    (whole : charFrom? 0x80 ((a.toNat - 0xC0) * 64 + x) = some ch) :
    decode? (a :: b :: rest) = some (ch, rest) := by
  rw [decode?, if_neg (by omega), if_neg (by omega), if_pos most]
  refine Option.bind_eq_some_iff.2 ⟨x, second, ?_⟩
  exact Option.bind_eq_some_iff.2 ⟨ch, whole, rfl⟩

private theorem decode?_three (least : 0xE0 ≤ a.toNat) (most : a.toNat < 0xF0) (second : tail? b = some x)
    (third : tail? c = some y) (whole : charFrom? 0x800 ((a.toNat - 0xE0) * 4096 + x * 64 + y) = some ch) :
    decode? (a :: b :: c :: rest) = some (ch, rest) := by
  rw [decode?, if_neg (by omega), if_neg (by omega), if_neg (by omega), if_pos most]
  refine Option.bind_eq_some_iff.2 ⟨x, second, ?_⟩
  refine Option.bind_eq_some_iff.2 ⟨y, third, ?_⟩
  exact Option.bind_eq_some_iff.2 ⟨ch, whole, rfl⟩

private theorem decode?_four (least : 0xF0 ≤ a.toNat) (most : a.toNat < 0xF8) (second : tail? b = some x)
    (third : tail? c = some y) (fourth : tail? d = some z)
    (whole : charFrom? 0x10000 ((a.toNat - 0xF0) * 262144 + x * 4096 + y * 64 + z) = some ch) :
    decode? (a :: b :: c :: d :: rest) = some (ch, rest) := by
  rw [decode?, if_neg (by omega), if_neg (by omega), if_neg (by omega), if_neg (by omega), if_pos most]
  refine Option.bind_eq_some_iff.2 ⟨x, second, ?_⟩
  refine Option.bind_eq_some_iff.2 ⟨y, third, ?_⟩
  refine Option.bind_eq_some_iff.2 ⟨z, fourth, ?_⟩
  exact Option.bind_eq_some_iff.2 ⟨ch, whole, rfl⟩

end forms

/-- The same with the parts of a code point in place of the octets. -/
private theorem charFrom?_parts {c : Char} {least n : Nat} (same : n = c.toNat) (enough : least ≤ c.toNat) :
    charFrom? least n = some c := by
  rw [same]
  exact charFrom?_toNat c enough

theorem toNat_lt (c : Char) : c.toNat < 0x110000 := by
  have valid : c.toNat.isValidChar := c.valid
  unfold Nat.isValidChar at valid
  omega

/-- Reading gives back the character that was written, whatever follows it. -/
theorem decode?_encode (c : Char) (rest : Bytes) : decode? (encode c ++ rest) = some (c, rest) := by
  have bound := toNat_lt c
  unfold encode
  simp only
  split
  · next one =>
    simp only [List.cons_append, List.nil_append, decode?, toNat_octet (show c.toNat < 256 by omega)]
    rw [if_pos one, charFrom?_toNat c (Nat.zero_le _)]
    rfl
  · split
    · have lead : (octet (0xC0 + c.toNat / 64)).toNat = 0xC0 + c.toNat / 64 := toNat_octet (by omega)
      exact decode?_two (by omega) (by omega) (tail?_octet (by omega))
        (charFrom?_parts (by rw [lead]; omega) (by omega))
    · split
      · have lead : (octet (0xE0 + c.toNat / 4096)).toNat = 0xE0 + c.toNat / 4096 := toNat_octet (by omega)
        exact decode?_three (by omega) (by omega) (tail?_octet (by omega)) (tail?_octet (by omega))
          (charFrom?_parts (by rw [lead]; omega) (by omega))
      · have lead : (octet (0xF0 + c.toNat / 262144)).toNat = 0xF0 + c.toNat / 262144 := toNat_octet (by omega)
        exact decode?_four (by omega) (by omega) (tail?_octet (by omega)) (tail?_octet (by omega))
          (tail?_octet (by omega)) (charFrom?_parts (by rw [lead]; omega) (by omega))

/-! ### The other way -/

theorem octet_toNat (b : UInt8) : octet b.toNat = b := UInt8.ofNat_toNat

theorem tail?_eq_some {b : UInt8} {x : Nat} (found : tail? b = some x) : b = octet (0x80 + x) ∧ x < 64 := by
  unfold tail? at found
  split at found
  · next inside =>
    have value : b.toNat - 0x80 = x := Option.some.inj found
    have whole : 0x80 + x = b.toNat := by omega
    exact ⟨by rw [whole, octet_toNat], by omega⟩
  · contradiction

theorem charFrom?_eq_some {c : Char} {least n : Nat} (found : charFrom? least n = some c) : c.toNat = n ∧ least ≤ n := by
  by_cases valid : n.isValidChar ∧ least ≤ n
  · rw [charFrom?, dif_pos valid] at found
    cases found
    exact ⟨rfl, valid.2⟩
  · rw [charFrom?, dif_neg valid] at found
    contradiction

section forms

variable {a : UInt8} {x y z : Nat} {ch : Char}

private theorem encode_two (least : 0x80 ≤ ch.toNat) (lead : 0xC0 ≤ a.toNat ∧ a.toNat < 0xE0) (second : x < 64)
    (whole : ch.toNat = (a.toNat - 0xC0) * 64 + x) : encode ch = [a, octet (0x80 + x)] := by
  have first : 0xC0 + ch.toNat / 64 = a.toNat := by omega
  have last : ch.toNat % 64 = x := by omega
  rw [encode, if_neg (by omega), if_pos (by omega), first, last, octet_toNat]

private theorem encode_three (least : 0x800 ≤ ch.toNat) (lead : 0xE0 ≤ a.toNat ∧ a.toNat < 0xF0) (second : x < 64)
    (third : y < 64) (whole : ch.toNat = (a.toNat - 0xE0) * 4096 + x * 64 + y) :
    encode ch = [a, octet (0x80 + x), octet (0x80 + y)] := by
  have first : 0xE0 + ch.toNat / 4096 = a.toNat := by omega
  have middle : ch.toNat / 64 % 64 = x := by omega
  have last : ch.toNat % 64 = y := by omega
  rw [encode, if_neg (by omega), if_neg (by omega), if_pos (by omega), first, middle, last, octet_toNat]

private theorem encode_four (least : 0x10000 ≤ ch.toNat) (lead : 0xF0 ≤ a.toNat) (second : x < 64) (third : y < 64)
    (fourth : z < 64) (whole : ch.toNat = (a.toNat - 0xF0) * 262144 + x * 4096 + y * 64 + z) :
    encode ch = [a, octet (0x80 + x), octet (0x80 + y), octet (0x80 + z)] := by
  have first : 0xF0 + ch.toNat / 262144 = a.toNat := by omega
  have upper : ch.toNat / 4096 % 64 = x := by omega
  have middle : ch.toNat / 64 % 64 = y := by omega
  have last : ch.toNat % 64 = z := by omega
  rw [encode, if_neg (by omega), if_neg (by omega), if_neg (by omega), first, upper, middle, last, octet_toNat]

end forms

/-- Nothing is read as a character but its own octets. -/
theorem eq_encode_of_decode? {s rest : Bytes} {c : Char} (read : decode? s = some (c, rest)) : s = encode c ++ rest := by
  unfold decode? at read
  split at read
  · contradiction
  next a s =>
  split at read
  · next one =>
    obtain ⟨ch, whole, same⟩ := Option.map_eq_some_iff.1 read
    cases same
    obtain ⟨value, -⟩ := charFrom?_eq_some whole
    have alone : encode c = [octet c.toNat] := if_pos (by omega)
    rw [alone, value, octet_toNat]
    rfl
  split at read
  · contradiction
  split at read
  · split at read
    · obtain ⟨x, second, read⟩ := Option.bind_eq_some_iff.1 read
      obtain ⟨ch, whole, same⟩ := Option.bind_eq_some_iff.1 read
      cases same
      obtain ⟨rfl, inside⟩ := tail?_eq_some second
      obtain ⟨value, least⟩ := charFrom?_eq_some whole
      rw [encode_two (by omega) (by omega) inside value]
      rfl
    · contradiction
  split at read
  · split at read
    · obtain ⟨x, second, read⟩ := Option.bind_eq_some_iff.1 read
      obtain ⟨y, third, read⟩ := Option.bind_eq_some_iff.1 read
      obtain ⟨ch, whole, same⟩ := Option.bind_eq_some_iff.1 read
      cases same
      obtain ⟨rfl, inside⟩ := tail?_eq_some second
      obtain ⟨rfl, insideToo⟩ := tail?_eq_some third
      obtain ⟨value, least⟩ := charFrom?_eq_some whole
      rw [encode_three (by omega) (by omega) inside insideToo value]
      rfl
    · contradiction
  split at read
  · split at read
    · obtain ⟨x, second, read⟩ := Option.bind_eq_some_iff.1 read
      obtain ⟨y, third, read⟩ := Option.bind_eq_some_iff.1 read
      obtain ⟨z, fourth, read⟩ := Option.bind_eq_some_iff.1 read
      obtain ⟨ch, whole, same⟩ := Option.bind_eq_some_iff.1 read
      cases same
      obtain ⟨rfl, inside⟩ := tail?_eq_some second
      obtain ⟨rfl, insideToo⟩ := tail?_eq_some third
      obtain ⟨rfl, insideLast⟩ := tail?_eq_some fourth
      obtain ⟨value, least⟩ := charFrom?_eq_some whole
      rw [encode_four (by omega) (by omega) inside insideToo insideLast value]
      rfl
    · contradiction
  · contradiction

/-! ### How a character begins -/

/-- A character is written as octets of its own class: an ASCII character as itself, any other
without ASCII octets. -/
theorem encode_head (c : Char) : ∃ first others, encode c = first :: others ∧
    (first.toNat = c.toNat ∨ (0x80 ≤ c.toNat ∧ 0xC0 ≤ first.toNat)) := by
  have bound := toNat_lt c
  unfold encode
  simp only
  split
  · exact ⟨_, _, rfl, .inl (toNat_octet (by omega))⟩
  · split
    · exact ⟨_, _, rfl, .inr ⟨by omega, by rw [toNat_octet (by omega)]; omega⟩⟩
    · split
      · exact ⟨_, _, rfl, .inr ⟨by omega, by rw [toNat_octet (by omega)]; omega⟩⟩
      · exact ⟨_, _, rfl, .inr ⟨by omega, by rw [toNat_octet (by omega)]; omega⟩⟩

end Utf8

namespace Json

theorem hexValue?_hexDigit {n : Nat} (small : n < 16) : hexValue? (hexDigit n) = some n := by
  have all : ∀ n < 16, hexValue? (hexDigit n) = some n := by decide
  exact all n small

/-- A plain character is written as in UTF-8. -/
theorem escape_plain {c : Char} (printable : 0x20 ≤ c.toNat) (quote : c.toNat ≠ 0x22)
    (backslash : c.toNat ≠ 0x5C) : escape c = Utf8.encode c := by
  unfold escape
  split
  all_goals first | omega | skip
  · rw [if_neg (by omega)]

theorem numberedEscape_control {n : Nat} (control : n < 0x20) (rest : Bytes) :
    numberedEscape (0x30 :: 0x30 :: hexDigit (n / 16) :: hexDigit (n % 16) :: rest) =
      some (Char.ofNat n, rest) := by
  have zero : hexValue? 0x30 = some 0 := by decide
  have valid : n.isValidChar := .inl (by omega)
  have read : Utf8.charFrom? 0 n = some (Char.ofNat n) := by
    rw [Utf8.charFrom?, dif_pos ⟨valid, Nat.zero_le n⟩, Char.ofNat, dif_pos valid]
  simp only [numberedEscape, hexUnit, zero, hexValue?_hexDigit (show n / 16 < 16 by omega),
    hexValue?_hexDigit (show n % 16 < 16 by omega), Option.bind_eq_bind, Option.bind_some, Option.pure_def]
  rw [show ((0 * 16 + 0) * 16 + n / 16) * 16 + n % 16 = n by omega, if_pos (by omega)]
  rw [read]
  rfl

theorem quotedFrom_plain {c : Char} (printable : 0x20 ≤ c.toNat) (quote : c.toNat ≠ 0x22)
    (backslash : c.toNat ≠ 0x5C) (tick : UInt8) (clock rest : Bytes) :
    quotedFrom (tick :: clock) (Utf8.encode c ++ rest) =
      (quotedFrom clock rest).map fun (chars, rest) => (c :: chars, rest) := by
  have other : c ≠ '\\' := fun same => backslash (by rw [same]; rfl)
  have read := Utf8.decode?_encode c rest
  obtain ⟨first, others, written, shape⟩ := Utf8.encode_head c
  rw [written, List.cons_append] at read ⊢
  have notQuote : first ≠ 0x22 := by rintro rfl; simp at shape; omega
  have notBackslash : first ≠ 0x5C := by rintro rfl; simp at shape; omega
  rw [quotedFrom.eq_def]
  split
  · contradiction
  · next tick' clock' same =>
    obtain ⟨rfl, rfl⟩ := List.cons.inj same
    split
    · simp_all
    · simp_all
    · simp_all
    · simp_all
    · simp only [read, Option.bind_eq_bind, Option.bind_some, Option.pure_def]
      rw [if_neg (by simp only [other, or_false]; omega)]
      cases quotedFrom clock rest <;> rfl

theorem quotedFrom_escape (c : Char) (tick : UInt8) (clock rest : Bytes) :
    quotedFrom (tick :: clock) (escape c ++ rest) =
      (quotedFrom clock rest).map fun (chars, rest) => (c :: chars, rest) := by
  have self : Char.ofNat c.toNat = c := Char.ofNat_toNat c
  by_cases short : c.toNat ∈ [0x22, 0x5C, 0x08, 0x09, 0x0A, 0x0C, 0x0D]
  · simp only [List.mem_cons, List.not_mem_nil, or_false] at short
    rcases short with at_ | at_ | at_ | at_ | at_ | at_ | at_
    all_goals
      rw [at_] at self
      subst self
      cases read : quotedFrom clock rest <;> simp [escape, quotedFrom, shortEscape?, read]
  · simp only [List.mem_cons, List.not_mem_nil, or_false, not_or] at short
    by_cases control : c.toNat < 0x20
    · have written : escape c = [0x5C, 0x75, 0x30, 0x30, hexDigit (c.toNat / 16), hexDigit (c.toNat % 16)] := by
        unfold escape
        split
        all_goals first | omega | skip
        · rw [if_pos control]
      simp only [written, List.cons_append, List.nil_append, quotedFrom, numberedEscape_control control, self,
        Option.bind_eq_bind, Option.bind_some]
      cases quotedFrom clock rest <;> rfl
    · rw [escape_plain (by omega) (by omega) (by omega)]
      exact quotedFrom_plain (by omega) (by omega) (by omega) tick clock rest

/-- Reading a string gives back its characters, whatever follows the closing quote. -/
theorem quotedFrom_escaped (chars : List Char) (rest clock : Bytes) (enough : chars.length < clock.length) :
    quotedFrom clock (chars.flatMap escape ++ 0x22 :: rest) = some (chars, rest) := by
  induction chars generalizing clock with
  | nil =>
    cases clock with
    | nil => simp at enough
    | cons tick clock => simp [quotedFrom]
  | cons c chars ih =>
    cases clock with
    | nil => simp at enough
    | cons tick clock =>
      have tail := ih clock (by simpa using enough)
      rw [List.flatMap_cons, List.append_assoc, quotedFrom_escape, tail]
      rfl

theorem length_le_escaped (chars : List Char) : chars.length ≤ (chars.flatMap escape).length := by
  induction chars with
  | nil => simp
  | cons c chars ih =>
    have written : 0 < (escape c).length := by
      obtain ⟨first, others, encoded, -⟩ := Utf8.encode_head c
      unfold escape
      repeat' split
      all_goals simp [encoded]
    simp only [List.flatMap_cons, List.length_append, List.length_cons]
    omega

theorem textBody_quoted (s : String) (rest : Bytes) :
    textBody (s.toList.flatMap escape ++ 0x22 :: rest) = some (s, rest) := by
  have enough : s.toList.length < (s.toList.flatMap escape ++ 0x22 :: rest).length := by
    have := length_le_escaped s.toList
    simp only [List.length_append, List.length_cons]
    omega
  simp [textBody, quotedFrom_escaped _ rest _ enough, String.ofList_toList]

theorem readText_quoted (s : String) (rest : Bytes) : readText (quoted s ++ rest) = some (s, rest) := by
  have read := textBody_quoted s rest
  simpa [readText, quoted, skipBlank, isBlank] using read

end Json
end CommitLog
