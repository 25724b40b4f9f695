import CommitLog.Proofs.Json.Values
import Mathlib.Data.List.DropRight

/-!
What the reader of values accepts, as a grammar (`ReadAs`). Behind the blanks the first octet decides what kind of
value is read, and a value is read exactly if the octets are read as one of the kinds (`readValue_iff`).
-/

namespace CommitLog.Json

/-! ### How numbers begin -/

namespace Numeral

theorem digits_eq_some {s found rest : Bytes} (read : digits s = some (found, rest)) :
    found = s.takeWhile isDigit ∧ rest = s.dropWhile isDigit ∧ found ≠ [] := by
  rw [digits] at read
  split at read
  · contradiction
  · next some =>
    cases read
    exact ⟨rfl, rfl, by simpa using some⟩

theorem digits_head {s found rest : Bytes} (read : digits s = some (found, rest)) :
    ∃ first others, s = first :: others ∧ isDigit first = true := by
  obtain ⟨taken, -, some⟩ := digits_eq_some read
  cases s with
  | nil => exact absurd taken some
  | cons first others =>
    refine ⟨first, others, rfl, Classical.byContradiction fun other => ?_⟩
    rw [List.takeWhile_cons_of_neg other] at taken
    exact some taken

theorem unsigned_head {negative : Bool} {s rest : Bytes} {numeral : Numeral}
    (read : unsigned negative s = some (numeral, rest)) : ∃ first others, s = first :: others ∧ isDigit first = true := by
  obtain ⟨lead, leads, -⟩ := Option.bind_eq_some_iff.1 read
  obtain ⟨found, behind, -⟩ := Option.bind_eq_some_iff.1 leads
  exact digits_head behind

/-- A numeral begins with its sign or with a digit. -/
theorem read_head {s rest : Bytes} {numeral : Numeral} (reads : read s = some (numeral, rest)) :
    ∃ first others, s = first :: others ∧ (first = 0x2D ∨ isDigit first = true) := by
  rw [read.eq_def] at reads
  split at reads
  · exact ⟨_, _, rfl, .inl rfl⟩
  · obtain ⟨first, others, shape, digit⟩ := unsigned_head reads
    exact ⟨first, others, shape, .inr digit⟩

end Numeral

/-! ### Values -/

/-- How the octets of a value, from the first that is visible, are read. -/
inductive ReadAs : Nat → Bytes → Json → Bytes → Prop where
  | null {room : Nat} {s rest : Bytes} (spelled : word "ull" s = some rest) : ReadAs room (0x6E :: s) .null rest
  | true {room : Nat} {s rest : Bytes} (spelled : word "rue" s = some rest) :
    ReadAs room (0x74 :: s) (.bool true) rest
  | false {room : Nat} {s rest : Bytes} (spelled : word "alse" s = some rest) :
    ReadAs room (0x66 :: s) (.bool false) rest
  | text {room : Nat} {s rest : Bytes} {t : String} (body : textBody s = some (t, rest)) :
    ReadAs room (0x22 :: s) (.text t) rest
  | array {room : Nat} {s rest : Bytes} {items : List Json}
    (body : itemsBody (readValue room) s = some (items, rest)) : ReadAs (room + 1) (0x5B :: s) (.array items) rest
  | object {room : Nat} {s rest : Bytes} {fields : Fields}
    (body : fieldsBody readText (insertField (readValue room)) [] s = some (fields, rest)) :
    ReadAs (room + 1) (0x7B :: s) (.object fields) rest
  | number {room : Nat} {s rest : Bytes} {numeral : Numeral} {value : Json}
    (read : Numeral.read s = some (numeral, rest)) (known : numeral.value? = some value) : ReadAs room s value rest

theorem skipBlank_skipBlank (s : Bytes) : skipBlank (skipBlank s) = skipBlank s :=
  List.dropWhile_idempotent ..

theorem readValue_skipBlank (room : Nat) (s : Bytes) : readValue room (skipBlank s) = readValue room s := by
  rw [readValue.eq_def, readValue.eq_def]
  dsimp only
  rw [skipBlank_skipBlank]

/-- A value is read exactly if what is visible is read as one of the kinds. -/
theorem readValue_iff {room : Nat} {s rest : Bytes} {value : Json} :
    readValue room s = some (value, rest) ↔ ReadAs room (skipBlank s) value rest := by
  constructor
  · intro read
    rw [readValue.eq_def] at read
    dsimp only at read
    split at read
    · next visible =>
      obtain ⟨after, spelled, ⟨⟩⟩ := Option.map_eq_some_iff.1 read
      exact visible ▸ .null spelled
    · next visible =>
      obtain ⟨after, spelled, ⟨⟩⟩ := Option.map_eq_some_iff.1 read
      exact visible ▸ .true spelled
    · next visible =>
      obtain ⟨after, spelled, ⟨⟩⟩ := Option.map_eq_some_iff.1 read
      exact visible ▸ .false spelled
    · next visible =>
      obtain ⟨after, body, ⟨⟩⟩ := Option.map_eq_some_iff.1 read
      exact visible ▸ .text body
    · next visible =>
      cases room with
      | zero => contradiction
      | succ room =>
        obtain ⟨after, body, ⟨⟩⟩ := Option.map_eq_some_iff.1 read
        exact visible ▸ .array body
    · next visible =>
      cases room with
      | zero => contradiction
      | succ room =>
        obtain ⟨after, body, ⟨⟩⟩ := Option.map_eq_some_iff.1 read
        exact visible ▸ .object body
    · obtain ⟨⟨numeral, after⟩, numbered, found⟩ := Option.bind_eq_some_iff.1 read
      obtain ⟨number, known, ⟨⟩⟩ := Option.bind_eq_some_iff.1 found
      exact .number numbered known
  · intro read
    rw [← readValue_skipBlank]
    generalize skipBlank s = visible at read
    cases read with
    | null spelled => exact (readValue.eq_def ..).trans (congrArg (Option.map _) spelled)
    | true spelled => exact (readValue.eq_def ..).trans (congrArg (Option.map _) spelled)
    | false spelled => exact (readValue.eq_def ..).trans (congrArg (Option.map _) spelled)
    | text body => exact (readValue.eq_def ..).trans (congrArg (Option.map _) body)
    | array body => exact (readValue.eq_def ..).trans (congrArg (Option.map _) body)
    | object body => exact (readValue.eq_def ..).trans (congrArg (Option.map _) body)
    | number numbered known =>
      obtain ⟨first, others, rfl, numeric⟩ := Numeral.read_head numbered
      exact readValue_numeral numeric numbered known room

/-- Every value has an octet. -/
theorem ReadAs.ne_nil {room : Nat} {s rest : Bytes} {value : Json} (read : ReadAs room s value rest) : s ≠ [] := by
  cases read with
  | null | true | false | text | array | object => exact List.cons_ne_nil _ _
  | number numbered _ =>
    obtain ⟨first, others, rfl, -⟩ := Numeral.read_head numbered
    exact List.cons_ne_nil _ _

end CommitLog.Json
