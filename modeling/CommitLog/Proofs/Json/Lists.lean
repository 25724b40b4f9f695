import CommitLog.Proofs.Json.Numerals
import CommitLog.Proofs.Json.Strings

/-!
Arrays and objects that are written and read back, for any reader that reads back what stands
between the commas.
-/

namespace CommitLog.Json

/-- How a value may begin: not with a blank and not with a closing bracket. -/
def Opening : Bytes → Prop
  | [] => False
  | b :: _ => isBlank b = false ∧ b ≠ 0x5D ∧ b ≠ 0x7D

/-- A reader reads back a value from the octets `written`, wherever the value ends. -/
def ReadsBack {α : Type} (reader : Reader α) (written : Bytes) (value : α) : Prop :=
  ∀ rest, Delimited rest → reader (written ++ rest) = some (value, rest)

theorem Opening.append {written : Bytes} (opening : Opening written) (rest : Bytes) : Opening (written ++ rest) := by
  cases written with
  | nil => exact opening.elim
  | cons b written => exact opening

theorem skipBlank_cons {b : UInt8} {s : Bytes} (visible : isBlank b = false) : skipBlank (b :: s) = b :: s := by
  simp [skipBlank, visible]

theorem skipBlank_opening {s : Bytes} (opening : Opening s) : skipBlank s = s := by
  cases s with
  | nil => rfl
  | cons b s => exact skipBlank_cons opening.1

/-! ### Arrays -/

variable {α : Type}

theorem itemsFrom_written {item : Reader α} {write : α → Bytes} {x : α} {xs : List α}
    (back : ∀ y ∈ x :: xs, ReadsBack item (write y) y) (clock rest : Bytes) (enough : xs.length < clock.length) :
    itemsFrom item clock (separated ((x :: xs).map write) ++ 0x5D :: rest) = some (x :: xs, rest) := by
  induction xs generalizing x clock with
  | nil =>
    obtain ⟨tick, clock, rfl⟩ := List.exists_cons_of_length_pos (Nat.zero_lt_of_lt enough)
    have read := back x (by simp) (0x5D :: rest) (.inr (.inl rfl))
    simp [itemsFrom, separated, read, skipBlank_cons (show isBlank 0x5D = false by decide)]
  | cons y ys ih =>
    obtain ⟨tick, clock, rfl⟩ := List.exists_cons_of_length_pos (Nat.zero_lt_of_lt enough)
    have others := ih (x := y) (fun z member => back z (by simp [List.mem_cons.1 member])) clock
      (by simpa using enough)
    have read := back x (by simp) (0x2C :: (separated ((y :: ys).map write) ++ 0x5D :: rest)) (.inl rfl)
    simp only [List.map_cons, separated, List.append_assoc, List.cons_append] at read others ⊢
    simp [itemsFrom, read, skipBlank_cons (show isBlank 0x2C = false by decide), others]

theorem length_le_separated (written : List Bytes) (opening : ∀ w ∈ written, Opening w) :
    written.length ≤ (separated written).length := by
  induction written with
  | nil => simp
  | cons w ws ih =>
    have first : w ≠ [] := by rintro rfl; exact opening [] (by simp)
    have := List.length_pos_iff.2 first
    cases ws with
    | nil => simp [separated]; omega
    | cons v vs =>
      have := ih fun u member => opening u (by simp [List.mem_cons.1 member])
      simp only [separated, List.length_append, List.length_cons] at this ⊢
      omega

private theorem itemsBody_opening (item : Reader α) {s : Bytes} (opening : Opening s) :
    itemsBody item s = itemsFrom item s s := by
  rw [itemsBody, skipBlank_opening opening]
  split
  · exact absurd rfl opening.2.1
  · rfl

/-- With at least one item, what follows the bracket is read as long as there are items. -/
theorem itemsBody_cons {γ : Type} (item : Reader α) {write : γ → Bytes} {x : γ} {xs : List γ}
    (opening : ∀ y ∈ x :: xs, Opening (write y)) (rest : Bytes) :
    ∃ clock : Bytes, xs.length < clock.length ∧
      itemsBody item (separated ((x :: xs).map write) ++ 0x5D :: rest) =
        itemsFrom item clock (separated ((x :: xs).map write) ++ 0x5D :: rest) := by
  have long := length_le_separated ((x :: xs).map write) (by simpa using opening)
  refine ⟨_, ?_, itemsBody_opening item ?_⟩
  · simp only [List.length_map, List.length_cons, List.length_append] at long ⊢
    omega
  · have first := opening x (by simp)
    cases xs with
    | nil => exact first.append _
    | cons y ys =>
      simp only [List.map_cons, separated, List.append_assoc]
      exact first.append _

/-- An array of items that are read back is read back. -/
theorem itemsBody_written {item : Reader α} {write : α → Bytes} {xs : List α}
    (back : ∀ x ∈ xs, ReadsBack item (write x) x) (opening : ∀ x ∈ xs, Opening (write x)) (rest : Bytes) :
    itemsBody item (separated (xs.map write) ++ 0x5D :: rest) = some (xs, rest) := by
  cases xs with
  | nil => simp [itemsBody, separated, skipBlank_cons (show isBlank 0x5D = false by decide)]
  | cons x xs =>
    obtain ⟨clock, enough, read⟩ := itemsBody_cons item opening rest
    rw [read]
    exact itemsFrom_written back clock rest enough

theorem readArray_written {item : Reader α} {write : α → Bytes} {xs : List α}
    (back : ∀ x ∈ xs, ReadsBack item (write x) x) (opening : ∀ x ∈ xs, Opening (write x)) (rest : Bytes) :
    readArray item (bracketed (xs.map write) ++ rest) = some (xs, rest) := by
  have body := itemsBody_written back opening rest
  simpa [readArray, bracketed, skipBlank_cons (show isBlank 0x5B = false by decide)] using body

/-! ### Objects -/

variable {β : Type}

theorem readKey_field (key : String) (written rest : Bytes) :
    readKey readText (field key written ++ rest) = some (key, written ++ rest) := by
  have text := readText_quoted key (0x3A :: (written ++ rest))
  simp [readKey, field, text, skipBlank_cons (show isBlank 0x3A = false by decide)]

/-- One field is read by one step, whatever comes between it and the end of the object. -/
theorem fieldsFrom_field {step : β → String → Reader β} {seen after : β} {key : String} {written : Bytes}
    (back : ReadsBack (step seen key) written after) (tick : UInt8) (clock rest : Bytes) :
    fieldsFrom readText step (tick :: clock) seen (field key written ++ 0x7D :: rest) = some (after, rest) ∧
      fieldsFrom readText step (tick :: clock) seen (field key written ++ 0x2C :: rest) =
        fieldsFrom readText step clock after rest := by
  constructor
  · have read := back (0x7D :: rest) (.inr (.inr rfl))
    simp [fieldsFrom, readKey_field, read, skipBlank_cons (show isBlank 0x7D = false by decide)]
  · have read := back (0x2C :: rest) (.inl rfl)
    simp [fieldsFrom, readKey_field, read, skipBlank_cons (show isBlank 0x2C = false by decide)]

theorem fieldsBody_opening (step : β → String → Reader β) (none : β) {s : Bytes} (opening : Opening s) :
    fieldsBody readText step none s = fieldsFrom readText step s none s := by
  rw [fieldsBody, skipBlank_opening opening]
  split
  · exact absurd rfl opening.2.2
  · rfl

theorem opening_field (key : String) (written : Bytes) : Opening (field key written) :=
  ⟨rfl, by decide, by decide⟩

end CommitLog.Json
