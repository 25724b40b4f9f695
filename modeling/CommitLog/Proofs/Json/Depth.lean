import CommitLog.Proofs.Json.Reals

/-!
How deep a value nests decides whether it is read. Any value that has been written is taken by a reader that has
room for it and refused by one that has not (`readValue_takes`); so is whatever is made of values, since a list or
an object is refused with the first of its items that is (`itemsBody_takes`, `fieldsBody_takes`).
-/

namespace CommitLog.Json

/-- A reader takes what is written, wherever it ends, if it fits, and refuses it if not. -/
def Takes {α : Type} (reader : Reader α) (written : Bytes) (fits : Prop) : Prop :=
  ∀ rest, Delimited rest →
    (fits ∧ ∃ value, reader (written ++ rest) = some (value, rest)) ∨ (¬ fits ∧ reader (written ++ rest) = none)

theorem opening_value (value : Json) : Opening (render value) := by
  by_cases real : ∃ x, value = .real x
  · obtain ⟨x, rfl⟩ := real
    obtain ⟨first, others, shape, numeric⟩ := numeric_real x
    rw [shape]
    exact opening_numeric numeric others
  · exact opening_render fun x same => real ⟨x, same⟩

variable {α : Type}

theorem ReadsBack.takes {reader : Reader α} {written : Bytes} {value : α} (back : ReadsBack reader written value)
    {fits : Prop} (always : fits) : Takes reader written fits :=
  fun rest delimited => .inl ⟨always, value, back rest delimited⟩

/-- What a reader takes it takes in any form that the value is then given. -/
theorem Takes.map {β : Type} {reader : Reader α} {written : Bytes} {fits : Prop} (takes : Takes reader written fits)
    (form : α → β) : Takes (fun s => (reader s).map fun (value, s) => (form value, s)) written fits := by
  intro rest delimited
  dsimp only
  rcases takes rest delimited with ⟨fit, value, read⟩ | ⟨unfit, read⟩
  · exact .inl ⟨fit, form value, by rw [read, Option.map_some]⟩
  · exact .inr ⟨unfit, by rw [read, Option.map_none]⟩

/-! ### Arrays -/

section

variable {γ : Type} {item : Reader α} {write : γ → Bytes} {fits : γ → Prop}

theorem itemsFrom_takes {x : γ} {xs : List γ} (each : ∀ y ∈ x :: xs, Takes item (write y) (fits y)) (clock rest : Bytes)
    (enough : xs.length < clock.length) :
    ((∀ y ∈ x :: xs, fits y) ∧
        ∃ values, itemsFrom item clock (separated ((x :: xs).map write) ++ 0x5D :: rest) = some (values, rest)) ∨
      (¬ (∀ y ∈ x :: xs, fits y) ∧ itemsFrom item clock (separated ((x :: xs).map write) ++ 0x5D :: rest) = none) := by
  induction xs generalizing x clock with
  | nil =>
    obtain ⟨tick, clock, rfl⟩ := List.exists_cons_of_length_pos (Nat.zero_lt_of_lt enough)
    rcases each x (by simp) (0x5D :: rest) (.inr (.inl rfl)) with ⟨fit, value, read⟩ | ⟨unfit, read⟩
    · refine .inl ⟨by simpa using fit, [value], ?_⟩
      simp [itemsFrom, separated, read, skipBlank_cons (show isBlank 0x5D = false by decide)]
    · refine .inr ⟨by simpa using unfit, ?_⟩
      simp [itemsFrom, separated, read]
  | cons y ys ih =>
    obtain ⟨tick, clock, rfl⟩ := List.exists_cons_of_length_pos (Nat.zero_lt_of_lt enough)
    have others := ih (x := y) (fun z member => each z (by simp [List.mem_cons.1 member])) clock (by simpa using enough)
    have first := each x (by simp) (0x2C :: (separated ((y :: ys).map write) ++ 0x5D :: rest)) (.inl rfl)
    simp only [List.map_cons, separated, List.append_assoc, List.cons_append] at first others ⊢
    rcases first with ⟨fit, value, read⟩ | ⟨unfit, read⟩
    · rcases others with ⟨fitting, values, reads⟩ | ⟨unfitting, reads⟩
      · refine .inl ⟨fun z member => ?_, value :: values, ?_⟩
        · rcases List.mem_cons.1 member with rfl | later
          · exact fit
          · exact fitting z later
        · simp [itemsFrom, read, skipBlank_cons (show isBlank 0x2C = false by decide), reads]
      · refine .inr ⟨fun all => unfitting fun z member => all z (List.mem_cons_of_mem _ member), ?_⟩
        simp [itemsFrom, read, skipBlank_cons (show isBlank 0x2C = false by decide), reads]
    · refine .inr ⟨fun all => unfit (all x List.mem_cons_self), ?_⟩
      simp [itemsFrom, read]

/-- An array is taken if all its items are. -/
theorem itemsBody_takes {xs : List γ} (each : ∀ x ∈ xs, Takes item (write x) (fits x))
    (opening : ∀ x ∈ xs, Opening (write x)) :
    Takes (itemsBody item) (separated (xs.map write) ++ [0x5D]) (∀ x ∈ xs, fits x) := by
  intro rest delimited
  rw [List.append_assoc]
  cases xs with
  | nil =>
    refine .inl ⟨by simp, [], ?_⟩
    simp [itemsBody, separated, skipBlank_cons (show isBlank 0x5D = false by decide)]
  | cons x xs =>
    obtain ⟨clock, enough, read⟩ := itemsBody_cons item opening rest
    show (_ ∧ ∃ values, itemsBody item (_ ++ 0x5D :: rest) = _) ∨ (_ ∧ itemsBody item (_ ++ 0x5D :: rest) = _)
    rw [read]
    exact itemsFrom_takes each clock rest enough

end

/-! ### Objects -/

section

variable {β : Type} {step : β → String → Reader β} {seen : β} {key : String} {written : Bytes} {fits : Prop}

/-- The last field is taken if its value is. -/
theorem fieldsFrom_last (takes : Takes (step seen key) written fits) (tick : UInt8) (clock rest : Bytes) :
    (fits ∧ ∃ after, fieldsFrom readText step (tick :: clock) seen (field key written ++ 0x7D :: rest) =
        some (after, rest)) ∨
      (¬ fits ∧ fieldsFrom readText step (tick :: clock) seen (field key written ++ 0x7D :: rest) = none) := by
  rcases takes (0x7D :: rest) (.inr (.inr rfl)) with ⟨fit, after, read⟩ | ⟨unfit, read⟩
  · refine .inl ⟨fit, after, ?_⟩
    simp [fieldsFrom, readKey_field, read, skipBlank_cons (show isBlank 0x7D = false by decide)]
  · exact .inr ⟨unfit, by simp [fieldsFrom, readKey_field, read]⟩

/-- A field before others is taken if its value is, and they are read next. -/
theorem fieldsFrom_more (takes : Takes (step seen key) written fits) (tick : UInt8) (clock rest : Bytes) :
    (fits ∧ ∃ after, fieldsFrom readText step (tick :: clock) seen (field key written ++ 0x2C :: rest) =
        fieldsFrom readText step clock after rest) ∨
      (¬ fits ∧ fieldsFrom readText step (tick :: clock) seen (field key written ++ 0x2C :: rest) = none) := by
  rcases takes (0x2C :: rest) (.inl rfl) with ⟨fit, after, read⟩ | ⟨unfit, read⟩
  · refine .inl ⟨fit, after, ?_⟩
    simp [fieldsFrom, readKey_field, read, skipBlank_cons (show isBlank 0x2C = false by decide)]
  · exact .inr ⟨unfit, by simp [fieldsFrom, readKey_field, read]⟩

end

section

variable {reader : Reader Json} {fits : Json → Prop}

theorem insertField_takes {written : Bytes} {fits : Prop} (takes : Takes reader written fits) (seen : Fields)
    (key : String) : Takes (insertField reader seen key) written fits :=
  takes.map fun value => seen.insert key value

theorem fieldsFrom_takes {first : String × Json} {fields : Fields}
    (each : ∀ entry ∈ first :: fields, Takes reader (render entry.2) (fits entry.2)) (clock : Bytes) (seen : Fields)
    (rest : Bytes) (enough : fields.length < clock.length) :
    ((∀ entry ∈ first :: fields, fits entry.2) ∧
        ∃ values, fieldsFrom readText (insertField reader) clock seen
          (separated (renderFields (first :: fields)) ++ 0x7D :: rest) = some (values, rest)) ∨
      (¬ (∀ entry ∈ first :: fields, fits entry.2) ∧
        fieldsFrom readText (insertField reader) clock seen
          (separated (renderFields (first :: fields)) ++ 0x7D :: rest) = none) := by
  have here := insertField_takes (each first List.mem_cons_self)
  induction fields generalizing first clock seen with
  | nil =>
    obtain ⟨tick, clock, rfl⟩ := List.exists_cons_of_length_pos (Nat.zero_lt_of_lt enough)
    rcases fieldsFrom_last (here seen first.1) tick clock rest with ⟨fit, read⟩ | ⟨unfit, read⟩
    · exact .inl ⟨by simpa using fit, read⟩
    · exact .inr ⟨by simpa using unfit, read⟩
  | cons second others ih =>
    obtain ⟨tick, clock, rfl⟩ := List.exists_cons_of_length_pos (Nat.zero_lt_of_lt enough)
    have rest_ : ∀ entry ∈ second :: others, Takes reader (render entry.2) (fits entry.2) := fun entry member =>
      each entry (List.mem_cons_of_mem _ member)
    have more := fieldsFrom_more (here seen first.1) tick clock (separated (renderFields (second :: others)) ++ 0x7D :: rest)
    simp only [renderFields, separated, List.append_assoc, List.cons_append] at more ⊢
    rcases more with ⟨fit, after, read⟩ | ⟨unfit, read⟩
    · rw [read]
      rcases ih rest_ clock after (by simpa using enough) (insertField_takes (rest_ second List.mem_cons_self)) with
        ⟨fitting, reads⟩ | ⟨unfitting, reads⟩
      · refine .inl ⟨fun entry member => ?_, reads⟩
        rcases List.mem_cons.1 member with rfl | later
        · exact fit
        · exact fitting entry later
      · exact .inr ⟨fun all => unfitting fun entry member => all entry (List.mem_cons_of_mem _ member), reads⟩
    · exact .inr ⟨fun all => unfit (all first List.mem_cons_self), read⟩

/-- An object is taken if all its values are. -/
theorem fieldsBody_takes {fields : Fields} (each : ∀ entry ∈ fields, Takes reader (render entry.2) (fits entry.2)) :
    Takes (fieldsBody readText (insertField reader) []) (separated (renderFields fields) ++ [0x7D])
      (∀ entry ∈ fields, fits entry.2) := by
  intro rest delimited
  rw [List.append_assoc]
  cases fields with
  | nil =>
    refine .inl ⟨by simp, [], ?_⟩
    simp [fieldsBody, renderFields, separated, skipBlank_cons (show isBlank 0x7D = false by decide)]
  | cons first fields =>
    obtain ⟨clock, enough, read⟩ := fieldsBody_cons (insertField reader) [] first fields rest
    show (_ ∧ ∃ values, fieldsBody readText (insertField reader) [] (_ ++ 0x7D :: rest) = _) ∨
      (_ ∧ fieldsBody readText (insertField reader) [] (_ ++ 0x7D :: rest) = _)
    rw [read]
    exact fieldsFrom_takes each clock [] rest enough

end

/-! ### Values -/

theorem nestingItems_le {items : List Json} {room : Nat} :
    nestingItems items ≤ room ↔ ∀ item ∈ items, item.nesting ≤ room := by
  induction items with
  | nil => simp [nestingItems]
  | cons first rest ih => rw [nestingItems, Nat.max_le, ih, List.forall_mem_cons]

theorem nestingFields_le {fields : Fields} {room : Nat} :
    nestingFields fields ≤ room ↔ ∀ entry ∈ fields, entry.2.nesting ≤ room := by
  induction fields with
  | nil => simp [nestingFields]
  | cons first rest ih =>
    obtain ⟨key, value⟩ := first
    rw [nestingFields, Nat.max_le, ih, List.forall_mem_cons]

/-- A value is read if it nests no deeper than there is room, and refused if it does. -/
theorem readValue_takes (value : Json) (room : Nat) : Takes (readValue room) (render value) (value.nesting ≤ room) := by
  intro rest delimited
  have flat : ∀ value : Json, value.Readable 0 → Takes (readValue room) (render value) (value.nesting ≤ room) :=
    fun value readable =>
      have fits := Nat.le_trans readable.fits (Nat.zero_le room)
      (readValue_render ⟨readable.canonical, readable.floatFree, fits⟩).takes fits
  match value, room with
  | .null, room => exact flat .null ⟨trivial, trivial, Nat.le_refl 0⟩ rest delimited
  | .bool value, room => exact flat (.bool value) ⟨trivial, trivial, Nat.le_refl 0⟩ rest delimited
  | .whole n, room => exact flat (.whole n) ⟨trivial, trivial, Nat.le_refl 0⟩ rest delimited
  | .text s, room => exact flat (.text s) ⟨trivial, trivial, Nat.le_refl 0⟩ rest delimited
  | .real x, room =>
    obtain ⟨z, read⟩ := readValue_real x room delimited
    exact .inl ⟨Nat.zero_le room, .real z, read⟩
  | .array items, 0 =>
    refine .inr ⟨by simp [nesting], ?_⟩
    rw [readValue.eq_def]
    simp [render, bracketed, skipBlank_cons (show isBlank 0x5B = false by decide)]
  | .array items, room + 1 =>
    have each : ∀ item ∈ items, Takes (readValue room) (render item) (item.nesting ≤ room) := fun item member =>
      readValue_takes item room
    have body := (itemsBody_takes each fun item _ => opening_value item).map Json.array rest delimited
    rw [nesting, Nat.add_le_add_iff_right, nestingItems_le, readValue.eq_def]
    simpa [render, bracketed, renderItems_eq_map, skipBlank_cons (show isBlank 0x5B = false by decide)] using body
  | .object fields, 0 =>
    refine .inr ⟨by simp [nesting], ?_⟩
    rw [readValue.eq_def]
    simp [render, braced, skipBlank_cons (show isBlank 0x7B = false by decide)]
  | .object fields, room + 1 =>
    have each : ∀ entry ∈ fields, Takes (readValue room) (render entry.2) (entry.2.nesting ≤ room) := fun entry member =>
      readValue_takes entry.2 room
    have body := (@fieldsBody_takes _ (fun value => value.nesting ≤ room) fields each).map Json.object rest delimited
    rw [nesting, Nat.add_le_add_iff_right, nestingFields_le, readValue.eq_def]
    simpa [render, braced, skipBlank_cons (show isBlank 0x7B = false by decide)] using body
termination_by value
decreasing_by
  · have := List.sizeOf_lt_of_mem member
    simp only [array.sizeOf_spec]
    omega
  · have := List.sizeOf_lt_of_mem member
    obtain ⟨key, value⟩ := entry
    simp only [object.sizeOf_spec, Prod.mk.sizeOf_spec] at this ⊢
    omega

end CommitLog.Json
