import CommitLog.Proofs.Json.Lists

/-!
JSON values without floating-point numbers are read back as they were written
(`readValue_render`), as long as they nest no deeper than the reader has room for.
-/

namespace CommitLog

namespace Json

mutual

/-- The value holds no floating-point number. -/
def FloatFree : Json → Prop
  | .real _ => False
  | .array items => FloatFreeItems items
  | .object fields => FloatFreeFields fields
  | _ => True

def FloatFreeItems : List Json → Prop
  | [] => True
  | item :: rest => item.FloatFree ∧ FloatFreeItems rest

def FloatFreeFields : List (String × Json) → Prop
  | [] => True
  | (_, value) :: rest => value.FloatFree ∧ FloatFreeFields rest

end

/-- What the reader needs to know of a value, with `room` arrays and objects left to open. -/
structure Readable (room : Nat) (value : Json) : Prop where
  canonical : value.Canonical
  floatFree : value.FloatFree
  fits : value.nesting ≤ room

/-- The same for the fields of an object. -/
structure ReadableFields (room : Nat) (fields : Fields) : Prop where
  ascending : fields.Ascending
  canonical : CanonicalFields fields
  floatFree : FloatFreeFields fields
  fits : nestingFields fields ≤ room

theorem renderItems_eq_map (items : List Json) : renderItems items = items.map render := by
  induction items with
  | nil => rfl
  | cons item rest ih => simp [renderItems, ih]

theorem Readable.of_mem_array {items : List Json} {room : Nat} (readable : (Json.array items).Readable (room + 1))
    {item : Json} (member : item ∈ items) : item.Readable room := by
  obtain ⟨canonical, floatFree, fits⟩ := readable
  simp only [Canonical, FloatFree, nesting, Nat.add_le_add_iff_right] at canonical floatFree fits
  induction items with
  | nil => contradiction
  | cons first rest ih =>
    simp only [nestingItems, CanonicalItems, FloatFreeItems] at canonical floatFree fits
    rcases List.mem_cons.1 member with rfl | later
    · exact ⟨canonical.1, floatFree.1, by omega⟩
    · exact ih later canonical.2 floatFree.2 (by omega)

theorem Readable.fields {fields : Fields} {room : Nat} (readable : (Json.object fields).Readable (room + 1)) :
    ReadableFields room fields := by
  obtain ⟨canonical, floatFree, fits⟩ := readable
  simp only [Canonical, FloatFree, nesting, Nat.add_le_add_iff_right] at canonical floatFree fits
  exact ⟨canonical.1, canonical.2, floatFree, fits⟩

theorem ReadableFields.of_mem {fields : Fields} {room : Nat} (readable : ReadableFields room fields)
    {entry : String × Json} (member : entry ∈ fields) : entry.2.Readable room := by
  obtain ⟨-, canonical, floatFree, fits⟩ := readable
  induction fields with
  | nil => contradiction
  | cons first rest ih =>
    simp only [nestingFields, CanonicalFields, FloatFreeFields] at canonical floatFree fits
    rcases List.mem_cons.1 member with rfl | later
    · exact ⟨canonical.1, floatFree.1, by omega⟩
    · exact ih later canonical.2 floatFree.2 (by omega)

/-! ### How a value begins -/

/-- A number starts with its sign or with a digit. -/
theorem opening_numeric {first : UInt8} (numeric : first = 0x2D ∨ isDigit first = true) (others : Bytes) :
    Opening (first :: others) := by
  rcases numeric with rfl | digit
  · exact ⟨by decide, by decide, by decide⟩
  have bounds : 0x30 ≤ first.toNat ∧ first.toNat ≤ 0x39 := by
    simpa [isDigit, UInt8.le_iff_toNat_le] using digit
  refine ⟨?_, ?_, ?_⟩
  · simp only [isBlank, Bool.or_eq_false_iff, decide_eq_false_iff_not]
    refine ⟨⟨⟨?_, ?_⟩, ?_⟩, ?_⟩ <;> rintro rfl <;> simp at bounds
  · rintro rfl; simp at bounds
  · rintro rfl; simp at bounds

theorem numeric_integer (n : Int) :
    ∃ first others, ascii (toString n) = first :: others ∧ (first = 0x2D ∨ isDigit first = true) := by
  rw [ascii_integer]
  split
  · exact ⟨_, _, rfl, .inl rfl⟩
  · obtain ⟨first, others, shape⟩ := List.exists_cons_of_ne_nil (digitOctets_ne_nil n.natAbs)
    exact ⟨first, others, shape, .inr (isDigit_of_mem (n := n.natAbs) (by simp [shape]))⟩

theorem opening_integer (n : Int) : Opening (ascii (toString n)) := by
  obtain ⟨first, others, shape, numeric⟩ := numeric_integer n
  rw [shape]
  exact opening_numeric numeric others

theorem FloatFree.ne_real {value : Json} (floatFree : value.FloatFree) (x : Binary64) : value ≠ .real x := by
  rintro rfl
  exact floatFree

theorem opening_render {value : Json} (other : ∀ x, value ≠ .real x) : Opening (render value) := by
  cases value with
  | null => exact ⟨by decide, by decide, by decide⟩
  | bool value => cases value <;> exact ⟨by decide, by decide, by decide⟩
  | whole n => exact opening_integer n.value
  | real x => exact absurd rfl (other x)
  | text s => exact ⟨by decide, by decide, by decide⟩
  | array items => exact ⟨by decide, by decide, by decide⟩
  | object fields => exact ⟨by decide, by decide, by decide⟩

/-! ### Objects -/

/-- A key beyond all others goes to the end. -/
theorem insert_eq_append {fields : Fields} {key : String} (last : ∀ entry ∈ fields, entry.1 < key) (value : Json) :
    fields.insert key value = fields ++ [(key, value)] := by
  induction fields with
  | nil => rfl
  | cons first rest ih =>
    obtain ⟨k, v⟩ := first
    have below : k < key := last (k, v) (by simp)
    have notAbove : ¬ key < k := fun above => Std.lt_irrefl (Std.lt_trans below above)
    have other : key ≠ k := by rintro rfl; exact Std.lt_irrefl below
    simp [Fields.insert, notAbove, other, ih fun entry member => last entry (by simp [member])]

theorem fieldsFrom_render {reader : Reader Json} {first : String × Json} {fields before : Fields}
    (back : ∀ entry ∈ first :: fields, ReadsBack reader (render entry.2) entry.2)
    (ascending : Fields.Ascending (before ++ first :: fields)) (clock rest : Bytes)
    (enough : fields.length < clock.length) :
    fieldsFrom readText (insertField reader) clock before (separated (renderFields (first :: fields)) ++ 0x7D :: rest) =
      some (before ++ first :: fields, rest) := by
  induction fields generalizing first before clock with
  | nil =>
    obtain ⟨tick, clock, rfl⟩ := List.exists_cons_of_length_pos (Nat.zero_lt_of_lt enough)
    have last : ∀ entry ∈ before, entry.1 < first.1 := fun entry member =>
      (List.pairwise_append.1 ascending).2.2 entry member first (by simp)
    have step : ReadsBack (insertField reader before first.1) (render first.2) (before ++ [first]) := by
      intro rest delimited
      simp [insertField, back first (by simp) rest delimited, insert_eq_append last]
    exact (fieldsFrom_field step tick clock rest).1
  | cons second others ih =>
    obtain ⟨tick, clock, rfl⟩ := List.exists_cons_of_length_pos (Nat.zero_lt_of_lt enough)
    have last : ∀ entry ∈ before, entry.1 < first.1 := fun entry member =>
      (List.pairwise_append.1 ascending).2.2 entry member first (by simp)
    have step : ReadsBack (insertField reader before first.1) (render first.2) (before ++ [first]) := by
      intro rest delimited
      simp [insertField, back first (by simp) rest delimited, insert_eq_append last]
    have later := @ih second (before ++ [first])
      (fun entry member => back entry (by simp [List.mem_cons.1 member])) (by simpa using ascending) clock
      (by simpa using enough)
    have here := (fieldsFrom_field step tick clock
      (separated (renderFields (second :: others)) ++ 0x7D :: rest)).2
    simp only [renderFields, separated, List.append_assoc, List.cons_append] at here later ⊢
    rw [here, later]
    simp

theorem length_renderFields (fields : Fields) : (renderFields fields).length = fields.length := by
  induction fields with
  | nil => rfl
  | cons first rest ih => simp [renderFields, ih]

theorem opening_renderFields {fields : Fields} {written : Bytes} (member : written ∈ renderFields fields) :
    Opening written := by
  induction fields with
  | nil => simp [renderFields] at member
  | cons first rest ih =>
    rcases List.mem_cons.1 member with rfl | later
    · exact opening_field _ _
    · exact ih later

/-- With at least one field, what follows the brace is read as long as there are fields. -/
theorem fieldsBody_cons {β : Type} (step : β → String → Reader β) (none : β) (first : String × Json) (fields : Fields)
    (rest : Bytes) :
    ∃ clock : Bytes, fields.length < clock.length ∧
      fieldsBody readText step none (separated (renderFields (first :: fields)) ++ 0x7D :: rest) =
        fieldsFrom readText step clock none (separated (renderFields (first :: fields)) ++ 0x7D :: rest) := by
  have long := length_le_separated (renderFields (first :: fields)) fun _ member => opening_renderFields member
  rw [length_renderFields] at long
  refine ⟨_, ?_, fieldsBody_opening step none ?_⟩
  · simp only [List.length_cons, List.length_append] at long ⊢
    omega
  · cases fields with
    | nil => exact (opening_field _ _).append _
    | cons second others =>
      simp only [renderFields, separated, List.append_assoc]
      exact (opening_field _ _).append _

/-- An object is read back if its values are. -/
theorem fieldsBody_render {reader : Reader Json} {fields : Fields}
    (back : ∀ entry ∈ fields, ReadsBack reader (render entry.2) entry.2) (ascending : fields.Ascending) (rest : Bytes) :
    fieldsBody readText (insertField reader) [] (separated (renderFields fields) ++ 0x7D :: rest) =
      some (fields, rest) := by
  cases fields with
  | nil => simp [fieldsBody, renderFields, separated, skipBlank_cons (show isBlank 0x7D = false by decide)]
  | cons first fields =>
    obtain ⟨clock, enough, read⟩ := fieldsBody_cons (insertField reader) [] first fields rest
    rw [read]
    exact fieldsFrom_render back ascending clock rest enough

/-! ### Values -/

/-- A number starts like nothing else. -/
theorem readValue_numeral {first : UInt8} {others rest : Bytes} (numeric : first = 0x2D ∨ isDigit first = true)
    {numeral : Numeral} (read : Numeral.read (first :: others) = some (numeral, rest)) {value : Json}
    (known : numeral.value? = some value) (room : Nat) : readValue room (first :: others) = some (value, rest) := by
  rw [readValue.eq_def]
  dsimp only
  rw [skipBlank_opening (opening_numeric numeric others)]
  split
  · next same => cases same; exact absurd numeric (by decide)
  · next same => cases same; exact absurd numeric (by decide)
  · next same => cases same; exact absurd numeric (by decide)
  · next same => cases same; exact absurd numeric (by decide)
  · next same => cases same; exact absurd numeric (by decide)
  · next same => cases same; exact absurd numeric (by decide)
  · simp [read, known]

theorem readValue_whole (n : Whole) (room : Nat) : ReadsBack (readValue room) (render (.whole n)) (.whole n) := by
  intro rest delimited
  have read := read_integer n.value delimited
  have value : (⟨decide (n.value < 0), digitOctets n.value.natAbs, none, none⟩ : Numeral).value? =
      some (.whole n) := by
    rw [Numeral.value?, whole?_integer]
  obtain ⟨first, others, shape, numeric⟩ := numeric_integer n.value
  rw [shape, List.cons_append] at read
  rw [render, shape, List.cons_append]
  exact readValue_numeral numeric read value room

private theorem word_of (expected : String) {octets : Bytes} (spelled : Utf8.ofString expected = octets)
    (long : expected.length = octets.length) (rest : Bytes) : word expected (octets ++ rest) = some rest := by
  have start : (Utf8.ofString expected).isPrefixOf (octets ++ rest) = true := by
    rw [spelled, List.isPrefixOf_iff_prefix]
    exact List.prefix_append octets rest
  rw [word, if_pos start, long, List.drop_left]

/-- A value is read back as it was written. -/
theorem readValue_render {value : Json} {room : Nat} (readable : value.Readable room) :
    ReadsBack (readValue room) (render value) value := by
  intro rest delimited
  match value, room, readable with
  | .null, room, _ =>
    have read := word_of "ull" (show _ = [0x75, 0x6C, 0x6C] by decide) rfl rest
    rw [readValue.eq_def]
    exact congrArg (Option.map fun s => (Json.null, s)) read
  | .bool true, room, _ =>
    have read := word_of "rue" (show _ = [0x72, 0x75, 0x65] by decide) rfl rest
    rw [readValue.eq_def]
    exact congrArg (Option.map fun s => (Json.bool true, s)) read
  | .bool false, room, _ =>
    have read := word_of "alse" (show _ = [0x61, 0x6C, 0x73, 0x65] by decide) rfl rest
    rw [readValue.eq_def]
    exact congrArg (Option.map fun s => (Json.bool false, s)) read
  | .whole n, room, _ => exact readValue_whole n room rest delimited
  | .real x, room, readable => exact readable.floatFree.elim
  | .text s, room, _ =>
    have read := textBody_quoted s rest
    rw [readValue.eq_def]
    simpa [render, quoted, skipBlank_cons (show isBlank 0x22 = false by decide)] using read
  | .array items, 0, readable => exact absurd readable.fits (by simp [nesting])
  | .array items, room + 1, readable =>
    have back : ∀ item ∈ items, ReadsBack (readValue room) (render item) item := fun item member =>
      readValue_render (readable.of_mem_array member)
    have opening : ∀ item ∈ items, Opening (render item) := fun item member =>
      opening_render (readable.of_mem_array member).floatFree.ne_real
    have read := itemsBody_written back opening rest
    rw [readValue.eq_def]
    simpa [render, bracketed, renderItems_eq_map, skipBlank_cons (show isBlank 0x5B = false by decide)] using read
  | .object fields, 0, readable => exact absurd readable.fits (by simp [nesting])
  | .object fields, room + 1, readable =>
    have back : ∀ entry ∈ fields, ReadsBack (readValue room) (render entry.2) entry.2 := fun entry member =>
      readValue_render (readable.fields.of_mem member)
    have read := fieldsBody_render back readable.fields.ascending rest
    rw [readValue.eq_def]
    simpa [render, braced, skipBlank_cons (show isBlank 0x7B = false by decide)] using read
termination_by value
decreasing_by
  · have := List.sizeOf_lt_of_mem member
    simp only [array.sizeOf_spec]
    omega
  · have := List.sizeOf_lt_of_mem member
    obtain ⟨key, value⟩ := entry
    simp only [object.sizeOf_spec, Prod.mk.sizeOf_spec] at this ⊢
    omega

end Json
end CommitLog
