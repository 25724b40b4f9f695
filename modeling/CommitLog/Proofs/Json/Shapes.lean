import CommitLog.Proofs.Json.Depth
import CommitLog.Proofs.Json.Fields
import CommitLog.Proofs.Json.Grammar

/-!
What a reader gives, in whatever spelling it was written: objects have their keys in ascending order, each key once,
and the value nests no deeper than there was room (`readValue_shaped`). So it can be written and read again.
-/

namespace CommitLog.Json

variable {α β : Type}

/-! ### Arrays and objects -/

theorem itemsFrom_all {item : Reader α} {good : α → Prop}
    (each : ∀ s x rest, item s = some (x, rest) → good x) {clock s rest : Bytes} {items : List α}
    (read : itemsFrom item clock s = some (items, rest)) : ∀ x ∈ items, good x := by
  induction clock generalizing s items with
  | nil => contradiction
  | cons tick clock ih =>
    obtain ⟨⟨first, after⟩, found, read⟩ := Option.bind_eq_some_iff.1 read
    have here := each _ _ _ found
    dsimp only at read
    split at read
    · cases read
      simpa using here
    · obtain ⟨⟨others, last⟩, later, ⟨⟩⟩ := Option.bind_eq_some_iff.1 read
      intro x member
      rcases List.mem_cons.1 member with rfl | among
      · exact here
      · exact ih later x among
    · contradiction

/-- What is true of whatever a reader gives is true of all items of an array. -/
theorem itemsBody_all {item : Reader α} {good : α → Prop}
    (each : ∀ s x rest, item s = some (x, rest) → good x) {s rest : Bytes} {items : List α}
    (read : itemsBody item s = some (items, rest)) : ∀ x ∈ items, good x := by
  unfold itemsBody at read
  split at read
  · cases read
    simp
  · exact itemsFrom_all each read

theorem readArray_all {item : Reader α} {good : α → Prop}
    (each : ∀ s x rest, item s = some (x, rest) → good x) {s rest : Bytes} {items : List α}
    (read : readArray item s = some (items, rest)) : ∀ x ∈ items, good x := by
  unfold readArray at read
  split at read
  · exact itemsBody_all each read
  · contradiction

theorem fieldsFrom_keeps {text : Reader String} {step : β → String → Reader β} {good : β → Prop}
    (each : ∀ seen key s after rest, good seen → step seen key s = some (after, rest) → good after)
    {clock s rest : Bytes} {seen last : β} (start : good seen)
    (read : fieldsFrom text step clock seen s = some (last, rest)) : good last := by
  induction clock generalizing s seen with
  | nil => contradiction
  | cons tick clock ih =>
    obtain ⟨⟨key, colon⟩, named, read⟩ := Option.bind_eq_some_iff.1 read
    obtain ⟨⟨next, after⟩, stepped, read⟩ := Option.bind_eq_some_iff.1 read
    have onward := each _ _ _ _ _ start stepped
    dsimp only at read
    split at read
    · cases read
      exact onward
    · exact ih onward read
    · contradiction

/-- What each field of an object keeps is true of the whole. -/
theorem fieldsBody_keeps {text : Reader String} {step : β → String → Reader β} {good : β → Prop}
    (each : ∀ seen key s after rest, good seen → step seen key s = some (after, rest) → good after)
    {s rest : Bytes} {start last : β} (first : good start)
    (read : fieldsBody text step start s = some (last, rest)) : good last := by
  unfold fieldsBody at read
  split at read
  · cases read
    exact first
  · exact fieldsFrom_keeps each first read

/-! ### Values -/

theorem canonicalItems_iff {items : List Json} : CanonicalItems items ↔ ∀ item ∈ items, item.Canonical := by
  induction items with
  | nil => simp [CanonicalItems]
  | cons item rest ih => rw [CanonicalItems, ih, List.forall_mem_cons]

theorem canonicalFields_iff {fields : Fields} : CanonicalFields fields ↔ ∀ entry ∈ fields, entry.2.Canonical := by
  induction fields with
  | nil => simp [CanonicalFields]
  | cons entry rest ih =>
    obtain ⟨key, value⟩ := entry
    rw [CanonicalFields, ih, List.forall_mem_cons]

theorem floatFreeItems_iff {items : List Json} : FloatFreeItems items ↔ ∀ item ∈ items, item.FloatFree := by
  induction items with
  | nil => simp [FloatFreeItems]
  | cons item rest ih => rw [FloatFreeItems, ih, List.forall_mem_cons]

/-- An array can be read back if its items can. -/
theorem Readable.array {room : Nat} {items : List Json} (readable : ∀ item ∈ items, item.Readable room) :
    (Json.array items).Readable (room + 1) where
  canonical := canonicalItems_iff.2 fun item member => (readable item member).canonical
  floatFree := floatFreeItems_iff.2 fun item member => (readable item member).floatFree
  fits := Nat.succ_le_succ (nestingItems_le.2 fun item member => (readable item member).fits)

/-- A value as a reader with so much room gives it. -/
structure Shaped (room : Nat) (value : Json) : Prop where
  canonical : value.Canonical
  fits : value.nesting ≤ room

/-- The same for the fields of an object. -/
structure ShapedFields (room : Nat) (fields : Fields) : Prop where
  ascending : fields.Ascending
  values : ∀ entry ∈ fields, Shaped room entry.2

theorem ShapedFields.nil (room : Nat) : ShapedFields room [] where
  ascending := .nil
  values := by simp

theorem ShapedFields.object {room : Nat} {fields : Fields} (shaped : ShapedFields room fields) :
    Shaped (room + 1) (.object fields) where
  canonical := ⟨shaped.ascending, canonicalFields_iff.2 fun entry member => (shaped.values entry member).canonical⟩
  fits := Nat.succ_le_succ (nestingFields_le.2 fun entry member => (shaped.values entry member).fits)

theorem Shaped.array {room : Nat} {items : List Json} (shaped : ∀ item ∈ items, Shaped room item) :
    Shaped (room + 1) (.array items) where
  canonical := canonicalItems_iff.2 fun item member => (shaped item member).canonical
  fits := Nat.succ_le_succ (nestingItems_le.2 fun item member => (shaped item member).fits)

theorem insertField_shaped {room : Nat} {reader : Reader Json}
    (each : ∀ s value rest, reader s = some (value, rest) → Shaped room value) (seen : Fields) (key : String)
    (s : Bytes) (after : Fields) (rest : Bytes) (shaped : ShapedFields room seen)
    (read : insertField reader seen key s = some (after, rest)) : ShapedFields room after := by
  obtain ⟨⟨value, last⟩, found, ⟨⟩⟩ := Option.map_eq_some_iff.1 read
  refine ⟨shaped.ascending.insert key value, fun entry member => ?_⟩
  rcases Fields.eq_or_mem_of_mem_insert member with rfl | known
  · exact each _ _ _ found
  · exact shaped.values entry known

/-- A number nests nothing. -/
theorem Numeral.value?_shaped {numeral : Numeral} {value : Json} (known : numeral.value? = some value) (room : Nat) :
    Shaped room value := by
  unfold value? at known
  split at known
  · cases known
    exact ⟨trivial, Nat.zero_le room⟩
  · obtain ⟨x, -, rfl⟩ := Option.map_eq_some_iff.1 known
    exact ⟨trivial, Nat.zero_le room⟩

/-- What is read of a value is canonical and nests no deeper than there was room. -/
theorem readValue_shaped {room : Nat} {s rest : Bytes} {value : Json} (read : readValue room s = some (value, rest)) :
    Shaped room value := by
  induction room using Nat.strongRecOn generalizing s rest value with
  | ind room ih =>
    have structured := readValue_iff.1 read
    generalize skipBlank s = octets at structured
    cases structured with
    | null | true | false | text => exact ⟨trivial, Nat.zero_le room⟩
    | array body => exact .array (itemsBody_all (fun _ _ _ item => ih _ (Nat.lt_succ_self _) item) body)
    | @object less _ _ _ body =>
      have each : ∀ s value rest, readValue less s = some (value, rest) → Shaped less value := fun _ _ _ inner =>
        ih less (Nat.lt_succ_self less) inner
      exact (fieldsBody_keeps (insertField_shaped each) (.nil less) body).object
    | number _ known => exact Numeral.value?_shaped known room

end CommitLog.Json
