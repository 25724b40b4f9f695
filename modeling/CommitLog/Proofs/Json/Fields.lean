import CommitLog.Json.Value
import Mathlib.Data.String.Basic

/-!
Fields, by what is found under each key. Of the values that are set for a key the last one is found
(`find?_merge`), and ascending fields are told apart by what is found in them (`Ascending.ext`). So it makes no
difference if what was set last is set once more (`merge_again`).
-/

namespace CommitLog.Fields

variable {fields newer : Fields} {key other : String} {value : Json}

@[simp] theorem find?_nil (key : String) : find? [] key = none := rfl

theorem find?_cons (field : String × Json) (rest : Fields) (key : String) :
    find? (field :: rest) key = if field.1 = key then some field.2 else find? rest key := by
  by_cases same : field.1 = key
  · simp [find?, same]
  · simp [find?, same]

theorem find?_append (first second : Fields) (key : String) :
    find? (first ++ second) key = (find? first key).or (find? second key) := by
  induction first with
  | nil => simp
  | cons field rest ih =>
    rw [List.cons_append, find?_cons, find?_cons, ih]
    split <;> simp

/-! ### Setting -/

theorem find?_insert_self (key : String) (value : Json) (fields : Fields) :
    (fields.insert key value).find? key = some value := by
  induction fields with
  | nil => simp [insert, find?_cons]
  | cons field rest ih =>
    obtain ⟨name, stored⟩ := field
    rw [insert]
    split
    · simp [find?_cons]
    split
    · simp [find?_cons]
    next different =>
      rw [find?_cons, if_neg (Ne.symm different), ih]

theorem find?_insert_other (different : other ≠ key) (value : Json) (fields : Fields) :
    (fields.insert key value).find? other = fields.find? other := by
  have elsewhere : ¬ key = other := Ne.symm different
  induction fields with
  | nil => simp [insert, find?_cons, elsewhere]
  | cons field rest ih =>
    obtain ⟨name, stored⟩ := field
    rw [insert]
    split
    · simp [find?_cons, elsewhere]
    split
    · next same =>
      subst same
      simp [find?_cons, elsewhere]
    · rw [find?_cons, find?_cons, ih]

theorem find?_insert (key other : String) (value : Json) (fields : Fields) :
    (fields.insert key value).find? other = if key = other then some value else fields.find? other := by
  by_cases same : key = other
  · subst same
    rw [if_pos rfl, find?_insert_self]
  · rw [if_neg same, find?_insert_other (Ne.symm same)]

/-- The last of the values that are set for a key is found, or else what was there. -/
theorem find?_merge (fields newer : Fields) (key : String) :
    (fields.merge newer).find? key = (find? newer.reverse key).or (fields.find? key) := by
  induction newer generalizing fields with
  | nil => rfl
  | cons field rest ih =>
    have step : fields.merge (field :: rest) = (fields.insert field.1 field.2).merge rest := rfl
    rw [step, ih, find?_insert, List.reverse_cons, find?_append, find?_cons, find?_nil, Option.or_assoc]
    split <;> simp

theorem merge_append (fields first second : Fields) :
    fields.merge (first ++ second) = (fields.merge first).merge second :=
  List.foldl_append

/-! ### Ascending fields -/

/-- Setting a value adds no key but its own. -/
theorem mem_insert {field : String × Json} (member : field ∈ fields.insert key value) :
    field.1 = key ∨ ∃ known ∈ fields, known.1 = field.1 := by
  induction fields with
  | nil => exact .inl (by simp [List.mem_singleton.1 member])
  | cons first rest ih =>
    obtain ⟨name, stored⟩ := first
    rw [insert] at member
    split at member
    · rcases List.mem_cons.1 member with rfl | later
      · exact .inl rfl
      · exact .inr ⟨field, later, rfl⟩
    split at member
    · rcases List.mem_cons.1 member with rfl | later
      · exact .inl rfl
      · exact .inr ⟨field, List.mem_cons_of_mem _ later, rfl⟩
    · rcases List.mem_cons.1 member with rfl | later
      · exact .inr ⟨_, List.mem_cons_self, rfl⟩
      · rcases ih later with here | ⟨known, inRest, same⟩
        · exact .inl here
        · exact .inr ⟨known, List.mem_cons_of_mem _ inRest, same⟩

/-- Setting a value adds nothing but the value under its key. -/
theorem eq_or_mem_of_mem_insert {field : String × Json} (member : field ∈ fields.insert key value) :
    field = (key, value) ∨ field ∈ fields := by
  induction fields with
  | nil => exact .inl (List.mem_singleton.1 member)
  | cons first rest ih =>
    obtain ⟨name, stored⟩ := first
    rw [insert] at member
    split at member
    · exact List.mem_cons.1 member
    split at member
    · rcases List.mem_cons.1 member with rfl | later
      · exact .inl rfl
      · exact .inr (List.mem_cons_of_mem _ later)
    · rcases List.mem_cons.1 member with rfl | later
      · exact .inr List.mem_cons_self
      · exact (ih later).imp_right (List.mem_cons_of_mem _)

theorem Ascending.insert (ascending : fields.Ascending) (key : String) (value : Json) :
    (fields.insert key value).Ascending := by
  induction fields with
  | nil => simp [Fields.insert, Ascending]
  | cons first rest ih =>
    obtain ⟨name, stored⟩ := first
    obtain ⟨above, others⟩ := List.pairwise_cons.1 ascending
    rw [Fields.insert]
    split
    · next less =>
      refine List.pairwise_cons.2 ⟨?_, ascending⟩
      intro field member
      rcases List.mem_cons.1 member with rfl | later
      · exact less
      · exact lt_trans less (above field later)
    split
    · next same =>
      subst same
      exact List.pairwise_cons.2 ⟨above, others⟩
    · next notLess different =>
      refine List.pairwise_cons.2 ⟨?_, ih others⟩
      intro field member
      rcases mem_insert member with here | ⟨known, inRest, same⟩
      · rw [here]
        exact lt_of_le_of_ne (not_lt.1 notLess) (Ne.symm different)
      · rw [← same]
        exact above known inRest

theorem Ascending.merge (ascending : fields.Ascending) (newer : Fields) : (fields.merge newer).Ascending := by
  induction newer generalizing fields with
  | nil => exact ascending
  | cons field rest ih => exact ih (ascending.insert field.1 field.2)

/-- Nothing is found under a key that comes before all others. -/
theorem find?_eq_none (above : ∀ field ∈ fields, key < field.1) : fields.find? key = none := by
  induction fields with
  | nil => rfl
  | cons field rest ih =>
    have different : ¬ field.1 = key := ne_of_gt (above field List.mem_cons_self)
    rw [find?_cons, if_neg different]
    exact ih fun other member => above other (List.mem_cons_of_mem _ member)

/-- Ascending fields are the same if the same is found under each key. -/
theorem Ascending.ext (first : fields.Ascending) (second : newer.Ascending)
    (same : ∀ key, fields.find? key = newer.find? key) : fields = newer := by
  induction fields generalizing newer with
  | nil =>
    cases newer with
    | nil => rfl
    | cons field rest => simpa [find?_cons] using same field.1
  | cons field rest ih =>
    cases newer with
    | nil => simpa [find?_cons] using same field.1
    | cons field' rest' =>
      obtain ⟨above, others⟩ := List.pairwise_cons.1 first
      obtain ⟨above', others'⟩ := List.pairwise_cons.1 second
      have here := same field.1
      have there := same field'.1
      -- The lesser of the first keys would be found on one side only.
      have sameKey : field.1 = field'.1 := by
        rcases lt_trichotomy field.1 field'.1 with less | equal | greater
        · rw [find?_cons, if_pos rfl, find?_eq_none] at here
          · cases here
          · intro other member
            rcases List.mem_cons.1 member with rfl | later
            · exact less
            · exact lt_trans less (above' other later)
        · exact equal
        · rw [find?_cons field' rest', if_pos rfl, find?_eq_none] at there
          · cases there
          · intro other member
            rcases List.mem_cons.1 member with rfl | later
            · exact greater
            · exact lt_trans greater (above other later)
      have sameValue : field.2 = field'.2 := by
        rw [find?_cons, find?_cons, if_pos rfl, if_pos sameKey.symm] at here
        exact Option.some.inj here
      have sameField : field = field' := Prod.ext sameKey sameValue
      subst sameField
      rw [ih others others' fun key => ?_]
      by_cases found : field.1 = key
      · subst found
        rw [find?_eq_none above, find?_eq_none above']
      · have tails := same key
        rwa [find?_cons, find?_cons, if_neg found, if_neg found] at tails

/-- Setting again what was set last changes nothing. -/
theorem merge_again (ascending : fields.Ascending) (earlier last : Fields) :
    (fields.merge (earlier ++ last)).merge last = fields.merge (earlier ++ last) := by
  refine ((ascending.merge _).merge _).ext (ascending.merge _) fun key => ?_
  rw [find?_merge, find?_merge, List.reverse_append, find?_append]
  cases find? last.reverse key <;> simp

end CommitLog.Fields
