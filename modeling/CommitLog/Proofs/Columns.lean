import CommitLog.Proofs.Readability
import CommitLog.Proofs.Json.Prefixes

/-!
The two columns of a row under its one checksum. The checksum is taken of the headers and the events one after the
other, so it says nothing of where the headers end. Their stored form says it: a text of headers is read to its
closing brace whatever follows (`readHeaders_stable`), so nothing that begins or extends it is headers too, and
octets that are moved from one column to the other leave a row that cannot be decoded (`columns_uncut`).
-/

namespace CommitLog

namespace Codec

open Json

theorem readHeaders_stable {room wider : Nat} (fits : room ≤ wider) : Stable (readHeaders room) (readHeaders wider) := by
  intro s headers rest more read
  cases room with
  | zero => contradiction
  | succ room =>
    obtain ⟨wider, rfl⟩ := Nat.exists_eq_add_of_le' (Nat.lt_of_lt_of_le room.zero_lt_succ fits)
    unfold readHeaders readObject at read ⊢
    dsimp only at read ⊢
    split at read
    · next visible =>
      rw [skipBlank_append visible]
      have stable := insertField_stable (readValue_stable (Nat.le_of_succ_le_succ fits))
      exact fieldsBody_stable stable [] _ _ _ more read
    · contradiction

/-- Headers of any depth are read to their closing brace, with enough room. -/
theorem readHeaders_render (headers : Headers) (rest : Bytes) :
    ∃ room value, nestingLimit ≤ room ∧ readHeaders room (renderHeaders headers ++ rest) = some (value, rest) := by
  have taken := readHeaders_takes headers (max nestingLimit (Json.object headers).nesting) [] trivial
  obtain ⟨-, value, read⟩ := taken.resolve_right fun deep => deep.1 (Nat.le_max_right ..)
  have further := readHeaders_stable (Nat.le_refl _) _ _ _ rest read
  rw [List.append_nil] at further
  exact ⟨_, value, Nat.le_max_left .., further⟩

/-- Headers that stand before something visible are cut off from it at their closing brace and nowhere else. -/
theorem eq_of_decodeHeaders_cut {headers decoded : Headers} {before after rest : Bytes}
    (visible : ∀ b ∈ rest.head?, isBlank b = false) (cut : before ++ after = renderHeaders headers ++ rest)
    (read : decodeHeaders before = some decoded) : before = renderHeaders headers ∧ after = rest := by
  obtain ⟨⟨value, left⟩, found, read⟩ := Option.bind_eq_some_iff.1 read
  dsimp only at read
  split at read
  · next blank =>
    obtain ⟨room, written, wide, there⟩ := readHeaders_render headers rest
    have here := readHeaders_stable wide _ _ _ after found
    rw [cut, there] at here
    have ends : left ++ after = rest := (Prod.mk.inj (Option.some.inj here)).2.symm
    -- What is left over could only be blanks, and the rest does not begin with one.
    obtain rfl : left = [] := by
      cases left with
      | nil => rfl
      | cons b left =>
        have shown := visible b (by rw [← ends]; rfl)
        rw [skipBlank_cons shown] at blank
        contradiction
    rw [List.nil_append] at ends
    rw [ends] at cut
    exact ⟨List.append_cancel_right cut, ends⟩
  · contradiction

end Codec

/-- The row with other octets in its two columns. -/
def Row.withColumns (row : Row) (headers payload : Bytes) : Row := { row with headers, payload }

/-- The checksum does not see where the headers end. -/
theorem Row.intact_withColumns {row : Row} (intact : row.intact = true) {headers payload : Bytes}
    (same : headers ++ payload = row.headers ++ row.payload) : (row.withColumns headers payload).intact = true := by
  have checksum : row.checksum = Checksum.ofParts [row.headers, row.payload] := of_decide_eq_true intact
  refine decide_eq_true ?_
  show row.checksum = Checksum.ofParts [headers, payload]
  rw [checksum]
  simp only [Checksum.ofParts, List.flatten_cons, List.flatten_nil, List.append_nil, same]

theorem Row.columns_of_decode {row : Row} {commit : Commit} (decoded : row.decode = .ok commit) :
    ∃ headers events, Codec.decodeHeaders row.headers = some headers ∧ Codec.decodeEvents row.payload = some events := by
  unfold Row.decode at decoded
  split at decoded
  · split at decoded
    · next headers events readHeaders readEvents => exact ⟨headers, events, readHeaders, readEvents⟩
    · contradiction
    · contradiction
  · contradiction

/-- Of all ways to cut what is stored of headers and events in two, only the one between them gives headers and
events. A row whose columns are cut in another way keeps its checksum and is not decoded. -/
theorem columns_uncut (headers : Headers) (events : List Event) {before after : Bytes}
    (cut : before ++ after = Codec.renderHeaders headers ++ Codec.renderEvents events) :
    (∀ found others, Codec.decodeHeaders before = some found → Codec.decodeEvents after = some others →
      before = Codec.renderHeaders headers ∧ after = Codec.renderEvents events) ∧
    (∀ row : Row, row.headers = Codec.renderHeaders headers → row.payload = Codec.renderEvents events →
      row.intact = true → (row.withColumns before after).intact = true ∧
        ∀ commit, (row.withColumns before after).decode = .ok commit →
          row.withColumns before after = row ∧ row.decode = .ok commit) ∧
    (∀ entry : Entry, entry.commit.headers = headers → entry.commit.events = events → entry.commit.Fits →
      entry.commit.Storable → ∀ commit, (entry.row.withColumns before after).decode = .ok commit →
        commit = entry.commit.stored) := by
  have uncut : ∀ found, Codec.decodeHeaders before = some found →
      before = Codec.renderHeaders headers ∧ after = Codec.renderEvents events := by
    intro found read
    have visible : ∀ b ∈ (Codec.renderEvents events).head?, Json.isBlank b = false := by
      rintro b ⟨⟩
      decide
    exact Codec.eq_of_decodeHeaders_cut visible cut read
  have unmoved : ∀ row : Row, row.headers = Codec.renderHeaders headers → row.payload = Codec.renderEvents events →
      ∀ commit, (row.withColumns before after).decode = .ok commit → row.withColumns before after = row := by
    intro row first second commit decoded
    obtain ⟨found, -, read, -⟩ := Row.columns_of_decode decoded
    obtain ⟨sameHeaders, samePayload⟩ := uncut found read
    rw [sameHeaders, samePayload, ← first, ← second]
    rfl
  refine ⟨fun found _ read _ => uncut found read, fun row first second intact => ⟨?_, fun commit decoded => ?_⟩, ?_⟩
  · exact Row.intact_withColumns intact (by rw [cut, first, second])
  · have same := unmoved row first second commit decoded
    exact ⟨same, same ▸ decoded⟩
  · rintro entry rfl rfl fits storable commit decoded
    rw [unmoved entry.row rfl rfl commit decoded, Entry.decode_row fits storable] at decoded
    exact (Except.ok.inj decoded).symm

/-- Brackets, braces and quotes in the headers do not help: with one octet moved the row is intact and cannot be
decoded, as it could before. -/
theorem columns_uncut_beside_brackets :
    let headers : Headers := [("\x7d[", .text "\"\x7d][\x7b\\")]
    let events : List Event := [{ body := [0x5D, 0x22], headers := [("]", .object [("\"", .array [.null])])] }]
    let row := Database.rowOf ⟨⟨"orders"⟩, ⟨"7"⟩, 1, ⟨"a"⟩, 1, 0, headers, events⟩ ⟨1⟩
    let moved := row.withColumns (row.headers ++ [0x5B]) (row.payload.drop 1)
    (∃ commit, row.decode = .ok commit) ∧ moved.intact = true ∧ ∀ commit, moved.decode ≠ .ok commit := by
  intro headers events row moved
  have intact : row.intact = true := decide_eq_true rfl
  have written : (Codec.decodeHeaders row.headers).isSome = true ∧ (Codec.decodeEvents row.payload).isSome = true := by
    decide +kernel
  have cut : row.headers ++ [0x5B] ++ row.payload.drop 1 = Codec.renderHeaders headers ++ Codec.renderEvents events := by
    decide +kernel
  obtain ⟨-, rows, -⟩ := columns_uncut headers events cut
  obtain ⟨still, decoded⟩ := rows row rfl rfl intact
  refine ⟨?_, still, fun commit read => ?_⟩
  · obtain ⟨found, readHeaders⟩ := Option.isSome_iff_exists.1 written.1
    obtain ⟨others, readEvents⟩ := Option.isSome_iff_exists.1 written.2
    rw [Row.decode, if_pos intact, readHeaders, readEvents]
    exact ⟨_, rfl⟩
  · have same : row.headers ++ [0x5B] = row.headers := congrArg Row.headers (decoded commit read).1
    simp at same

end CommitLog
