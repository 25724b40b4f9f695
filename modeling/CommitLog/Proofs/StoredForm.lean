import CommitLog.Codec
import CommitLog.Proofs.Json.Values

/-!
The stored form of headers and events is read back as it was written (`decodeHeaders_render`,
`decodeEvents_render`), if the headers hold no floating-point number and nest shallowly enough.
-/

namespace CommitLog.Codec

open Json

private theorem whole?_octet (b : UInt8) : (⟨decide ((b.toNat : Int) < 0), digitOctets (b.toNat : Int).natAbs, none, none⟩ :
    Numeral).whole?.map Whole.value = some (b.toNat : Int) := by
  have small : b.toNat < 256 := b.toNat_lt
  rw [whole?_integer ⟨(b.toNat : Int), by omega, by omega⟩, Option.map_some]

private theorem readWhole_of_numeral {s rest : Bytes} {numeral : Numeral} {whole : Whole}
    (read : readNumeral s = some (numeral, rest)) (value : numeral.whole? = some whole) :
    readWhole s = some (whole.value, rest) := by
  simp [readWhole, read, value]

theorem readOctet_written (b : UInt8) : ReadsBack readOctet (ascii (toString b.toNat)) b := by
  intro rest delimited
  have small : b.toNat < 256 := b.toNat_lt
  have start := skipBlank_opening ((opening_integer (b.toNat : Int)).append rest)
  have read := read_integer (b.toNat : Int) delimited
  obtain ⟨whole, value, same⟩ := Option.map_eq_some_iff.1 (whole?_octet b)
  have back : readWhole (ascii (toString (b.toNat : Int)) ++ rest) = some ((b.toNat : Int), rest) := by
    have whole := readWhole_of_numeral (by rw [readNumeral, start, read]) value
    rwa [same] at whole
  show readOctet (ascii (toString (b.toNat : Int)) ++ rest) = some (b, rest)
  rw [readOctet, back]
  simp only [Option.bind_eq_bind, Option.bind_some]
  rw [if_pos (by omega), Int.toNat_natCast, UInt8.ofNat_toNat]

theorem readOctets_written (octets : Bytes) (room : Nat) (rest : Bytes) :
    readOctets (room + 1) (renderOctets octets ++ rest) = some (octets, rest) :=
  readArray_written (fun b _ => readOctet_written b) (fun b _ => opening_integer (b.toNat : Int)) rest

theorem readHeaders_written {headers : Headers} {room : Nat} (readable : ReadableFields room headers) (rest : Bytes) :
    readHeaders (room + 1) (renderHeaders headers ++ rest) = some (headers, rest) := by
  have body := fieldsBody_render (fun entry member => readValue_render (readable.of_mem member))
    readable.ascending rest
  simpa [readHeaders, readObject, renderHeaders, braced, skipBlank_cons (show isBlank 0x7B = false by decide)]
    using body

theorem readField_body (body : Bytes) (room : Nat) :
    ReadsBack (readField (room + 1) {} "body") (renderOctets body) { body := some body } := by
  intro rest _
  simp [readField, readOctets_written]

/-- An event is read field by field. -/
theorem readEvent_fields (event : Event) (room : Nat) (rest : Bytes) :
    ∃ one two clock, readEvent (room + 1) (renderEvent event ++ rest) =
      (fieldsFrom readText (readField room) (one :: two :: clock) {} (field "body" (renderOctets event.body) ++
        0x2C :: (field "headers" (renderHeaders event.headers) ++ 0x7D :: rest))).bind fun (seen, s) =>
          seen.event?.map (·, s) := by
  have opening : Opening (field "body" (renderOctets event.body) ++ 0x2C ::
      (field "headers" (renderHeaders event.headers) ++ 0x7D :: rest)) := (opening_field _ _).append _
  have start : skipBlank (renderEvent event ++ rest) = renderEvent event ++ rest :=
    skipBlank_opening ⟨by decide, by decide, by decide⟩
  obtain ⟨one, two, clock, fields⟩ : ∃ one two clock,
      fieldsBody readText (readField room) {} (field "body" (renderOctets event.body) ++ 0x2C ::
          (field "headers" (renderHeaders event.headers) ++ 0x7D :: rest)) =
        fieldsFrom readText (readField room) (one :: two :: clock) {} (field "body" (renderOctets event.body) ++ 0x2C ::
          (field "headers" (renderHeaders event.headers) ++ 0x7D :: rest)) :=
    ⟨_, _, _, fieldsBody_opening (readField room) {} opening⟩
  refine ⟨one, two, clock, ?_⟩
  rw [readEvent.eq_def]
  dsimp only
  rw [start, renderEvent, braced]
  simp only [separated, List.cons_append, List.append_assoc, List.nil_append]
  rw [fields]
  refine congrArg _ (funext fun found => ?_)
  cases found.1.event? <;> rfl

theorem readEvent_written {event : Event} {room : Nat} (readable : ReadableFields room event.headers) (rest : Bytes) :
    readEvent (room + 2) (renderEvent event ++ rest) = some (event, rest) := by
  have headers : ReadsBack (readField (room + 1) { body := some event.body } "headers")
      (renderHeaders event.headers) { body := some event.body, headers := some event.headers } := by
    intro rest _
    simp [readField, readHeaders_written readable]
  obtain ⟨one, two, clock, read⟩ := readEvent_fields event (room + 1) rest
  rw [read, (fieldsFrom_field (readField_body event.body room) one (two :: clock) _).2,
    (fieldsFrom_field headers two clock rest).1]
  rfl

theorem decodeHeaders_render {headers : Headers} (readable : ReadableFields 126 headers) :
    decodeHeaders (renderHeaders headers) = some headers := by
  have read := readHeaders_written readable []
  rw [List.append_nil] at read
  simp [decodeHeaders, only, nestingLimit, read, skipBlank]

theorem decodeEvents_render {events : List Event} (readable : ∀ event ∈ events, ReadableFields 124 event.headers) :
    decodeEvents (renderEvents events) = some events := by
  have read : readEvents 127 (renderEvents events ++ []) = some (events, []) :=
    readArray_written (fun event member rest _ => readEvent_written (readable event member) rest)
      (fun event _ => ⟨by decide, by decide, by decide⟩) []
  rw [List.append_nil] at read
  simp [decodeEvents, only, nestingLimit, read, skipBlank]

end CommitLog.Codec
