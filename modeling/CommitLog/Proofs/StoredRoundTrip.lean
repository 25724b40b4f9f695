import CommitLog.Proofs.Readability
import CommitLog.Proofs.Json.Shapes

/-!
Headers and events that are written, read, written again and read again. What is stored of them is the text of a
JSON value, and without floating-point numbers it is read back as it was if that value nests no deeper than the
reader has room for, and not at all if it does. What has been read of any spelling is such a value
(`decodeHeaders_shaped`, `decodeEvents_shaped`), so that it stays the same from then on (`stored_round_trip`).
-/

namespace CommitLog

namespace Codec

open Json

/-! ### Events as values -/

def octetValue (b : UInt8) : Json :=
  .whole ⟨b.toNat, by omega, by have := b.toNat_lt; omega⟩

/-- The value whose text is the stored form of an event. -/
def eventValue (event : Event) : Json :=
  .object [("body", .array (event.body.map octetValue)), ("headers", .object event.headers)]

def eventsValue (events : List Event) : Json := .array (events.map eventValue)

theorem render_eventValue (event : Event) : render (eventValue event) = renderEvent event := by
  have body : render (.array (event.body.map octetValue)) = renderOctets event.body := by
    rw [render, renderItems_eq_map, List.map_map]
    rfl
  rw [eventValue, render, renderFields, renderFields, body]
  rfl

theorem render_eventsValue (events : List Event) : render (eventsValue events) = renderEvents events := by
  rw [eventsValue, render, renderItems_eq_map, List.map_map]
  exact congrArg bracketed (List.map_congr_left fun event _ => render_eventValue event)

/-- Octets are flat. -/
theorem readable_octets (octets : Bytes) : (Json.array (octets.map octetValue)).Readable 1 := by
  refine .array fun item member => ?_
  obtain ⟨b, -, rfl⟩ := List.mem_map.1 member
  exact ⟨trivial, trivial, Nat.le_refl 0⟩

theorem canonical_eventsValue {events : List Event} :
    (eventsValue events).Canonical ↔ ∀ event ∈ events, (Json.object event.headers).Canonical := by
  have each (event : Event) : (eventValue event).Canonical ↔ (Json.object event.headers).Canonical := by
    have names : Fields.Ascending
        [("body", .array (event.body.map octetValue)), ("headers", .object event.headers)] :=
      List.pairwise_pair.2 (show "body" < "headers" by decide)
    constructor
    · exact fun whole => whole.2.2.1
    · exact fun headers => ⟨names, (readable_octets event.body).canonical, headers, trivial⟩
  rw [eventsValue, Canonical, canonicalItems_iff, List.forall_mem_map]
  exact forall₂_congr fun event _ => each event

theorem floatFree_eventsValue {events : List Event} :
    (eventsValue events).FloatFree ↔ ∀ event ∈ events, (Json.object event.headers).FloatFree := by
  have each (event : Event) : (eventValue event).FloatFree ↔ (Json.object event.headers).FloatFree := by
    constructor
    · exact fun whole => whole.2.1
    · exact fun headers => ⟨(readable_octets event.body).floatFree, headers, trivial⟩
  rw [eventsValue, FloatFree, floatFreeItems_iff, List.forall_mem_map]
  exact forall₂_congr fun event _ => each event

/-- The headers of an event stand in an object of a list. -/
theorem nesting_eventsValue {events : List Event} {room : Nat} :
    (eventsValue events).nesting ≤ room + 2 ↔ ∀ event ∈ events, (Json.object event.headers).nesting ≤ room := by
  have each (event : Event) : (eventValue event).nesting ≤ room + 1 ↔ (Json.object event.headers).nesting ≤ room := by
    have body := (readable_octets event.body).fits
    have some : 1 ≤ (Json.object event.headers).nesting := Nat.succ_le_succ (Nat.zero_le _)
    rw [eventValue, nesting, nestingFields, nestingFields, nestingFields]
    omega
  rw [eventsValue, nesting, Nat.add_le_add_iff_right, nestingItems_le, List.forall_mem_map]
  exact forall₂_congr fun event _ => each event

/-! ### What is read -/

theorem readHeaders_shaped {room : Nat} {s rest : Bytes} {headers : Headers}
    (read : readHeaders (room + 1) s = some (headers, rest)) : ShapedFields room headers := by
  unfold readHeaders readObject at read
  dsimp only at read
  split at read
  · exact fieldsBody_keeps (insertField_shaped fun _ _ _ value => readValue_shaped value) (.nil room) read
  · contradiction

/-- What is known of the headers of an event as soon as they have been seen. -/
theorem readField_shaped {room : Nat} (seen : Partial) (key : String) (s : Bytes) (after : Partial) (rest : Bytes)
    (shaped : ∀ headers ∈ seen.headers, ShapedFields room headers)
    (read : readField (room + 1) seen key s = some (after, rest)) :
    ∀ headers ∈ after.headers, ShapedFields room headers := by
  unfold readField at read
  split at read
  · split at read
    · contradiction
    · obtain ⟨found, -, ⟨⟩⟩ := Option.map_eq_some_iff.1 read
      exact shaped
  · split at read
    · split at read
      · contradiction
      · obtain ⟨⟨found, last⟩, known, ⟨⟩⟩ := Option.map_eq_some_iff.1 read
        rintro headers ⟨⟩
        exact readHeaders_shaped known
    · obtain ⟨found, -, ⟨⟩⟩ := Option.map_eq_some_iff.1 read
      exact shaped

theorem readListed_shaped {room : Nat} {s rest : Bytes} {event : Event}
    (read : readListed (room + 1) s = some (event, rest)) : ShapedFields room event.headers := by
  obtain ⟨⟨body, after⟩, -, read⟩ := Option.bind_eq_some_iff.1 read
  dsimp only at read
  split at read
  · cases read
    exact .nil room
  · obtain ⟨⟨headers, last⟩, known, read⟩ := Option.bind_eq_some_iff.1 read
    dsimp only at read
    split at read
    · cases read
      exact readHeaders_shaped known
    · contradiction
  · contradiction

/-- An event has its headers from an object, from a list or, if it has none, not at all. -/
theorem readEvent_shaped {room : Nat} {s rest : Bytes} {event : Event}
    (read : readEvent (room + 2) s = some (event, rest)) : ShapedFields room event.headers := by
  unfold readEvent at read
  dsimp only at read
  split at read
  · exact readListed_shaped read
  · obtain ⟨⟨seen, after⟩, fields, read⟩ := Option.bind_eq_some_iff.1 read
    obtain ⟨found, whole, ⟨⟩⟩ := Option.bind_eq_some_iff.1 read
    have shaped := fieldsBody_keeps (@readField_shaped room) (by simp) fields
    obtain ⟨body, -, rfl⟩ := Option.map_eq_some_iff.1 whole
    cases known : seen.headers with
    | none => exact .nil room
    | some headers => exact shaped headers known
  · contradiction

/-- What a whole text gives is what its reader gives. -/
theorem of_only {α : Type} {reader : Reader α} {s : Bytes} {x : α} (read : only reader s = some x) :
    ∃ rest, reader s = some (x, rest) := by
  obtain ⟨⟨y, rest⟩, found, read⟩ := Option.bind_eq_some_iff.1 read
  dsimp only at read
  split at read
  · cases read
    exact ⟨rest, found⟩
  · contradiction

theorem decodeHeaders_shaped {s : Bytes} {headers : Headers} (read : decodeHeaders s = some headers) :
    ShapedFields 126 headers := by
  obtain ⟨rest, found⟩ := of_only read
  exact readHeaders_shaped found

theorem decodeEvents_shaped {s : Bytes} {events : List Event} (read : decodeEvents s = some events) :
    ∀ event ∈ events, ShapedFields 124 event.headers := by
  obtain ⟨rest, found⟩ := of_only read
  exact readArray_all (fun _ _ _ event => readEvent_shaped event) found

/-! ### There and back -/

/-- How values that stand for JSON are written and read again. Those that a program holds are canonical: the keys of
their objects ascend, each of them once. -/
structure RoundTrips {α : Type} (value : α → Json) (write : α → Bytes) (decode : Bytes → Option α) : Prop where
  written : ∀ x, write x = render (value x)
  /-- Without floating-point numbers a value comes back exactly if it nests little enough. -/
  back : ∀ x, (value x).Canonical → (value x).FloatFree →
    decode (write x) = if (value x).nesting ≤ nestingLimit then some x else none
  /-- What is decoded, however it was spelled, has its keys in order and nests little enough. -/
  shaped : ∀ s x, decode s = some x → Shaped nestingLimit (value x)
  /-- So it comes back. -/
  again : ∀ s x, decode s = some x → (value x).FloatFree → decode (write x) = some x

theorem RoundTrips.of_shaped {α : Type} {value : α → Json} {write : α → Bytes} {decode : Bytes → Option α}
    (written : ∀ x, write x = render (value x))
    (back : ∀ x, (value x).Canonical → (value x).FloatFree →
      decode (write x) = if (value x).nesting ≤ nestingLimit then some x else none)
    (shaped : ∀ s x, decode s = some x → Shaped nestingLimit (value x)) : RoundTrips value write decode where
  written := written
  back := back
  shaped := shaped
  again s x read floatFree := by
    obtain ⟨canonical, fits⟩ := shaped s x read
    rw [back x canonical floatFree, if_pos fits]

theorem headers_roundTrip : RoundTrips Json.object renderHeaders decodeHeaders := by
  refine RoundTrips.of_shaped (fun _ => rfl) (fun headers canonical floatFree => ?_) fun s headers read =>
    (decodeHeaders_shaped read).object
  split
  · next fits =>
    exact decodeHeaders_render (Readable.fields ⟨canonical, floatFree, fits⟩)
  · next deep =>
    obtain ⟨-, refused⟩ := (decodeHeaders_takes headers).resolve_left fun taken => deep taken.1
    exact refused

theorem events_roundTrip : RoundTrips eventsValue renderEvents decodeEvents := by
  refine RoundTrips.of_shaped (fun events => (render_eventsValue events).symm) (fun events canonical floatFree => ?_)
    fun s events read => ?_
  · rw [canonical_eventsValue] at canonical
    rw [floatFree_eventsValue] at floatFree
    have limit : (eventsValue events).nesting ≤ nestingLimit ↔
      ∀ event ∈ events, (Json.object event.headers).nesting ≤ 125 := nesting_eventsValue
    split
    · next fits =>
      exact decodeEvents_render fun event member =>
        Readable.fields ⟨canonical event member, floatFree event member, limit.1 fits event member⟩
    · next deep =>
      obtain ⟨-, refused⟩ := (decodeEvents_takes events).resolve_left fun taken =>
        deep (limit.2 fun event member => Nat.le_of_add_le_add_right (taken.1 event member))
      exact refused
  · have shaped := decodeEvents_shaped read
    exact ⟨canonical_eventsValue.2 fun event member => (shaped event member).object.canonical,
      nesting_eventsValue.2 fun event member => (shaped event member).object.fits⟩

end Codec

open Codec

/-- Headers and events without floating-point numbers come back as they were stored if they nest little enough, and
what has been read in any spelling is stored and read as the same from then on. An intact row gives the headers and
the events it was made from, or says that it cannot be decoded. -/
theorem stored_round_trip :
    RoundTrips Json.object renderHeaders decodeHeaders ∧ RoundTrips eventsValue renderEvents decodeEvents ∧
    ∀ (row : Row) (headers : Headers) (events : List Event), row.intact = true →
      row.headers = renderHeaders headers → row.payload = renderEvents events →
      (Json.object headers).Canonical → (Json.object headers).FloatFree →
      (eventsValue events).Canonical → (eventsValue events).FloatFree →
      if (Json.object headers).nesting ≤ Json.nestingLimit ∧ (eventsValue events).nesting ≤ Json.nestingLimit then
        ∃ commit, row.decode = .ok commit ∧ commit.headers = headers ∧ commit.events = events
      else ∃ part, row.decode = .error (.serialization part) := by
  refine ⟨headers_roundTrip, events_roundTrip, ?_⟩
  intro row headers events intact sameHeaders samePayload canonical floatFree canonicalEvents floatFreeEvents
  have first := headers_roundTrip.back headers canonical floatFree
  have second := events_roundTrip.back events canonicalEvents floatFreeEvents
  rw [Row.decode, if_pos intact, sameHeaders, samePayload, first, second]
  by_cases fits : (Json.object headers).nesting ≤ Json.nestingLimit
  · by_cases fitting : (eventsValue events).nesting ≤ Json.nestingLimit
    · simp [fits, fitting]
    · simp [fits, fitting]
  · simp [fits]

/-- Escapes, the ends of the range of numbers, one list too many, and a spelling that is not the stored one. -/
theorem stored_round_trip_respelled :
    let least : Whole := ⟨-9223372036854775808, by decide, by decide⟩
    let most : Whole := ⟨18446744073709551615, by decide, by decide⟩
    let headers : Headers := [("z", .array [.whole least, .whole most]), ("é", .text "\"\\\u0001\n€😀")]
    let respelled := Utf8.ofString
      " [ [[0,255]], \x7b\"x\":0.5, \"headers\":\x7b\"b\":1,\"\\u0061\":null,\"b\":[]\x7d, \"body\":[7]\x7d ]"
    let events : List Event := [{ body := [0, 255] }, { body := [7], headers := [("a", .null), ("b", .array [])] }]
    let row := Database.rowOf ⟨⟨"orders"⟩, ⟨"7"⟩, 2, ⟨"a"⟩, 1, 0, headers, events⟩ ⟨1⟩
    decodeHeaders (renderHeaders headers) = some headers ∧
      decodeHeaders (renderHeaders [("k", .nested 127)]) = none ∧
      decodeEvents respelled = some events ∧ renderEvents events ≠ respelled ∧
      decodeEvents (renderEvents events) = some events ∧
      ∃ commit, row.decode = .ok commit ∧ commit.headers = headers ∧ commit.events = events := by
  intro least most headers respelled events row
  obtain ⟨ofHeaders, ofEvents, ofRows⟩ := stored_round_trip
  have canonical : (Json.object headers).Canonical :=
    ⟨List.pairwise_pair.2 (show "z" < "é" by decide), ⟨trivial, trivial, trivial⟩, trivial, trivial⟩
  have floatFree : (Json.object headers).FloatFree := ⟨⟨trivial, trivial, trivial⟩, trivial, trivial⟩
  have nested : ∀ depth, (Json.nested depth).Canonical ∧ (Json.nested depth).FloatFree := by
    intro depth
    induction depth with
    | zero => exact ⟨trivial, trivial⟩
    | succ depth ih => exact ⟨⟨ih.1, trivial⟩, ih.2, trivial⟩
  have read : decodeEvents respelled = some events := by rfl
  have floatFreeEvents : (eventsValue events).FloatFree := floatFree_eventsValue.2 (by
    simp [events, Json.FloatFree, Json.FloatFreeFields, Json.FloatFreeItems])
  refine ⟨?_, ?_, read, ?_, ofEvents.again _ _ read floatFreeEvents, ?_⟩
  · rw [ofHeaders.back headers canonical floatFree, if_pos (by decide)]
  · rw [ofHeaders.back _ ⟨List.pairwise_singleton .., (nested 127).1, trivial⟩ ⟨(nested 127).2, trivial⟩,
      if_neg (by decide +kernel)]
  · decide +kernel
  · have known := ofRows row headers events (decide_eq_true rfl) rfl rfl canonical floatFree
      (ofEvents.shaped _ _ read).canonical floatFreeEvents
    rwa [if_pos ⟨by decide, (ofEvents.shaped _ _ read).fits⟩] at known

end CommitLog
