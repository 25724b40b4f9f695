import CommitLog.Event
import CommitLog.Json.Printer
import CommitLog.Json.Reader

/-!
The stored form of headers and events: compact JSON. An event is an object with its body as a
list of octets and its headers; reading also takes an event written as a list, fields in any
order, and fields it does not know.
-/

namespace CommitLog.Codec

open Json

/-! ## Writing -/

def renderOctets (octets : Bytes) : Bytes :=
  bracketed (octets.map fun b => ascii (toString b.toNat))

def renderHeaders (headers : Headers) : Bytes := braced (renderFields headers)

def renderEvent (event : Event) : Bytes :=
  braced [field "body" (renderOctets event.body), field "headers" (renderHeaders event.headers)]

def renderEvents (events : List Event) : Bytes := bracketed (events.map renderEvent)

/-! ## Reading

The first argument says how many arrays and objects may still be opened. -/

def readOctet : Reader UInt8 := fun s => do
  let (n, s) ← readWhole s
  if 0 ≤ n ∧ n < 256 then some (UInt8.ofNat n.toNat, s) else none

def readOctets : Nat → Reader Bytes
  | 0, _ => none
  | _ + 1, s => readArray readOctet s

def readHeaders : Nat → Reader Headers
  | 0, _ => none
  | room + 1, s => readObject (insertField (readValue room)) [] s

/-- The fields of an event seen so far. -/
structure Partial where
  body : Option Bytes := none
  headers : Option Headers := none

def Partial.event? (seen : Partial) : Option Event :=
  seen.body.map fun body => ⟨body, seen.headers.getD []⟩

/-- A known field may come once; any other is skipped. -/
def readField (room : Nat) (seen : Partial) (key : String) : Reader Partial := fun s =>
  if key = "body" then
    if seen.body.isSome then none
    else (readOctets room s).map fun (body, s) => ({ seen with body := some body }, s)
  else if key = "headers" then
    if seen.headers.isSome then none
    else (readHeaders room s).map fun (headers, s) => ({ seen with headers := some headers }, s)
  else (skipValue s).map fun (_, s) => (seen, s)

/-- An event written as a list of its body and, if there are any, its headers. -/
def readListed (room : Nat) : Reader Event := fun s => do
  let (body, s) ← readOctets room s
  match skipBlank s with
  | 0x5D :: s => return (⟨body, []⟩, s)
  | 0x2C :: s =>
    let (headers, s) ← readHeaders room s
    match skipBlank s with
    | 0x5D :: s => return (⟨body, headers⟩, s)
    | _ => none
  | _ => none

def readEvent : Nat → Reader Event
  | 0, _ => none
  | room + 1, s =>
    match skipBlank s with
    | 0x5B :: s => readListed room s
    | 0x7B :: s => do
      let (seen, s) ← fieldsBody readText (readField room) {} s
      return (← seen.event?, s)
    | _ => none

def readEvents : Nat → Reader (List Event)
  | 0, _ => none
  | room + 1, s => readArray (readEvent room) s

/-! ## Whole inputs -/

def decodeValue (s : Bytes) : Option Json := only (readValue nestingLimit) s
def decodeHeaders (s : Bytes) : Option Headers := only (readHeaders nestingLimit) s
def decodeEvent (s : Bytes) : Option Event := only (readEvent nestingLimit) s
def decodeEvents (s : Bytes) : Option (List Event) := only (readEvents nestingLimit) s
def decodeText (s : Bytes) : Option String := only readText s

/-- A checkpoint is a whole number of the signed range. -/
def decodeCheckpoint (s : Bytes) : Option Int64 := do
  let n ← only readWhole s
  if n < 9223372036854775808 then some (Int64.ofInt n) else none

end CommitLog.Codec
