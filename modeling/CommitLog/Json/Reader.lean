import CommitLog.Json.Number

/-!
JSON values read from octets. The grammar is strict: blanks are spaces, tabs and line ends,
nothing follows a value, names are quoted and no comma is left over. Arrays and objects nest at
most `nestingLimit` deep, except in values that are only skipped. Of two fields with one key the
later one counts.

A loop that takes at least one octet a turn is given the octets it starts with as a clock, which
loses one octet a turn and so outlasts the input.
-/

namespace CommitLog.Json

/-- How many arrays and objects may be open at a time. -/
def nestingLimit : Nat := 127

def isBlank (b : UInt8) : Bool := b = 0x20 || b = 0x09 || b = 0x0A || b = 0x0D

def skipBlank (s : Bytes) : Bytes := s.dropWhile isBlank

/-- A fixed word. -/
def word (expected : String) (s : Bytes) : Option Bytes :=
  if (Utf8.ofString expected).isPrefixOf s then some (s.drop expected.length) else none

/-! ## Text -/

def hexValue? (b : UInt8) : Option Nat :=
  if 0x30 ≤ b ∧ b ≤ 0x39 then some (b.toNat - 0x30)
  else if 0x41 ≤ b ∧ b ≤ 0x46 then some (b.toNat - 0x41 + 10)
  else if 0x61 ≤ b ∧ b ≤ 0x66 then some (b.toNat - 0x61 + 10)
  else none

def hexUnit : Reader Nat
  | a :: b :: c :: d :: s => do
    let n := (((← hexValue? a) * 16 + (← hexValue? b)) * 16 + (← hexValue? c)) * 16
    return (n + (← hexValue? d), s)
  | _ => none

/-- The character of an escape with one letter. -/
def shortEscape? (b : UInt8) : Option Char :=
  match b with
  | 0x22 => some '"'
  | 0x5C => some '\\'
  | 0x2F => some '/'
  | 0x62 => some '\x08'
  | 0x66 => some '\x0c'
  | 0x6E => some '\n'
  | 0x72 => some '\r'
  | 0x74 => some '\t'
  | _ => none

/-- A code point by number; two units stand for one beyond the first plane. -/
def numberedEscape : Reader Char := fun s => do
  let (n, s) ← hexUnit s
  if n < 0xD800 ∨ 0xE000 ≤ n then
    return (← Utf8.charFrom? 0 n, s)
  else if 0xDC00 ≤ n then none
  else
    match s with
    | 0x5C :: 0x75 :: s => do
      let (low, s) ← hexUnit s
      if 0xDC00 ≤ low ∧ low < 0xE000 then
        return (← Utf8.charFrom? 0 (0x10000 + (n - 0xD800) * 0x400 + (low - 0xDC00)), s)
      else none
    | _ => none

/-- The characters up to the closing quote. Control characters must be escaped. -/
def quotedFrom : Bytes → Reader (List Char)
  | [], _ => none
  | _ :: clock, s =>
    match s with
    | [] => none
    | 0x22 :: s => some ([], s)
    | 0x5C :: 0x75 :: s => do
      let (c, s) ← numberedEscape s
      let (rest, s) ← quotedFrom clock s
      return (c :: rest, s)
    | 0x5C :: b :: s => do
      let c ← shortEscape? b
      let (rest, s) ← quotedFrom clock s
      return (c :: rest, s)
    | s => do
      let (c, s) ← Utf8.decode? s
      if c.toNat < 0x20 ∨ c = '\\' then none
      else
        let (rest, s) ← quotedFrom clock s
        return (c :: rest, s)

/-- What follows an opening quote. -/
def textBody : Reader String := fun s =>
  (quotedFrom s s).map fun (chars, s) => (String.ofList chars, s)

def readText : Reader String := fun s =>
  match skipBlank s with
  | 0x22 :: s => textBody s
  | _ => none

/-! ## Arrays and objects of anything -/

/-- One item or more, with commas between them, and the closing bracket. -/
def itemsFrom {α : Type} (item : Reader α) : Bytes → Reader (List α)
  | [], _ => none
  | _ :: clock, s => do
    let (x, s) ← item s
    match skipBlank s with
    | 0x5D :: s => return ([x], s)
    | 0x2C :: s =>
      let (rest, s) ← itemsFrom item clock s
      return (x :: rest, s)
    | _ => none

/-- What follows an opening bracket. -/
def itemsBody {α : Type} (item : Reader α) : Reader (List α) := fun s =>
  match skipBlank s with
  | 0x5D :: s => some ([], s)
  | s => itemsFrom item s s

def readArray {α : Type} (item : Reader α) : Reader (List α) := fun s =>
  match skipBlank s with
  | 0x5B :: s => itemsBody item s
  | _ => none

/-- A key and the colon after it. -/
def readKey (text : Reader String) : Reader String := fun s => do
  let (key, s) ← text s
  match skipBlank s with
  | 0x3A :: s => return (key, s)
  | _ => none

/-- One field or more, each taken in by `step`, and the closing brace. -/
def fieldsFrom {β : Type} (text : Reader String) (step : β → String → Reader β) :
    Bytes → β → Reader β
  | [], _, _ => none
  | _ :: clock, seen, s => do
    let (key, s) ← readKey text s
    let (seen, s) ← step seen key s
    match skipBlank s with
    | 0x7D :: s => return (seen, s)
    | 0x2C :: s => fieldsFrom text step clock seen s
    | _ => none

/-- What follows an opening brace. -/
def fieldsBody {β : Type} (text : Reader String) (step : β → String → Reader β) (none : β) :
    Reader β := fun s =>
  match skipBlank s with
  | 0x7D :: s => some (none, s)
  | s => fieldsFrom text step s none s

def readObject {β : Type} (step : β → String → Reader β) (none : β) : Reader β := fun s =>
  match skipBlank s with
  | 0x7B :: s => fieldsBody readText step none s
  | _ => Option.none

/-! ## Values -/

def readNumeral : Reader Numeral := fun s => Numeral.read (skipBlank s)

def insertField (value : Reader Json) (fields : Fields) (key : String) : Reader Fields := fun s =>
  (value s).map fun (v, s) => (fields.insert key v, s)

/-- A value; the argument says how many arrays and objects may still be opened. -/
def readValue : Nat → Reader Json
  | room, s =>
    match skipBlank s with
    | 0x6E :: s => (word "ull" s).map (.null, ·)
    | 0x74 :: s => (word "rue" s).map (.bool true, ·)
    | 0x66 :: s => (word "alse" s).map (.bool false, ·)
    | 0x22 :: s => (textBody s).map fun (t, s) => (.text t, s)
    | 0x5B :: s =>
      match room with
      | 0 => none
      | room + 1 => (itemsBody (readValue room) s).map fun (items, s) => (.array items, s)
    | 0x7B :: s =>
      match room with
      | 0 => none
      | room + 1 =>
        (fieldsBody readText (insertField (readValue room)) [] s).map fun (fields, s) =>
          (.object fields, s)
    | s => do
      let (numeral, s) ← Numeral.read s
      return (← numeral.value?, s)

/-- A whole number. -/
def readWhole : Reader Int := fun s => do
  let (numeral, s) ← readNumeral s
  return ((← numeral.whole?).value, s)

/-! ## Values that are only skipped -/

/-- A string of which only the escapes are looked at. -/
def skipQuotedFrom : Bytes → Reader Unit
  | [], _ => none
  | _ :: clock, s =>
    match s with
    | [] => none
    | 0x22 :: s => some ((), s)
    | 0x5C :: 0x75 :: s => do
      let (_, s) ← hexUnit s
      skipQuotedFrom clock s
    | 0x5C :: b :: s => do
      let _ ← shortEscape? b
      skipQuotedFrom clock s
    | b :: s => if b < 0x20 ∨ b = 0x5C then none else skipQuotedFrom clock s

def skipText : Reader String := fun s =>
  match skipBlank s with
  | 0x22 :: s => (skipQuotedFrom s s).map fun (_, s) => ("", s)
  | _ => none

/-- Any value of the grammar. -/
def skipValueFrom : Bytes → Reader Unit
  | [], _ => none
  | _ :: clock, s =>
    match skipBlank s with
    | 0x6E :: s => (word "ull" s).map ((), ·)
    | 0x74 :: s => (word "rue" s).map ((), ·)
    | 0x66 :: s => (word "alse" s).map ((), ·)
    | 0x22 :: s => skipQuotedFrom s s
    | 0x5B :: s => (itemsBody (skipValueFrom clock) s).map fun (_, s) => ((), s)
    | 0x7B :: s => fieldsBody skipText (fun _ _ => skipValueFrom clock) () s
    | s => (Numeral.read s).map fun (_, s) => ((), s)

/-- A value of any depth, of which only the grammar is checked. -/
def skipValue : Reader Unit := fun s => skipValueFrom s s

/-! ## Whole inputs -/

/-- The value of an input that holds nothing else. -/
def only {α : Type} (reader : Reader α) (s : Bytes) : Option α := do
  let (x, rest) ← reader s
  if (skipBlank rest).isEmpty then some x else none

end CommitLog.Json
