import CommitLog.Json.Value
import CommitLog.Decimal.Shortest
import CommitLog.Text.Utf8

/-!
JSON values written compactly: no blanks, the fields of an object in their order, only the
characters escaped that must be. Whole numbers are written with all their digits, and other
numbers with the fewest that read back, never without a point or an exponent.
-/

namespace CommitLog.Json

/-- The ASCII characters of a text, an octet each. -/
def ascii (s : String) : Bytes := s.toList.map fun c => UInt8.ofNat c.toNat

/-- An exponent with its sign, and no more digits than it needs. -/
def exponentText (exponent : Int) : List Char :=
  (if exponent < 0 then '-' else '+') :: Nat.toDigits 10 exponent.natAbs

/-- Positional from `1e-5` up to sixteen places before the point, else with an exponent. -/
def layout (x : Decimal.Scientific) : String :=
  let digits := Nat.toDigits 10 x.digits
  let point := digits.length + x.exponent
  String.ofList <|
    if 0 ≤ x.exponent ∧ point ≤ 16 then
      digits ++ List.replicate x.exponent.toNat '0' ++ ['.', '0']
    else if 0 < point ∧ point ≤ 16 then
      digits.take point.toNat ++ ['.'] ++ digits.drop point.toNat
    else if -5 < point ∧ point ≤ 0 then
      ['0', '.'] ++ List.replicate (-point).toNat '0' ++ digits
    else
      digits.take 1 ++ (if digits.length = 1 then [] else '.' :: digits.drop 1) ++
        'e' :: exponentText (point - 1)

def realText (x : Binary64) : String :=
  (if x.negative then "-" else "") ++
    (if x.place = 0 then "0.0" else layout (Decimal.shortest x.place))

def hexDigit (n : Nat) : UInt8 := UInt8.ofNat (if n < 10 then 0x30 + n else 0x61 + (n - 10))

/-- A character inside quotes. Control characters have short forms or their number in hex. -/
def escape (c : Char) : Bytes :=
  match c.toNat with
  | 0x22 => [0x5C, 0x22]
  | 0x5C => [0x5C, 0x5C]
  | 0x08 => [0x5C, 0x62]
  | 0x09 => [0x5C, 0x74]
  | 0x0A => [0x5C, 0x6E]
  | 0x0C => [0x5C, 0x66]
  | 0x0D => [0x5C, 0x72]
  | n =>
    if n < 0x20 then [0x5C, 0x75, 0x30, 0x30, hexDigit (n / 16), hexDigit (n % 16)]
    else Utf8.encode c

def quoted (s : String) : Bytes := 0x22 :: (s.toList.flatMap escape ++ [0x22])

/-- Items with commas between them. -/
def separated : List Bytes → Bytes
  | [] => []
  | [item] => item
  | item :: rest => item ++ 0x2C :: separated rest

def bracketed (items : List Bytes) : Bytes := 0x5B :: (separated items ++ [0x5D])

def braced (fields : List Bytes) : Bytes := 0x7B :: (separated fields ++ [0x7D])

def field (key : String) (value : Bytes) : Bytes := quoted key ++ 0x3A :: value

mutual

def render : Json → Bytes
  | .null => ascii "null"
  | .bool true => ascii "true"
  | .bool false => ascii "false"
  | .whole n => ascii (toString n.value)
  | .real x => ascii (realText x)
  | .text s => quoted s
  | .array items => bracketed (renderItems items)
  | .object fields => braced (renderFields fields)

def renderItems : List Json → List Bytes
  | [] => []
  | item :: rest => render item :: renderItems rest

def renderFields : List (String × Json) → List Bytes
  | [] => []
  | (key, value) :: rest => field key (render value) :: renderFields rest

end

mutual

/-- How many arrays and objects the value nests. -/
def nesting : Json → Nat
  | .array items => nestingItems items + 1
  | .object fields => nestingFields fields + 1
  | _ => 0

def nestingItems : List Json → Nat
  | [] => 0
  | item :: rest => max (nesting item) (nestingItems rest)

def nestingFields : List (String × Json) → Nat
  | [] => 0
  | (_, value) :: rest => max (nesting value) (nestingFields rest)

end

end CommitLog.Json
