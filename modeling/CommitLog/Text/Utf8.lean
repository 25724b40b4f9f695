/-!
UTF-8, one character at a time: `encode` writes a character as one to four octets, `decode?` reads
one back and refuses overlong forms, surrogates and everything beyond the last code point.
-/

namespace CommitLog

/-- Octets in order. -/
abbrev Bytes := List UInt8

namespace Utf8

def octet (n : Nat) : UInt8 := UInt8.ofNat n

def encode (c : Char) : Bytes :=
  let n := c.toNat
  if n < 0x80 then [octet n]
  else if n < 0x800 then [octet (0xC0 + n / 64), octet (0x80 + n % 64)]
  else if n < 0x10000 then
    [octet (0xE0 + n / 4096), octet (0x80 + n / 64 % 64), octet (0x80 + n % 64)]
  else
    [octet (0xF0 + n / 262144), octet (0x80 + n / 4096 % 64), octet (0x80 + n / 64 % 64),
      octet (0x80 + n % 64)]

/-- The six bits of a continuation octet. -/
def tail? (b : UInt8) : Option Nat :=
  if 0x80 ≤ b.toNat ∧ b.toNat < 0xC0 then some (b.toNat - 0x80) else none

/-- The character of a code point that needs the form it was written in. -/
def charFrom? (least n : Nat) : Option Char :=
  if valid : n.isValidChar ∧ least ≤ n then some (Char.ofNatAux n valid.1) else none

/-- The first character and what follows it. -/
def decode? : Bytes → Option (Char × Bytes)
  | [] => none
  | a :: rest =>
    if a.toNat < 0x80 then
      (charFrom? 0 a.toNat).map (·, rest)
    else if a.toNat < 0xC0 then none
    else if a.toNat < 0xE0 then
      match rest with
      | b :: rest => do
        let n := (a.toNat - 0xC0) * 64 + (← tail? b)
        return (← charFrom? 0x80 n, rest)
      | _ => none
    else if a.toNat < 0xF0 then
      match rest with
      | b :: c :: rest => do
        let n := (a.toNat - 0xE0) * 4096 + (← tail? b) * 64 + (← tail? c)
        return (← charFrom? 0x800 n, rest)
      | _ => none
    else if a.toNat < 0xF8 then
      match rest with
      | b :: c :: d :: rest => do
        let n := (a.toNat - 0xF0) * 262144 + (← tail? b) * 4096 + (← tail? c) * 64 + (← tail? d)
        return (← charFrom? 0x10000 n, rest)
      | _ => none
    else none

/-- The octets of a text. -/
def ofString (s : String) : Bytes := s.toList.flatMap encode

end Utf8
end CommitLog
