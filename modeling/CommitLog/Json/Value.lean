import CommitLog.Decimal.Binary64

/-!
JSON values. Numbers are either whole and in the range of a 64-bit word, signed or unsigned, or
finite floating-point numbers. The fields of an object are kept in ascending order of their keys,
each key once: `Fields.insert` keeps that order and `Canonical` says it.
-/

namespace CommitLog

/-- A whole number that fits a signed or an unsigned 64-bit word. -/
structure Whole where
  value : Int
  lower : -9223372036854775808 ≤ value
  upper : value < 18446744073709551616
  deriving DecidableEq

namespace Whole

def ofInt? (n : Int) : Option Whole :=
  if h : -9223372036854775808 ≤ n ∧ n < 18446744073709551616 then some ⟨n, h.1, h.2⟩ else none

end Whole

inductive Json where
  | null
  | bool (value : Bool)
  | whole (value : Whole)
  | real (value : Binary64)
  | text (value : String)
  | array (items : List Json)
  | object (fields : List (String × Json))

instance : Inhabited Json := ⟨.null⟩

/-- Values by key, in ascending order of the keys. -/
abbrev Fields := List (String × Json)

namespace Fields

/-- Sets the value of a key, in its place. -/
def insert (key : String) (value : Json) : Fields → Fields
  | [] => [(key, value)]
  | (k, v) :: rest =>
    if key < k then (key, value) :: (k, v) :: rest
    else if key = k then (key, value) :: rest
    else (k, v) :: insert key value rest

def find? (fields : Fields) (key : String) : Option Json :=
  (List.find? (fun field => field.1 = key) fields).map Prod.snd

def erase (fields : Fields) (key : String) : Fields :=
  List.filter (fun field => field.1 ≠ key) fields

/-- Sets all the fields of `newer`, in order. -/
def merge (fields newer : Fields) : Fields :=
  newer.foldl (fun merged field => merged.insert field.1 field.2) fields

def ofList (fields : List (String × Json)) : Fields := merge [] fields

/-- The keys ascend, so that each is there once. -/
def Ascending (fields : Fields) : Prop := fields.Pairwise fun a b => a.1 < b.1

end Fields

mutual

/-- Every object in the value has ascending keys. -/
def Json.Canonical : Json → Prop
  | .array items => CanonicalItems items
  | .object fields => Fields.Ascending fields ∧ CanonicalFields fields
  | _ => True

def CanonicalItems : List Json → Prop
  | [] => True
  | item :: rest => item.Canonical ∧ CanonicalItems rest

def CanonicalFields : List (String × Json) → Prop
  | [] => True
  | (_, value) :: rest => value.Canonical ∧ CanonicalFields rest

end

end CommitLog
