import CommitLog.Overflow

/-!
What things are called: buckets hold streams, a stream is known by its bucket and its own name, a
commit by an id that its writer chose, and its place in the whole log by a checkpoint. Names are
any text and are ordered by code point, which is the order of their UTF-8 bytes.
-/

namespace CommitLog

structure BucketId where
  text : String
  deriving DecidableEq, Repr

structure StreamId where
  text : String
  deriving DecidableEq, Repr

/-- Chosen by the writer, so that a repeated write can be recognised. -/
structure CommitId where
  text : String
  deriving DecidableEq, Repr

instance : Inhabited BucketId := ⟨⟨"default"⟩⟩
instance : ToString BucketId := ⟨BucketId.text⟩
instance : ToString StreamId := ⟨StreamId.text⟩
instance : ToString CommitId := ⟨CommitId.text⟩

/-- Streams of one name in two buckets are two streams. -/
structure StreamKey where
  bucket : BucketId
  stream : StreamId
  deriving DecidableEq, Repr

/-- A place in the log of the whole store. -/
structure Checkpoint where
  raw : Int64
  deriving DecidableEq, Repr

namespace Checkpoint

/-- The place before every commit. -/
def start : Checkpoint := ⟨0⟩

instance : Inhabited Checkpoint := ⟨start⟩
instance : ToString Checkpoint := ⟨fun checkpoint => toString checkpoint.raw.toInt⟩

def toInt (checkpoint : Checkpoint) : Int := checkpoint.raw.toInt

instance : LE Checkpoint := ⟨fun a b => a.toInt ≤ b.toInt⟩
instance : LT Checkpoint := ⟨fun a b => a.toInt < b.toInt⟩
instance (a b : Checkpoint) : Decidable (a ≤ b) := inferInstanceAs (Decidable (a.toInt ≤ b.toInt))
instance (a b : Checkpoint) : Decidable (a < b) := inferInstanceAs (Decidable (a.toInt < b.toInt))

/-- The place right after, unless this is the last one there is. -/
def next (checkpoint : Checkpoint) : Except Overflow Checkpoint :=
  if checkpoint.raw = Int64.maxValue then .error .add else .ok ⟨checkpoint.raw + 1⟩

theorem le_iff (a b : Checkpoint) : a ≤ b ↔ a.toInt ≤ b.toInt := Iff.rfl
theorem lt_iff (a b : Checkpoint) : a < b ↔ a.toInt < b.toInt := Iff.rfl

theorem le_of_lt {a b : Checkpoint} (less : a < b) : a ≤ b := Int.le_of_lt less
theorem lt_trans {a b c : Checkpoint} (first : a < b) (second : b < c) : a < c := Int.lt_trans first second
theorem lt_of_le_of_lt {a b c : Checkpoint} (first : a ≤ b) (second : b < c) : a < c :=
  Int.lt_of_le_of_lt first second
theorem not_le {a b : Checkpoint} : ¬ a ≤ b ↔ b < a := Int.not_le
theorem lt_irrefl (a : Checkpoint) : ¬ a < a := Int.lt_irrefl a.toInt

end Checkpoint
end CommitLog
