import CommitLog.Proofs.Bookkeeping
import CommitLog.Proofs.Json.Strings
import Mathlib.Data.List.Sort
import Mathlib.Data.String.Basic

/-!
Which streams are due for a snapshot. What a store lists is settled by the heads it answers, by a number that tells how
urgent each of them is, and by the names (`Engine.ListsDue`, `Engine.ListsDue.unique`). The number should be that of the
events that no snapshot covers. In memory it is. A database lists by how far a stream is ahead of its newest snapshot,
which also tells apart streams that are behind it, and takes a threshold beyond the largest revision for that revision
(`due_listed`).
-/

namespace CommitLog

/-! ### Names in octets -/

namespace Utf8

theorem cons_octet_lt_iff {n m : Nat} (first : n < 256) (second : m < 256) (s t : Bytes) :
    octet n :: s < octet m :: t ↔ n < m ∨ n = m ∧ s < t := by
  rw [List.cons_lt_cons_iff, UInt8.lt_iff_toNat_lt, ← UInt8.toNat_inj, toNat_octet first, toNat_octet second]

/-- The lesser of two characters comes first in octets, whatever follows them. -/
theorem encode_lt {c d : Char} (less : c < d) (s t : Bytes) : encode c ++ s < encode d ++ t := by
  have below : c.toNat < d.toNat := less
  have bound := toNat_lt d
  unfold encode
  simp only
  -- Characters of one length differ in some octet, and a longer one has the greater first octet.
  split_ifs
  all_goals
    simp (disch := omega) only [List.cons_append, List.nil_append, cons_octet_lt_iff]
    omega

theorem flatMap_encode_lt {s t : List Char} (less : s < t) : s.flatMap encode < t.flatMap encode := by
  induction s generalizing t with
  | nil =>
    cases t with
    | nil => exact absurd less (List.lt_irrefl [])
    | cons d t =>
      obtain ⟨first, others, start, -⟩ := encode_head d
      rw [List.flatMap_nil, List.flatMap_cons, start]
      exact List.nil_lt_cons _ _
  | cons c s ih =>
    cases t with
    | nil => exact absurd less (List.not_lt_nil _)
    | cons d t =>
      rw [List.flatMap_cons, List.flatMap_cons]
      rcases List.cons_lt_cons_iff.1 less with first | ⟨rfl, rest⟩
      · exact encode_lt first _ _
      · exact List.append_left_lt (ih rest)

/-- Texts are in the order of their octets. -/
theorem ofString_lt_iff (a b : String) : ofString a < ofString b ↔ a < b := by
  refine ⟨fun octets => ?_, flatMap_encode_lt⟩
  rcases lt_trichotomy a b with less | rfl | greater
  · exact less
  · exact absurd octets (List.lt_irrefl _)
  · exact absurd octets (List.lt_asymm (flatMap_encode_lt greater))

end Utf8

/-! ### The order of heads -/

namespace StreamHead

/-- The more urgent comes first, and of two that are equally urgent the one whose name is lesser in octets. -/
def Precedes (urgency : StreamHead → Int) (a b : StreamHead) : Prop :=
  urgency b < urgency a ∨
    urgency a = urgency b ∧ Utf8.ofString a.key.stream.text < Utf8.ofString b.key.stream.text

theorem precedes_iff {urgency : StreamHead → Int} {a b : StreamHead} : Precedes urgency a b ↔
    urgency b < urgency a ∨ urgency a = urgency b ∧ a.key.stream.text < b.key.stream.text := by
  rw [Precedes, Utf8.ofString_lt_iff]

instance (urgency : StreamHead → Int) : Std.Irrefl (Precedes urgency) where
  irrefl head before := by
    rcases precedes_iff.1 before with more | ⟨-, less⟩
    · omega
    · exact lt_irrefl _ less

instance (urgency : StreamHead → Int) : Std.Antisymm (Precedes urgency) where
  antisymm a b first second := by
    rcases precedes_iff.1 first with more | ⟨same, less⟩
    · rcases precedes_iff.1 second with fewer | ⟨equal, -⟩
      · omega
      · omega
    · rcases precedes_iff.1 second with fewer | ⟨-, greater⟩
      · omega
      · exact absurd less (lt_asymm greater)

theorem byUrgency_iff {urgency : StreamHead → Int} {a b : StreamHead} : byUrgency urgency a b = true ↔
    urgency b < urgency a ∨ urgency a = urgency b ∧ a.key.stream.text ≤ b.key.stream.text := by
  simp [byUrgency]

/-- Sorted heads whose names are all different. -/
theorem pairwise_sorted (urgency : StreamHead → Int) {heads : List StreamHead}
    (apart : heads.Pairwise fun a b => a.key.stream.text ≠ b.key.stream.text) :
    (heads.mergeSort (byUrgency urgency)).Pairwise (Precedes urgency) := by
  have sorted : (heads.mergeSort (byUrgency urgency)).Pairwise fun a b => byUrgency urgency a b = true := by
    refine List.pairwise_mergeSort (fun a b c first second => ?_) (fun a b => ?_) heads
    · rw [byUrgency_iff] at first second ⊢
      rcases first with more | ⟨same, before⟩
      · rcases second with other | ⟨equal, -⟩
        · exact .inl (by omega)
        · exact .inl (by omega)
      · rcases second with other | ⟨equal, after⟩
        · exact .inl (by omega)
        · exact .inr ⟨same.trans equal, before.trans after⟩
    · rw [Bool.or_eq_true, byUrgency_iff, byUrgency_iff]
      rcases lt_trichotomy (urgency a) (urgency b) with less | same | greater
      · exact .inr (.inl less)
      · rcases le_total a.key.stream.text b.key.stream.text with before | after
        · exact .inl (.inr ⟨same, before⟩)
        · exact .inr (.inr ⟨same.symm, after⟩)
      · exact .inl (.inl greater)
  have distinct : (heads.mergeSort (byUrgency urgency)).Pairwise fun a b => a.key.stream.text ≠ b.key.stream.text :=
    (List.mergeSort_perm heads _).symm.pairwise apart fun differ => differ.symm
  refine (sorted.and distinct).imp fun {a b} both => precedes_iff.2 ?_
  rcases byUrgency_iff.1 both.1 with more | ⟨same, before⟩
  · exact .inl more
  · exact .inr ⟨same, lt_of_le_of_ne before both.2⟩

/-- The heads of a bucket that have at least so many events without snapshot, sorted. -/
def dueFrom (urgency : StreamHead → Int) (bucket : BucketId) (least : UInt64) (heads : List StreamHead) :
    List StreamHead :=
  (heads.filter fun head => head.key.bucket = bucket ∧ least ≤ head.unsnapshotted).mergeSort (byUrgency urgency)

theorem mem_dueFrom {urgency : StreamHead → Int} {bucket : BucketId} {least : UInt64} {heads : List StreamHead}
    {head : StreamHead} : head ∈ dueFrom urgency bucket least heads ↔
      head ∈ heads ∧ head.key.bucket = bucket ∧ least ≤ head.unsnapshotted := by
  simp [dueFrom, List.mem_mergeSort, List.mem_filter]

theorem pairwise_dueFrom (urgency : StreamHead → Int) (bucket : BucketId) (least : UInt64) {heads : List StreamHead}
    (apart : heads.Pairwise fun a b => a.key ≠ b.key) :
    (dueFrom urgency bucket least heads).Pairwise (Precedes urgency) := by
  refine pairwise_sorted urgency ?_
  refine List.Pairwise.imp_of_mem (fun {a b} first second differ same => differ ?_) (apart.sublist List.filter_sublist)
  -- In one bucket it is the names that tell streams apart.
  have one := (of_decide_eq_true (List.mem_filter.1 first).2).1
  have other := (of_decide_eq_true (List.mem_filter.1 second).2).1
  obtain ⟨⟨_, ⟨_⟩⟩, _, _⟩ := a
  obtain ⟨⟨_, ⟨_⟩⟩, _, _⟩ := b
  simp only at one other same ⊢
  rw [one, other, same]

/-- No stream has two of the heads. -/
def Single (heads : List StreamHead) : Prop := ∀ key, (heads.filter fun head => head.key = key).length ≤ 1

theorem Single.apart {heads : List StreamHead} (single : Single heads) : heads.Pairwise fun a b => a.key ≠ b.key := by
  refine List.pairwise_map.1 (List.nodup_iff_count_le_one.2 fun key => ?_)
  rw [List.count, List.countP_map, List.countP_eq_length_filter]
  simpa [Function.comp_def, beq_eq_decide] using single key

theorem Single.mem_iff {heads : List StreamHead} (single : Single heads) (head : StreamHead) :
    head ∈ heads ↔ (heads.find? fun other => other.key = head.key) = some head := by
  have few := single head.key
  have part : head ∈ heads ↔ head ∈ heads.filter fun other => other.key = head.key := by simp [List.mem_filter]
  rw [part, ← List.head?_filter]
  generalize heads.filter (fun other => other.key = head.key) = found at few ⊢
  rcases found with _ | ⟨one, _ | ⟨two, more⟩⟩
  · simp
  · simp [eq_comm]
  · simp at few

end StreamHead

/-! ### What an engine lists -/

namespace Engine

/-- The number by which an engine says how urgent a snapshot is. -/
def urgency : Engine → StreamHead → Int
  | .memory _ => StreamHead.backlog
  | .database _ => StreamHead.lead

/-- What an engine takes a threshold for. -/
def floor (threshold : UInt64) : Engine → UInt64
  | .memory _ => threshold
  | .database _ => min threshold maxRevision

/-- An engine answers a head as that of its stream. -/
def Has (engine : Engine) (head : StreamHead) : Prop := (CommitStore.head head.key engine).1 = .ok (some head)

/-- The heads of a bucket that have at least so many events without snapshot, each once, the most urgent first. -/
structure ListsDue (engine : Engine) (bucket : BucketId) (least : UInt64) (urgency : StreamHead → Int)
    (listed : List StreamHead) : Prop where
  mem : ∀ head, head ∈ listed ↔ engine.Has head ∧ head.key.bucket = bucket ∧ least ≤ head.unsnapshotted
  order : listed.Pairwise (StreamHead.Precedes urgency)

/-- Where a database does not list what is due as it should: under threshold 0 if, of two streams without events that
need a snapshot, the one with the lesser name is further behind its snapshots; and under a threshold beyond the largest
revision if a stream has reached that revision and has no snapshot. -/
def Astray (bucket : BucketId) (threshold : UInt64) : Engine → Prop
  | .memory _ => False
  | .database store =>
    (threshold = 0 ∧ ∃ a b, (Engine.database store).Has a ∧ (Engine.database store).Has b ∧ a.key.bucket = bucket ∧
      b.key.bucket = bucket ∧ Utf8.ofString a.key.stream.text < Utf8.ofString b.key.stream.text ∧
      a.lead < b.lead ∧ b.lead ≤ 0) ∨
    (maxRevision < threshold ∧
      ∃ head, (Engine.database store).Has head ∧ head.key.bucket = bucket ∧ head.unsnapshotted = maxRevision)

variable {engine other : Engine} {history : History} {journal : Journal} {bucket : BucketId} {threshold least : UInt64}
  {urgency : StreamHead → Int} {listed due : List StreamHead}

/-- There is one such list, and it is settled by the heads of the bucket. -/
theorem ListsDue.unique (lists : engine.ListsDue bucket least urgency listed)
    (same : ∀ key, key.bucket = bucket → (CommitStore.head key engine).1 = (CommitStore.head key other).1)
    (others : other.ListsDue bucket least urgency due) : listed = due := by
  refine lists.order.eq_of_mem_iff others.order fun head => ?_
  rw [lists.mem, others.mem]
  refine and_congr_left fun inBucket => ?_
  rw [Has, Has, same head.key inBucket.1]

/-- The heads that an engine has, each once. -/
structure Roll (engine : Engine) (heads : List StreamHead) : Prop where
  mem : ∀ head, head ∈ heads ↔ engine.Has head
  apart : heads.Pairwise fun a b => a.key ≠ b.key

theorem Roll.listsDue {heads : List StreamHead} (roll : engine.Roll heads) (urgency : StreamHead → Int)
    (bucket : BucketId) (least : UInt64) :
    engine.ListsDue bucket least urgency (StreamHead.dueFrom urgency bucket least heads) where
  mem head := by rw [StreamHead.mem_dueFrom, roll.mem]
  order := StreamHead.pairwise_dueFrom urgency bucket least roll.apart

end Engine

/-- An engine lists what is due from its heads, by its own measures. -/
theorem Engine.Reflects.roll {engine : Engine} {history : History} {journal : Journal}
    (reflects : engine.Reflects history journal) (isOpen : CommitStore.isDisposed engine = false)
    (bounded : ∀ snapshot ∈ history.snapshots, snapshot.revision ≤ maxRevision) :
    ∃ heads, engine.Roll heads ∧ (∀ head ∈ heads, head.revision ≤ maxRevision) ∧
      ∀ bucket threshold, CommitStore.streamsToSnapshot bucket threshold engine =
        (.ok (StreamHead.dueFrom engine.urgency bucket (engine.floor threshold) heads), engine.settled) := by
  cases reflects with
  | @memory store ledger keeps sound inStep snapshots =>
    have single : StreamHead.Single ledger.heads := by
      intro key
      rw [(inStep key).heads, List.length_map]
      cases ledger.reached key <;> simp
    have settledHeads : store.settled.headQueue.heads = ledger.heads := keeps.heads
    refine ⟨ledger.heads, ⟨fun head => ?_, single.apart⟩, fun head member => ?_, fun bucket threshold => ?_⟩
    · rw [single.mem_iff]
      show _ ↔ (store.head head.key).1 = _
      rw [MemoryStore.head_eq keeps isOpen, Except.ok.injEq]
      rfl
    · have found := (single.mem_iff head).1 member
      replace found : ledger.head? head.key = some head := found
      rw [(inStep head.key).head?_eq] at found
      obtain ⟨revision, last, same⟩ := Option.map_eq_some_iff.1 found
      rw [← same]
      exact UInt64.le_iff_toNat_le.2 (sound.reached_fits last)
    · show ((store.streamsToSnapshot bucket threshold).1, Engine.memory (store.streamsToSnapshot bucket threshold).2) = _
      rw [MemoryStore.streamsToSnapshot, MemoryStore.ensureOpen_of_open isOpen]
      dsimp only
      rw [settledHeads, StreamHead.memory_order]
      rfl
  | @database store _ holds sound inStep snapshots =>
    -- Each row is that of a head.
    have row_of : ∀ row ∈ store.db.heads, ∃ head : StreamHead, head.Stored ∧ head.row = row := by
      intro row member
      have found : row ∈ store.db.heads.filter fun other => other.key = row.key := by simpa using member
      rw [(inStep row.key).heads, holds.reached_eq] at found
      obtain ⟨column, last, same⟩ := List.mem_map.1 found
      obtain ⟨revision, reached, rfl⟩ := Option.map_eq_some_iff.1 (Option.mem_toList.1 last)
      have rows : store.db.snapshotsOf row.key = (history.snapshotsOf row.key).map Snapshot.row := by
        rw [Database.snapshotsOf, snapshots, List.filter_map]
        rfl
      obtain ⟨small, greatest⟩ := @Database.greatest_rows (history.snapshotsOf row.key) fun snapshot member =>
        UInt64.le_iff_toNat_le.1 (bounded snapshot (List.mem_filter.1 member).1)
      rw [rows, greatest] at same
      exact ⟨⟨row.key, revision, Snapshot.greatest (history.snapshotsOf row.key)⟩,
        ⟨sound.reached_fits reached, small⟩, same⟩
    have stored : ∀ head ∈ store.db.heads.map HeadRow.toHead, head.Stored := by
      intro head member
      obtain ⟨row, inTable, rfl⟩ := List.mem_map.1 member
      obtain ⟨head, fits, rfl⟩ := row_of row inTable
      rwa [fits.toHead_row]
    have table : (store.db.heads.map HeadRow.toHead).map StreamHead.row = store.db.heads := by
      rw [List.map_map]
      refine (List.map_congr_left fun row member => ?_).trans (List.map_id _)
      obtain ⟨head, fits, rfl⟩ := row_of row member
      rw [Function.comp_apply, fits.toHead_row]
      rfl
    have single : StreamHead.Single (store.db.heads.map HeadRow.toHead) := by
      intro key
      have count := congrArg List.length (inStep key).heads
      rw [List.filter_map, List.length_map]
      refine count.trans_le ?_
      rw [List.length_map]
      cases store.db.reached key <;> simp
    refine ⟨store.db.heads.map HeadRow.toHead, ⟨fun head => ?_, single.apart⟩, fun head member =>
      UInt64.le_iff_toNat_le.2 (stored head member).revision, fun bucket threshold => ?_⟩
    · rw [single.mem_iff]
      show _ ↔ store.head head.key = _
      rw [DatabaseStore.head, DatabaseStore.query_eq isOpen, Except.ok.injEq, List.find?_map]
      rfl
    · show (store.streamsToSnapshot bucket threshold, Engine.database store) = _
      rw [DatabaseStore.streamsToSnapshot, DatabaseStore.query_eq isOpen, Database.streamsToSnapshot]
      have due := Database.due_rows stored (fun a first b second => (stored a first).order_row (stored b second))
        (fun head member => (stored head member).due_row threshold) bucket
      rw [table] at due
      rw [due]
      rfl

/-! ### Whether that is what is due -/

/-- Of two elements of a list that is in order, one comes before the other. -/
theorem StreamHead.listed_order {before : StreamHead → StreamHead → Prop} {heads : List StreamHead}
    (order : heads.Pairwise before) {a b : StreamHead} (first : a ∈ heads) (second : b ∈ heads) :
    a = b ∨ before a b ∨ before b a := by
  refine List.Pairwise.forall_of_forall_of_flip (R := fun a b => a = b ∨ before a b ∨ before b a)
    (fun _ _ => .inl rfl) (order.imp fun one => .inr (.inl one)) (order.imp fun one => .inr (.inr one)) first second

namespace Engine

variable {engine : Engine} {bucket : BucketId} {threshold : UInt64} {listed due : List StreamHead}

/-- One name in a bucket has one head. -/
theorem Has.eq_of_name {a b : StreamHead} (first : engine.Has a) (second : engine.Has b)
    (sameBucket : a.key.bucket = b.key.bucket) (sameName : a.key.stream.text = b.key.stream.text) : a = b := by
  have key : a.key = b.key := by
    obtain ⟨⟨_, ⟨_⟩⟩, _, _⟩ := a
    obtain ⟨⟨_, ⟨_⟩⟩, _, _⟩ := b
    simp only at sameBucket sameName ⊢
    rw [sameBucket, sameName]
  rw [Has, key, second] at first
  exact (Option.some.inj (Except.ok.inj first)).symm

/-- A threshold that no stream has reached the largest revision for is taken for what it is. -/
theorem mem_iff_of_not_astray (fits : ∀ head, engine.Has head → head.revision ≤ maxRevision)
    (well : ¬ engine.Astray bucket threshold) {head : StreamHead} (has : engine.Has head)
    (inBucket : head.key.bucket = bucket) :
    engine.floor threshold ≤ head.unsnapshotted ↔ threshold ≤ head.unsnapshotted := by
  cases engine with
  | memory store => rfl
  | database store =>
    have small : head.unsnapshotted.toNat ≤ maxRevision.toNat := by
      have most := UInt64.le_iff_toNat_le.1 (fits head has)
      have backlog := head.backlog_eq
      rw [StreamHead.backlog, StreamHead.lead] at backlog
      omega
    show min threshold maxRevision ≤ _ ↔ _
    have least := toNat_min threshold maxRevision
    rw [UInt64.le_iff_toNat_le, UInt64.le_iff_toNat_le]
    refine ⟨fun reached => ?_, fun reached => by omega⟩
    by_contra short
    refine well (.inr ⟨UInt64.lt_iff_toNat_lt.2 (by omega), head, has, inBucket, UInt64.toNat_inj.1 (by omega)⟩)

/-- Unless it goes astray, an engine lists what is due. -/
theorem ListsDue.due_of_not_astray (fits : ∀ head, engine.Has head → head.revision ≤ maxRevision)
    (lists : engine.ListsDue bucket (engine.floor threshold) engine.urgency listed)
    (well : ¬ engine.Astray bucket threshold) : engine.ListsDue bucket threshold StreamHead.backlog listed where
  mem head := by
    rw [lists.mem]
    refine and_congr_right fun has => and_congr_right fun inBucket => ?_
    exact mem_iff_of_not_astray fits well has inBucket
  order := by
    refine lists.order.imp_of_mem fun {a b} first second before => ?_
    cases engine with
    | memory store => exact before
    | database store =>
      obtain ⟨hasA, inBucket, dueA⟩ := (lists.mem a).1 first
      obtain ⟨hasB, alsoInBucket, dueB⟩ := (lists.mem b).1 second
      have backlogA := a.backlog_eq
      have backlogB := b.backlog_eq
      rcases before with more | ⟨same, less⟩
      swap
      · exact .inr ⟨by rw [backlogA, backlogB, show a.lead = b.lead from same], less⟩
      replace more : b.lead < a.lead := more
      by_cases ahead : 0 < a.lead
      · exact .inl (by omega)
      -- Neither has events to cover, so that the threshold is 0 and the names have to be in order.
      have least := toNat_min threshold maxRevision
      have limit : maxRevision.toNat = 9223372036854775807 := rfl
      have reached : min threshold maxRevision ≤ a.unsnapshotted := dueA
      rw [UInt64.le_iff_toNat_le] at reached
      rw [StreamHead.backlog] at backlogA
      have zero : threshold = 0 := UInt64.toNat_inj.1 (by rw [UInt64.toNat_zero]; omega)
      refine .inr ⟨?_, ?_⟩
      · rw [StreamHead.backlog, backlogB]
        omega
      · rw [Utf8.ofString_lt_iff]
        rcases lt_trichotomy a.key.stream.text b.key.stream.text with less | same | greater
        · exact less
        · have one : a = b := hasA.eq_of_name hasB (inBucket.trans alsoInBucket.symm) same
          rw [one] at more
          exact absurd more (lt_irrefl _)
        · exact absurd (.inl ⟨zero, b, a, hasB, hasA, alsoInBucket, inBucket, (Utf8.ofString_lt_iff _ _).2 greater, more,
            by omega⟩) well

/-- If an engine goes astray, it does not list what is due. -/
theorem ListsDue.ne_of_astray (lists : engine.ListsDue bucket (engine.floor threshold) engine.urgency listed)
    (isDue : engine.ListsDue bucket threshold StreamHead.backlog due) (astray : engine.Astray bucket threshold) :
    listed ≠ due := by
  rintro rfl
  cases engine with
  | memory store => exact astray
  | database store =>
    rcases astray with ⟨rfl, a, b, hasA, hasB, inBucket, alsoInBucket, less, behind, covered⟩ |
      ⟨beyond, head, has, inBucket, most⟩
    · -- One order has the lesser name first, and the other the one that is less far behind.
      have first := (isDue.mem a).2 ⟨hasA, inBucket, UInt64.zero_le⟩
      have second := (isDue.mem b).2 ⟨hasB, alsoInBucket, UInt64.zero_le⟩
      have backlogA := a.backlog_eq
      have backlogB := b.backlog_eq
      rcases StreamHead.listed_order (lists.order.and isDue.order) first second with rfl | ⟨more, -⟩ | ⟨-, more⟩
      · exact lt_irrefl _ behind
      · rcases more with (more : b.lead < a.lead) | ⟨(same : a.lead = b.lead), -⟩ <;> omega
      · rcases more with more | ⟨-, greater⟩
        · omega
        · exact List.lt_asymm less greater
    · have listed := (lists.mem head).2 ⟨has, inBucket, by
        show min threshold maxRevision ≤ _
        rw [most, UInt64.le_iff_toNat_le, toNat_min]
        exact Nat.min_le_right _ _⟩
      have reached := ((isDue.mem head).1 listed).2.2
      rw [most, UInt64.le_iff_toNat_le] at reached
      rw [UInt64.lt_iff_toNat_lt] at beyond
      omega

end Engine

/-- Whatever has been asked of an open store, each engine lists the heads of a bucket that reach a threshold, each once
and the most urgent first, by a measure of its own. That is what is due, and it is the same in stores that hold the
same heads, unless a database goes astray. -/
theorem due_listed {engine : Engine} {history : History} (reached : engine.Reached history)
    (isOpen : CommitStore.isDisposed engine = false)
    (bounded : ∀ snapshot ∈ history.snapshots, snapshot.revision ≤ maxRevision) (bucket : BucketId)
    (threshold : UInt64) :
    ∃ listed due, CommitStore.streamsToSnapshot bucket threshold engine = (.ok listed, engine.settled) ∧
      engine.ListsDue bucket (engine.floor threshold) engine.urgency listed ∧
      engine.ListsDue bucket threshold StreamHead.backlog due ∧
      (listed = due ↔ ¬ engine.Astray bucket threshold) ∧
      ∀ {other : Engine} {past : History}, other.Reached past → CommitStore.isDisposed other = false →
        (∀ snapshot ∈ past.snapshots, snapshot.revision ≤ maxRevision) →
        (∀ key, key.bucket = bucket → (CommitStore.head key engine).1 = (CommitStore.head key other).1) →
        ¬ engine.Astray bucket threshold → ¬ other.Astray bucket threshold →
          (CommitStore.streamsToSnapshot bucket threshold other).1 = .ok listed := by
  obtain ⟨journal, reflects⟩ := reached.reflects
  obtain ⟨heads, roll, fits, answers⟩ := reflects.roll isOpen bounded
  have lists := roll.listsDue engine.urgency bucket (engine.floor threshold)
  have isDue := roll.listsDue StreamHead.backlog bucket threshold
  have small : ∀ head, engine.Has head → head.revision ≤ maxRevision := fun head has => fits head ((roll.mem head).2 has)
  refine ⟨_, _, answers bucket threshold, lists, isDue, ⟨fun same astray => lists.ne_of_astray isDue astray same,
    fun well => ?_⟩, fun {other past} otherReached otherOpen otherBounded same well otherWell => ?_⟩
  · exact (lists.due_of_not_astray small well).unique (fun _ _ => rfl) isDue
  · obtain ⟨otherJournal, otherReflects⟩ := otherReached.reflects
    obtain ⟨others, otherRoll, otherFits, otherAnswers⟩ := otherReflects.roll otherOpen otherBounded
    rw [otherAnswers]
    have otherLists := (otherRoll.listsDue other.urgency bucket (other.floor threshold)).due_of_not_astray
      (fun head has => otherFits head ((otherRoll.mem head).2 has)) otherWell
    exact congrArg Except.ok ((lists.due_of_not_astray small well).unique same otherLists).symm

/-- A stream that is ahead of its snapshot, one that its snapshots are ahead of, and one that is even with them, in both
engines. Under threshold 1 neither goes astray, and under 0 the database does. -/
theorem due_listed_beside_snapshots_ahead :
    let bucket : BucketId := ⟨"orders"⟩
    let key (name : String) : StreamKey := ⟨bucket, ⟨name⟩⟩
    let attempt (name : String) (bodies : List Bytes) : Attempt :=
      ⟨bucket, ⟨name⟩, UInt64.ofNat bodies.length, ⟨name⟩, 1, 0, [], bodies.map fun body => { body }⟩
    let calls : List Call := [.commit (attempt "a" [[1]]), .commit (attempt "b" [[1]]), .commit (attempt "c" [[1], [2]]),
      .addSnapshot ⟨key "a", 5, [5]⟩, .addSnapshot ⟨key "b", 1, [1]⟩, .addSnapshot ⟨key "c", 1, [1]⟩]
    let inMemory := Call.serveAll calls (MemoryStore.create {})
    let inDatabase := Call.serveAll calls (DatabaseStore.fresh {})
    ∀ engine history, (engine, history) ∈ [(Engine.memory inMemory.2, calls.zip inMemory.1),
        (Engine.database inDatabase.2, calls.zip inDatabase.1)] →
      engine.Reached history ∧ CommitStore.isDisposed engine = false ∧
        (∀ snapshot ∈ History.snapshots history, snapshot.revision ≤ maxRevision) ∧
        (∃ listed due, CommitStore.streamsToSnapshot bucket 1 engine = (.ok listed, engine.settled) ∧
          engine.ListsDue bucket (engine.floor 1) engine.urgency listed ∧
          engine.ListsDue bucket 1 StreamHead.backlog due ∧ (listed = due ↔ ¬ engine.Astray bucket 1) ∧
          ∀ {other : Engine} {past : History}, other.Reached past → CommitStore.isDisposed other = false →
            (∀ snapshot ∈ past.snapshots, snapshot.revision ≤ maxRevision) →
            (∀ key, key.bucket = bucket → (CommitStore.head key engine).1 = (CommitStore.head key other).1) →
            ¬ engine.Astray bucket 1 → ¬ other.Astray bucket 1 →
              (CommitStore.streamsToSnapshot bucket 1 other).1 = .ok listed) ∧
        (CommitStore.streamsToSnapshot bucket 1 engine).1 = .ok [⟨key "c", 2, 1⟩] := by
  intro bucket key attempt calls inMemory inDatabase engine history listed
  have cases : engine = .memory inMemory.2 ∧ history = calls.zip inMemory.1 ∨
      engine = .database inDatabase.2 ∧ history = calls.zip inDatabase.1 := by simpa using listed
  rcases cases with ⟨rfl, rfl⟩ | ⟨rfl, rfl⟩
  · have reached : Engine.Reached (.memory inMemory.2) (calls.zip inMemory.1) := .inMemory {} calls
    have isOpen : CommitStore.isDisposed (Engine.memory inMemory.2) = false := by decide +kernel
    have bounded : ∀ snapshot ∈ History.snapshots (calls.zip inMemory.1), snapshot.revision ≤ maxRevision := by
      decide +kernel
    exact ⟨reached, isOpen, bounded, due_listed reached isOpen bounded bucket 1, by decide +kernel⟩
  · have reached : Engine.Reached (.database inDatabase.2) (calls.zip inDatabase.1) := .inDatabase {} calls
    have isOpen : CommitStore.isDisposed (Engine.database inDatabase.2) = false := by decide +kernel
    have bounded : ∀ snapshot ∈ History.snapshots (calls.zip inDatabase.1), snapshot.revision ≤ maxRevision := by
      decide +kernel
    exact ⟨reached, isOpen, bounded, due_listed reached isOpen bounded bucket 1, by decide +kernel⟩

/-- Two rows that are due and out of order. -/
theorem DatabaseStore.streamsToSnapshot_two {store : DatabaseStore} (isOpen : store.handle.disposed = false)
    {bucket : BucketId} {threshold : UInt64} {first second : HeadRow}
    (rows : (store.db.heads.filter fun head => head.key.bucket = bucket &&
      (Column.ofWord threshold).toInt ≤ max (Database.HeadRow.lead head) 0) = [first, second])
    (later : Database.dueOrder first second = false) :
    store.streamsToSnapshot bucket threshold = .ok [second.toHead, first.toHead] := by
  rw [streamsToSnapshot, query_eq isOpen, Database.streamsToSnapshot, rows]
  simp [List.mergeSort, later]

/-- Two streams without events to cover, of which the first has a snapshot far ahead. A database does not list them by
name. -/
theorem listed_out_of_order :
    let bucket : BucketId := ⟨"default"⟩
    let key (name : String) : StreamKey := ⟨bucket, ⟨name⟩⟩
    let attempt (name : String) : Attempt := ⟨bucket, ⟨name⟩, 1, ⟨name⟩, 1, 0, [], [{ body := [1] }]⟩
    let calls : List Call := [.commit (attempt "a"), .commit (attempt "b"), .addSnapshot ⟨key "a", 5, [0]⟩,
      .addSnapshot ⟨key "b", 1, [0]⟩]
    let served := Call.serveAll calls (DatabaseStore.fresh {})
    (Engine.database served.2).Reached (calls.zip served.1) ∧
      (CommitStore.streamsToSnapshot bucket 0 (Engine.database served.2)).1 =
        .ok [⟨key "b", 1, 1⟩, ⟨key "a", 1, 5⟩] ∧
      ¬ (Engine.database served.2).ListsDue bucket 0 StreamHead.backlog [⟨key "b", 1, 1⟩, ⟨key "a", 1, 5⟩] := by
  intro bucket key attempt calls served
  have isOpen : served.2.handle.disposed = false := by decide +kernel
  have rows : (served.2.db.heads.filter fun head => head.key.bucket = bucket &&
      (Column.ofWord 0).toInt ≤ max (Database.HeadRow.lead head) 0) = [⟨key "a", 1, 5⟩, ⟨key "b", 1, 1⟩] := by
    decide +kernel
  refine ⟨.inDatabase {} calls, DatabaseStore.streamsToSnapshot_two isOpen rows (by decide), fun lists => ?_⟩
  rcases List.rel_of_pairwise_cons lists.order (List.mem_singleton_self _) with more | ⟨-, less⟩
  · exact absurd more (by decide)
  · exact absurd less (by decide)

end CommitLog
