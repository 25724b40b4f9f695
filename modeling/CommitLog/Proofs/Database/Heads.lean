import CommitLog.Proofs.Database.Rows
import CommitLog.Proofs.Ledger

/-!
Heads and snapshots as rows. As long as no snapshot is ahead of its stream and no revision is the
largest, the tables raise a head, find the newest snapshot and list what is due just as a ledger does.
-/

namespace CommitLog

def StreamHead.row (head : StreamHead) : HeadRow :=
  ⟨head.key, Column.ofWord head.revision, Column.ofWord head.snapshot⟩

def Snapshot.row (snapshot : Snapshot) : SnapshotRow :=
  ⟨snapshot.key, Column.ofWord snapshot.revision, snapshot.payload⟩

/-- The columns of a head have its numbers. -/
structure StreamHead.Stored (head : StreamHead) : Prop where
  revision : head.revision.toNat ≤ maxRevision.toNat
  snapshot : head.snapshot.toNat ≤ maxRevision.toNat

/-- The numbers of a head fit, and no snapshot is ahead of the stream. -/
structure StreamHead.Fits (head : StreamHead) : Prop where
  snapshot : head.snapshot.toNat ≤ head.revision.toNat
  revision : head.revision.toNat < maxRevision.toNat

theorem StreamHead.Fits.stored {head : StreamHead} (fits : head.Fits) : head.Stored :=
  ⟨Nat.le_of_lt fits.revision, Nat.le_trans fits.snapshot (Nat.le_of_lt fits.revision)⟩

/-! ### Words -/

namespace Column

theorem ofWord_lt_iff {a b : UInt64} (first : a.toNat ≤ maxRevision.toNat) (second : b.toNat ≤ maxRevision.toNat) :
    ofWord a < ofWord b ↔ a.toNat < b.toNat := by
  rw [Int64.lt_iff_toInt_lt, toInt_ofWord first, toInt_ofWord second]
  omega

theorem ofWord_inj {a b : UInt64} (first : a.toNat ≤ maxRevision.toNat) (second : b.toNat ≤ maxRevision.toNat) :
    ofWord a = ofWord b ↔ a = b := by
  constructor
  · intro same
    rw [← toWord_ofWord first, same, toWord_ofWord second]
  · rintro rfl
    rfl

/-- What does not fit is stored as the largest, so that a bound keeps what it lets through. -/
theorem ofWord_le_iff {a : UInt64} (fits : a.toNat ≤ maxRevision.toNat) (b : UInt64) :
    ofWord a ≤ ofWord b ↔ a.toNat ≤ b.toNat := by
  rw [Int64.le_iff_toInt_le, toInt_ofWord fits]
  by_cases small : b.toNat ≤ maxRevision.toNat
  · rw [toInt_ofWord small]
    omega
  · rw [toInt_ofWord_large (by omega)]
    omega

theorem ofWord_max {a b : UInt64} (first : a.toNat ≤ maxRevision.toNat) (second : b.toNat ≤ maxRevision.toNat) :
    (if ofWord a < ofWord b then ofWord b else ofWord a) = ofWord (max a b) := by
  have larger := toNat_max a b
  by_cases below : a.toNat < b.toNat
  · rw [if_pos ((ofWord_lt_iff first second).2 below)]
    exact congrArg ofWord (UInt64.toNat_inj.1 (by omega))
  · rw [if_neg fun less => below ((ofWord_lt_iff first second).1 less)]
    exact congrArg ofWord (UInt64.toNat_inj.1 (by omega))

end Column

/-! ### Heads -/

theorem StreamHead.Stored.toHead_row {head : StreamHead} (stored : head.Stored) : head.row.toHead = head := by
  rw [HeadRow.toHead, row, Column.toWord_ofWord stored.revision, Column.toWord_ofWord stored.snapshot]

/-- A head is raised in its row as it is in a ledger. -/
theorem Database.raiseHead_row {heads : List StreamHead} (fits : ∀ head ∈ heads, head.Fits) {revision : UInt64}
    (small : revision.toNat ≤ maxRevision.toNat) (key : StreamKey) :
    raiseHead key (Column.ofWord revision) (heads.map StreamHead.row) =
      (Memory.HeadUpdate.apply ⟨key, revision⟩ heads).map StreamHead.row := by
  induction heads with
  | nil => rfl
  | cons head rest ih =>
    have others := ih fun other member => fits other (by simp [member])
    have bound := (fits head (by simp)).revision
    have raised := Column.ofWord_max (Nat.le_of_lt bound) small
    by_cases same : head.key = key
    · have here : head.row.key = key := same
      rw [List.map_cons, raiseHead, if_pos here, Memory.HeadUpdate.apply, if_pos same]
      exact congrArg (fun revision => HeadRow.mk head.key revision (Column.ofWord head.snapshot) ::
        rest.map StreamHead.row) raised
    · have elsewhere : ¬ head.row.key = key := same
      rw [List.map_cons, raiseHead, if_neg elsewhere, others, Memory.HeadUpdate.apply, if_neg same]
      rfl

/-- A snapshot raises a head in its row as it does in a ledger. -/
theorem Database.raiseSnapshot_row {heads : List StreamHead} (fits : ∀ head ∈ heads, head.Fits) {snapshot : Snapshot}
    (small : snapshot.revision.toNat ≤ maxRevision.toNat) :
    ((heads.map StreamHead.row).map fun head =>
      if head.key = snapshot.key then
        { head with snapshot :=
            if head.snapshot < Column.ofWord snapshot.revision then Column.ofWord snapshot.revision
            else head.snapshot }
      else head) = (heads.map (MemoryStore.raiseSnapshot snapshot)).map StreamHead.row := by
  rw [List.map_map, List.map_map]
  refine List.map_congr_left fun head member => ?_
  have revision := (fits head member).revision
  have covered := (fits head member).snapshot
  have raised := Column.ofWord_max (Nat.le_trans covered (Nat.le_of_lt revision)) small
  by_cases same : head.key = snapshot.key
  · have here : head.row.key = snapshot.key := same
    rw [Function.comp_apply, Function.comp_apply, if_pos here, MemoryStore.raiseSnapshot, if_pos same]
    exact congrArg (HeadRow.mk head.key (Column.ofWord head.revision)) raised
  · have elsewhere : ¬ head.row.key = snapshot.key := same
    rw [Function.comp_apply, Function.comp_apply, if_neg elsewhere, MemoryStore.raiseSnapshot, if_neg same]

/-! ### What is due -/

namespace StreamHead

/-- How far a stream is ahead of its newest snapshot; negative if it is behind. -/
def lead (head : StreamHead) : Int := head.revision.toNat - head.snapshot.toNat

/-- The number of events that the newest snapshot does not cover. -/
def backlog (head : StreamHead) : Int := head.unsnapshotted.toNat

theorem backlog_eq (head : StreamHead) : head.backlog = max head.lead 0 := by
  rw [backlog, lead, unsnapshotted]
  split
  · next behind =>
    rw [UInt64.lt_iff_toNat_lt] at behind
    show ((0 : Nat) : Int) = _
    omega
  · next covered =>
    rw [UInt64.lt_iff_toNat_lt] at covered
    rw [UInt64.toNat_sub_of_le _ _ (UInt64.le_iff_toNat_le.2 (by omega))]
    omega

theorem Fits.backlog_eq {head : StreamHead} (fits : head.Fits) : head.backlog = head.lead := by
  have covered := fits.snapshot
  rw [head.backlog_eq, lead]
  omega

/-- The test by which heads are sorted: the more urgent comes first, and else the lesser name. -/
def byUrgency (urgency : StreamHead → Int) (a b : StreamHead) : Bool :=
  urgency b < urgency a || (urgency a = urgency b && a.key.stream.text ≤ b.key.stream.text)

theorem memory_order : MemoryStore.dueOrder = byUrgency backlog := by
  funext a b
  have more : b.unsnapshotted < a.unsnapshotted ↔ b.backlog < a.backlog := by
    rw [UInt64.lt_iff_toNat_lt, backlog, backlog]
    omega
  have same : a.unsnapshotted = b.unsnapshotted ↔ a.backlog = b.backlog := by
    rw [← UInt64.toNat_inj, backlog, backlog]
    omega
  rw [MemoryStore.dueOrder, byUrgency, decide_eq_decide.2 more, decide_eq_decide.2 same]

theorem Stored.lead_row {head : StreamHead} (stored : head.Stored) : Database.HeadRow.lead head.row = head.lead := by
  have one : head.row.revision.toInt = head.revision.toNat := Column.toInt_ofWord stored.revision
  have two : head.row.snapshot.toInt = head.snapshot.toNat := Column.toInt_ofWord stored.snapshot
  rw [Database.HeadRow.lead, one, two, lead]

/-- A threshold is stored as the largest revision if it is beyond. -/
theorem Stored.due_row {head : StreamHead} (stored : head.Stored) (threshold : UInt64) :
    (Column.ofWord threshold).toInt ≤ max (Database.HeadRow.lead head.row) 0 ↔
      min threshold maxRevision ≤ head.unsnapshotted := by
  have least : (Column.ofWord threshold).toInt = ((min threshold maxRevision).toNat : Int) := by
    rw [toNat_min]
    by_cases small : threshold.toNat ≤ maxRevision.toNat
    · rw [Column.toInt_ofWord small, Nat.min_eq_left small]
    · rw [Column.toInt_ofWord_large (by omega), Nat.min_eq_right (by omega)]
  rw [least, stored.lead_row, ← backlog_eq, backlog, UInt64.le_iff_toNat_le]
  omega

/-- A head whose lead cannot be the largest number is due in its row when it is due. -/
theorem Fits.due_row {head : StreamHead} (fits : head.Fits) (threshold : UInt64) :
    (Column.ofWord threshold).toInt ≤ max (Database.HeadRow.lead head.row) 0 ↔ threshold ≤ head.unsnapshotted := by
  have ahead := fits.backlog_eq
  have small := fits.revision
  have least := toNat_min threshold maxRevision
  rw [backlog, lead] at ahead
  rw [fits.stored.due_row, UInt64.le_iff_toNat_le, UInt64.le_iff_toNat_le]
  omega

theorem Stored.order_row {a b : StreamHead} (first : a.Stored) (second : b.Stored) :
    byUrgency lead a b = Database.dueOrder a.row b.row := by
  rw [byUrgency, Database.dueOrder, first.lead_row, second.lead_row]
  rfl

theorem Fits.order_row {a b : StreamHead} (first : a.Fits) (second : b.Fits) :
    MemoryStore.dueOrder a b = Database.dueOrder a.row b.row := by
  rw [memory_order, ← first.stored.order_row second.stored, byUrgency, byUrgency, first.backlog_eq, second.backlog_eq]

end StreamHead

/-- The heads come out of the table as they are filtered and sorted by tests that agree with those of the table. -/
theorem Database.due_rows {heads : List StreamHead} (stored : ∀ head ∈ heads, head.Stored)
    {before : StreamHead → StreamHead → Bool} (order : ∀ a ∈ heads, ∀ b ∈ heads, before a b = dueOrder a.row b.row)
    {threshold least : UInt64} (due : ∀ head ∈ heads,
      (Column.ofWord threshold).toInt ≤ max (HeadRow.lead head.row) 0 ↔ least ≤ head.unsnapshotted) (bucket : BucketId) :
    (((heads.map StreamHead.row).filter fun head =>
      head.key.bucket = bucket &&
        (Column.ofWord threshold).toInt ≤ max (HeadRow.lead head) 0).mergeSort dueOrder).map HeadRow.toHead =
      (heads.filter fun head => head.key.bucket = bucket ∧ least ≤ head.unsnapshotted).mergeSort before := by
  have kept : ((heads.map StreamHead.row).filter fun head =>
      head.key.bucket = bucket && (Column.ofWord threshold).toInt ≤ max (HeadRow.lead head) 0) =
        (heads.filter fun head => head.key.bucket = bucket ∧ least ≤ head.unsnapshotted).map StreamHead.row := by
    rw [List.filter_map]
    refine congrArg (List.map StreamHead.row) (List.filter_congr fun head member => ?_)
    have key : head.row.key = head.key := rfl
    rw [Function.comp_apply, key, decide_eq_decide.2 (due head member), Bool.decide_and]
  have listed : ∀ head ∈ heads.filter fun head => head.key.bucket = bucket ∧ least ≤ head.unsnapshotted, head ∈ heads :=
    fun head member => (List.mem_filter.1 member).1
  rw [kept, ← List.map_mergeSort fun a first b second => order a (listed a first) b (listed b second), List.map_map]
  refine (List.map_congr_left fun head member => ?_).trans (List.map_id _)
  exact (stored head (listed head (List.mem_mergeSort.1 member))).toHead_row

/-! ### The newest snapshot -/

/-- The newest snapshot is one of those looked at, and none of them is of a greater revision. -/
theorem MemoryStore.newest_cons (first : Snapshot) (others : List Snapshot) :
    ∃ found ∈ first :: others, newest (first :: others) = some found ∧
      ∀ other ∈ first :: others, other.revision.toNat ≤ found.revision.toNat := by
  unfold newest
  rw [List.foldl_cons]
  induction others generalizing first with
  | nil => exact ⟨first, by simp, rfl, by simp⟩
  | cons second others ih =>
    rw [List.foldl_cons]
    by_cases newer : first.revision < second.revision
    · obtain ⟨found, member, same, greatest⟩ := ih second
      refine ⟨found, by simp [List.mem_cons.1 member], ?_, ?_⟩
      · simpa [newer] using same
      · intro other inside
        rcases List.mem_cons.1 inside with rfl | later
        · have least := greatest second (by simp)
          rw [UInt64.lt_iff_toNat_lt] at newer
          omega
        · exact greatest other later
    · obtain ⟨found, member, same, greatest⟩ := ih first
      refine ⟨found, ?_, ?_, ?_⟩
      · rcases List.mem_cons.1 member with rfl | later
        · simp
        · simp [later]
      · simpa [newer] using same
      · intro other inside
        have least := greatest first (by simp)
        rcases List.mem_cons.1 inside with rfl | later
        · exact least
        · rcases List.mem_cons.1 later with rfl | last
          · rw [UInt64.lt_iff_toNat_lt] at newer
            omega
          · exact greatest other (by simp [last])

/-- The newest snapshot comes out of the table as it comes out of a ledger. -/
theorem Database.newest_row {snapshots : List Snapshot}
    (fits : ∀ snapshot ∈ snapshots, snapshot.revision.toNat ≤ maxRevision.toNat)
    (single : snapshots.Pairwise fun a b => a.revision ≠ b.revision) :
    ((snapshots.map Snapshot.row).mergeSort fun a b => b.revision.toInt ≤ a.revision.toInt).head?.map
      SnapshotRow.toSnapshot = MemoryStore.newest snapshots := by
  cases snapshots with
  | nil => simp [MemoryStore.newest]
  | cons first others =>
    have distinct : ((first :: others).map Snapshot.revision).Nodup := List.pairwise_map.2 single
    obtain ⟨found, member, newest, greatest⟩ := MemoryStore.newest_cons first others
    have column : ∀ snapshot ∈ first :: others, snapshot.row.revision.toInt = snapshot.revision.toNat :=
      fun snapshot inside => Column.toInt_ofWord (fits snapshot inside)
    have head := @head?_mergeSort _ (fun row : SnapshotRow => row.revision.toInt)
      ((first :: others).map Snapshot.row) found.row (List.mem_map_of_mem member) ?_ ?_
    · rw [newest, head, Option.map_some, SnapshotRow.toSnapshot]
      have back : Column.toWord found.row.revision = found.revision := Column.toWord_ofWord (fits found member)
      rw [back]
      rfl
    · intro row inside
      obtain ⟨other, known, rfl⟩ := List.mem_map.1 inside
      have bound := greatest other known
      rw [column other known, column found member]
      omega
    · intro row inside same
      obtain ⟨other, known, rfl⟩ := List.mem_map.1 inside
      rw [column other known, column found member] at same
      rw [List.inj_on_of_nodup_map distinct known member (UInt64.toNat_inj.1 (by omega))]

/-- A table of snapshots that are each alone in their place gives the newest up to a revision as a ledger does. -/
theorem Database.snapshot?_eq {db : Database} {snapshots : List Snapshot} (rows : db.snapshots = snapshots.map Snapshot.row)
    (fits : ∀ snapshot ∈ snapshots, snapshot.revision.toNat ≤ maxRevision.toNat)
    (single : snapshots.Pairwise fun a b => a.key = b.key → a.revision ≠ b.revision) (key : StreamKey) (most : UInt64) :
    (db.snapshot? key most).map SnapshotRow.toSnapshot =
      MemoryStore.newest (snapshots.filter fun snapshot => snapshot.key = key ∧ snapshot.revision ≤ most) := by
  have kept : (db.snapshots.filter fun row => row.key = key ∧ row.revision ≤ Column.ofWord most) =
      (snapshots.filter fun snapshot => snapshot.key = key ∧ snapshot.revision ≤ most).map Snapshot.row := by
    rw [rows, List.filter_map]
    refine congrArg (List.map Snapshot.row) (List.filter_congr fun snapshot member => ?_)
    have bound := Column.ofWord_le_iff (fits snapshot member) most
    rw [← UInt64.le_iff_toNat_le] at bound
    exact decide_eq_decide.2 (and_congr_right' bound)
  rw [Database.snapshot?, kept]
  refine newest_row (fun snapshot member => fits snapshot (List.mem_filter.1 member).1) ?_
  refine List.Pairwise.imp_of_mem (fun {a b} first second distinct => ?_) (single.sublist List.filter_sublist)
  have one := of_decide_eq_true (List.mem_filter.1 first).2
  have two := of_decide_eq_true (List.mem_filter.1 second).2
  exact distinct (one.1.trans two.1.symm)

/-- A revision is taken in a table of snapshots if it is in a ledger. -/
theorem Database.any_row {db : Database} {snapshots : List Snapshot} (rows : db.snapshots = snapshots.map Snapshot.row)
    (fits : ∀ snapshot ∈ snapshots, snapshot.revision.toNat ≤ maxRevision.toNat) {revision : UInt64}
    (small : revision.toNat ≤ maxRevision.toNat) (key : StreamKey) :
    (db.snapshots.any fun row => row.key = key ∧ row.revision = Column.ofWord revision) =
      snapshots.any fun other => other.key = key ∧ other.revision = revision := by
  rw [rows, List.any_map, Bool.eq_iff_iff, List.any_eq_true, List.any_eq_true]
  refine exists_congr fun other => and_congr_right fun member => ?_
  have same := Column.ofWord_inj (fits other member) small
  exact decide_eq_decide.2 (and_congr_right' same) ▸ Iff.rfl

end CommitLog
