import CommitLog.Proofs.Database.Heads

/-!
What a ledger must be like for a database to answer as it does (`Ledger.Portable`): every commit comes
back from its row as it was, and no snapshot is ahead of its stream. A ledger stays so as long as the
commits it accepts and the snapshots it is given are so (`Portable.answer`).
-/

namespace CommitLog

/-- A commit that comes back from its row as it was, and is not of the largest revision. -/
structure Commit.Portable (commit : Commit) : Prop where
  storable : commit.Storable
  stamp : commit.stamp.toNat ≤ maxRevision.toNat
  revision : commit.revision.toNat < maxRevision.toNat

namespace Ledger

structure Portable (ledger : Ledger) : Prop where
  commits : ∀ commit ∈ ledger.commits, commit.Portable
  heads : ∀ head ∈ ledger.heads, head.Fits
  keys : (ledger.heads.map StreamHead.key).Nodup
  snapshots : ∀ snapshot ∈ ledger.snapshots, snapshot.revision.toNat ≤ maxRevision.toNat
  single : ledger.snapshots.Pairwise fun a b => a.key = b.key → a.revision ≠ b.revision

/-- A call that adds only what is portable. -/
structure Permits (ledger : Ledger) (call : Call) : Prop where
  commits : ∀ commit, (ledger.answer call).1.accepted = some commit → commit.Portable
  snapshots : ledger.disposed = false → ∀ snapshot, call = .addSnapshot snapshot →
    ∀ head, ledger.head? snapshot.key = some head → snapshot.revision.toNat ≤ head.revision.toNat

theorem Portable.empty : Portable {} where
  commits commit member := by simp [Journal.commits] at member
  heads head member := by simp at member
  keys := .nil
  snapshots snapshot member := by simp at member
  single := .nil

/-! ### Heads -/

theorem apply_fits {heads : List StreamHead} (fits : ∀ head ∈ heads, head.Fits) {update : Memory.HeadUpdate}
    (small : update.revision.toNat < maxRevision.toNat) : ∀ head ∈ update.apply heads, head.Fits := by
  induction heads with
  | nil =>
    intro head member
    rw [List.mem_singleton.1 member]
    exact ⟨Nat.zero_le _, small⟩
  | cons first rest ih =>
    intro head member
    rw [Memory.HeadUpdate.apply] at member
    split at member
    · rcases List.mem_cons.1 member with rfl | later
      · have larger := toNat_max first.revision update.revision
        have snapshot := (fits first (by simp)).snapshot
        have revision := (fits first (by simp)).revision
        constructor
        · show first.snapshot.toNat ≤ (max first.revision update.revision).toNat
          omega
        · show (max first.revision update.revision).toNat < maxRevision.toNat
          omega
      · exact fits head (by simp [later])
    · rcases List.mem_cons.1 member with rfl | later
      · exact fits head (by simp)
      · exact ih (fun other inside => fits other (by simp [inside])) head later

theorem apply_keys (heads : List StreamHead) (update : Memory.HeadUpdate) :
    (update.apply heads).map StreamHead.key =
      if update.key ∈ heads.map StreamHead.key then heads.map StreamHead.key
      else heads.map StreamHead.key ++ [update.key] := by
  induction heads with
  | nil => simp [Memory.HeadUpdate.apply]
  | cons first rest ih =>
    rw [Memory.HeadUpdate.apply]
    by_cases same : first.key = update.key
    · simp [same]
    · have other : ¬ update.key = first.key := fun equal => same equal.symm
      rw [if_neg same, List.map_cons, ih, List.map_cons]
      by_cases known : update.key ∈ rest.map StreamHead.key
      · rw [if_pos known, if_pos (List.mem_cons_of_mem _ known)]
      · rw [if_neg known, if_neg (by simp [other, known])]
        rfl

variable {ledger : Ledger}

/-! ### Steps -/

theorem Portable.accept (portable : ledger.Portable) {attempt : Attempt} {checkpoint : Checkpoint}
    (added : (attempt.toCommit checkpoint).Portable) : (ledger.accept attempt checkpoint).Portable where
  commits commit member := by
    have all : (ledger.accept attempt checkpoint).commits = ledger.commits ++ [attempt.toCommit checkpoint] :=
      Journal.commits_accept _ _ _
    rw [all] at member
    rcases List.mem_append.1 member with earlier | last
    · exact portable.commits commit earlier
    · rw [List.mem_singleton.1 last]
      exact added
  heads := apply_fits portable.heads added.revision
  keys := by
    show ((Memory.HeadUpdate.apply ⟨attempt.key, attempt.revision⟩ ledger.heads).map StreamHead.key).Nodup
    rw [apply_keys]
    split
    · exact portable.keys
    · next new =>
      rw [List.nodup_append]
      refine ⟨portable.keys, by simp, ?_⟩
      rintro key known other last rfl
      exact new (by simpa [List.mem_singleton.1 last] using known)
  snapshots := portable.snapshots
  single := portable.single

theorem Portable.remove (portable : ledger.Portable) (gone : StreamKey → Bool) : (ledger.remove gone).Portable where
  commits commit member := by
    have all : (ledger.remove gone).commits = ledger.commits.filter fun commit => !gone commit.key :=
      Journal.commits_remove _ _
    rw [all] at member
    exact portable.commits commit (List.mem_filter.1 member).1
  heads head member := portable.heads head (List.mem_filter.1 member).1
  keys := portable.keys.sublist (List.filter_sublist.map _)
  snapshots snapshot member := portable.snapshots snapshot (List.mem_filter.1 member).1
  single := portable.single.sublist List.filter_sublist

theorem Portable.dispatch (portable : ledger.Portable) (checkpoint : Checkpoint) :
    Portable { ledger with toJournal := ledger.toJournal.dispatch checkpoint } where
  commits commit member := by
    have all : (ledger.toJournal.dispatch checkpoint).commits = ledger.commits := Journal.commits_dispatch _ _
    exact portable.commits commit (all ▸ member)
  heads := portable.heads
  keys := portable.keys
  snapshots := portable.snapshots
  single := portable.single

theorem Portable.dispose (portable : ledger.Portable) : Portable { ledger with disposed := true } where
  commits := portable.commits
  heads := portable.heads
  keys := portable.keys
  snapshots := portable.snapshots
  single := portable.single

/-- The head of a stream is the only one of its key. -/
theorem Portable.head_eq (portable : ledger.Portable) {head other : StreamHead} (member : head ∈ ledger.heads)
    (found : ledger.head? head.key = some other) : head = other := by
  have key : other.key = head.key := by
    have := List.find?_some found
    exact of_decide_eq_true this
  exact List.inj_on_of_nodup_map portable.keys member (List.mem_of_find?_eq_some found) key.symm

/-- A snapshot that is not ahead of its stream leaves the head in order. -/
theorem raiseSnapshot_fits {head : StreamHead} (fits : head.Fits) {snapshot : Snapshot}
    (covered : head.key = snapshot.key → snapshot.revision.toNat ≤ head.revision.toNat) :
    (MemoryStore.raiseSnapshot snapshot head).Fits := by
  unfold MemoryStore.raiseSnapshot
  split
  · next same =>
    have larger := toNat_max head.snapshot snapshot.revision
    have earlier := fits.snapshot
    have bound := covered same
    refine ⟨?_, fits.revision⟩
    show (max head.snapshot snapshot.revision).toNat ≤ head.revision.toNat
    omega
  · exact fits

theorem raiseSnapshot_keys (heads : List StreamHead) (snapshot : Snapshot) :
    (heads.map (MemoryStore.raiseSnapshot snapshot)).map StreamHead.key = heads.map StreamHead.key := by
  rw [List.map_map]
  refine List.map_congr_left fun head _ => ?_
  rw [Function.comp_apply, MemoryStore.raiseSnapshot]
  split <;> rfl

theorem Portable.addSnapshot (portable : ledger.Portable) {snapshot : Snapshot}
    (covered : ∀ head, ledger.head? snapshot.key = some head → snapshot.revision.toNat ≤ head.revision.toNat) :
    (ledger.addSnapshot snapshot).2.Portable := by
  unfold Ledger.addSnapshot
  split
  · exact portable
  next present =>
  split
  · exact portable
  next new =>
  obtain ⟨head, found⟩ : ∃ head, ledger.head? snapshot.key = some head := by
    cases known : ledger.head? snapshot.key with
    | none => simp [known] at present
    | some head => exact ⟨head, rfl⟩
  have bound := covered head found
  have small := (portable.heads head (List.mem_of_find?_eq_some found)).revision
  constructor
  · exact portable.commits
  · intro raised member
    obtain ⟨old, inside, rfl⟩ := List.mem_map.1 member
    refine raiseSnapshot_fits (portable.heads old inside) fun same => ?_
    rw [← same] at found
    rw [portable.head_eq inside found]
    exact bound
  · show ((ledger.heads.map (MemoryStore.raiseSnapshot snapshot)).map StreamHead.key).Nodup
    rw [raiseSnapshot_keys]
    exact portable.keys
  · intro other member
    rcases List.mem_append.1 member with earlier | last
    · exact portable.snapshots other earlier
    · rw [List.mem_singleton.1 last]
      omega
  · rw [List.pairwise_append]
    refine ⟨portable.single, by simp, ?_⟩
    intro other earlier added last sameKey sameRevision
    rw [List.mem_singleton.1 last] at sameKey sameRevision
    refine new (List.any_eq_true.2 ⟨other, earlier, ?_⟩)
    simp [sameKey, sameRevision]

/-- A ledger stays portable as long as what is added to it is. -/
theorem Portable.answer (portable : ledger.Portable) {call : Call} (permits : ledger.Permits call) :
    (ledger.answer call).2.Portable := by
  cases isOpen : ledger.disposed with
  | true =>
    rw [answer_of_disposed isOpen]
    cases call <;> exact portable
  | false =>
    have added := permits.commits
    rw [answer_of_open isOpen] at added ⊢
    cases call with
    | commit attempt =>
      show (ledger.commit attempt).2.Portable
      have made : ∀ commit, (ledger.commit attempt).1.accepted = some commit → commit.Portable := added
      unfold Ledger.commit at made ⊢
      split
      · exact portable
      next taken =>
      rw [taken] at made
      split
      · exact portable
      next checkpoint next =>
      rw [next] at made
      exact portable.accept (made _ rfl)
    | markDispatched checkpoint => exact portable.dispatch checkpoint
    | addSnapshot snapshot => exact portable.addSnapshot (permits.snapshots isOpen snapshot rfl)
    | deleteStream key => exact portable.remove _
    | purgeBucket bucket => exact portable.remove _
    | purge => exact portable.remove _
    | dispose => exact portable.dispose
    | _ => exact portable

end Ledger
end CommitLog
