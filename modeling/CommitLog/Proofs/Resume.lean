import CommitLog.Proofs.Heads
import CommitLog.Proofs.Window

/-!
A stream that is resumed from a snapshot is the stream that is replayed from its beginning, without the events
that the snapshot stands for (`resume_eq_replay`). A snapshot does not say how many commits it covers. They are
counted by the later commits that are read, or, if there are none, by the one that the snapshot ends with.
-/

namespace CommitLog

/-- The revision after one that is stored is still a word. -/
theorem Overflow.exists_sum_one {revision : UInt64} (small : revision.toNat ≤ maxRevision.toNat) :
    ∃ least : UInt64, Overflow.sum revision 1 = .ok least ∧ least.toNat = revision.toNat + 1 := by
  have limit : maxRevision.toNat = 9223372036854775807 := rfl
  have size : UInt64.size = 18446744073709551616 := rfl
  have fits : revision.toNat + 1 < UInt64.size := by omega
  exact ⟨_, if_pos fits, UInt64.toNat_ofNat_of_lt' fits⟩

/-- The sequence after taking in commits that follow the first of their log. -/
theorem Orderly.sequence_foldl {before chunk : List Commit} (orderly : Orderly (before ++ chunk)) (sequence : UInt64) :
    (chunk.foldl (fun sequence commit => max sequence commit.sequence) sequence).toNat =
      if chunk = [] then sequence.toNat else max sequence.toNat (before ++ chunk).length := by
  induction chunk using List.reverseRecOn with
  | nil => rfl
  | append_singleton chunk last ih =>
    rw [← List.append_assoc] at orderly
    have others := ih orderly.left
    have counted := orderly.last.2
    have some : chunk ++ [last] ≠ [] := by simp
    rw [List.foldl_append, List.foldl_cons, List.foldl_nil, toNat_max, counted, others, if_neg some]
    simp only [List.length_append, List.length_singleton]
    split <;> omega

namespace EventStream

/-- The revision after taking in what follows the stream. -/
theorem revision_taking {least most : UInt64} {before chunk : List Commit} {stream : EventStream}
    (follows : least.toNat - 1 ≤ stream.revision.toNat)
    (reached : stream.revision.toNat ≤ ((Commit.eventsOf (before ++ chunk)).take most.toNat).length) :
    (stream.taking least most before chunk).revision.toNat =
      ((Commit.eventsOf (before ++ chunk)).take most.toNat).length := by
  have bound : ((Commit.eventsOf (before ++ chunk)).take most.toNat).length ≤ most.toNat := List.length_take_le _ _
  have size : UInt64.size = 18446744073709551616 := rfl
  have small := most.toNat_lt
  rw [taking, skip_eq follows]
  dsimp only
  split
  · rw [UInt64.toNat_ofNat_of_lt' (by omega)]
  · omega

/-- A stream as a snapshot leaves it, without the events since then. -/
def ofSnapshot (snapshot : Snapshot) : EventStream := { create snapshot.key with revision := snapshot.revision }

/-- What a stream of a snapshot takes in is what a new stream takes in, without the events up to the snapshot. -/
theorem taking_ofSnapshot {snapshot : Snapshot} {least most : UInt64} {before chunk : List Commit}
    (next : least.toNat = snapshot.revision.toNat + 1)
    (reached : snapshot.revision.toNat ≤ ((Commit.eventsOf (before ++ chunk)).take most.toNat).length) :
    ((ofSnapshot snapshot).taking least most before chunk).committed =
        ((create snapshot.key).taking 0 most [] (before ++ chunk)).committed.drop snapshot.revision.toNat ∧
      ((ofSnapshot snapshot).taking least most before chunk).revision =
        ((create snapshot.key).taking 0 most [] (before ++ chunk)).revision := by
  have behind : least.toNat - 1 = (ofSnapshot snapshot).revision.toNat := by
    rw [next]
    rfl
  constructor
  · have all : (create snapshot.key).skip 0 = 0 := rfl
    have rest : (ofSnapshot snapshot).skip least = snapshot.revision.toNat := skip_eq (Nat.le_of_eq behind)
    rw [taking, taking, all, rest]
    rfl
  · rw [← UInt64.toNat_inj, revision_taking (Nat.le_of_eq behind) reached,
      revision_taking (Nat.zero_le _) (Nat.zero_le _)]
    rfl

/-- What resuming does once the commits after the snapshot have been read. -/
theorem resume_eq {σ : Type} [CommitStore σ] {store : σ} {snapshot : Snapshot} {least most : UInt64}
    {commits : List Commit} {taken : EventStream} (sum : Overflow.sum snapshot.revision 1 = .ok least)
    (read : CommitStore.getFrom snapshot.key least most store = (.ok commits, store))
    (populated : populate least most commits (ofSnapshot snapshot) = (.ok (), taken)) :
    resume snapshot most store =
      if commits.isEmpty then
        match CommitStore.getFrom snapshot.key snapshot.revision snapshot.revision store with
        | (.error error, store) => (.error error, store)
        | (.ok covering, store) => (.ok (taken.adoptLast covering), store)
      else (.ok taken, store) := by
  have start : ({ create snapshot.key with revision := snapshot.revision } : EventStream) = ofSnapshot snapshot := rfl
  rw [resume, sum]
  dsimp only
  rw [read]
  dsimp only
  rewrite [start, populated]
  rfl

/-- The last of the commits tells the sequence, if there is one. -/
theorem adoptLast_eq (commits : List Commit) (stream : EventStream) :
    (stream.adoptLast commits).committed = stream.committed ∧ (stream.adoptLast commits).revision = stream.revision ∧
      (stream.adoptLast commits).sequence =
        (commits.getLast?.map fun commit => commit.sequence).getD stream.sequence := by
  rw [adoptLast]
  cases commits.getLast? <;> exact ⟨rfl, rfl, rfl⟩

/-- A resumed stream continues where the replayed one is, without the events that a snapshot stands for. -/
structure Continues (resumed replayed : EventStream) (snapshot : Snapshot) : Prop where
  committed : resumed.committed = replayed.committed.drop snapshot.revision.toNat
  revision : resumed.revision = replayed.revision
  sequence : resumed.sequence = replayed.sequence

end EventStream

namespace Engine

open EventStream

variable {readable : Commit → Prop} {engine : Engine} {journal : Journal} {accepted : List Commit} {key : StreamKey}

theorem sequence_shows (engine : Engine) (commit : Commit) : (engine.shows commit).sequence = commit.sequence := by
  cases engine <;> rfl

/-- A stream is replayed up to `most` by taking in the commits that start no later. -/
theorem Holds.replay (holds : engine.Holds readable journal) (sound : journal.Sound accepted)
    (known : ∀ commit ∈ journal.stream key, readable commit) {most : UInt64} {chunk later : List Commit}
    (window : Window 0 most (journal.stream key) [] chunk later) :
    openWindow key 0 most engine = (.ok ((create key).taking 0 most [] chunk), engine) := by
  have orderly := sound.orderly key
  obtain ⟨start, before, shown, rest, -, exact, opened, read⟩ := holds.window sound known 0 most
  have zero : start = 0 := exact (Nat.zero_le _)
  have same : shown = chunk := by rw [← window.filter, ← opened.filter, zero]
  have first : Orderly ([] ++ chunk) := by
    rw [window.split] at orderly
    exact orderly.left
  have populated := @populate_eq 0 most [] chunk (create key) first (fun commit member => (window.within commit member).2)
    (by simp [Commit.eventsOf])
  rw [openWindow, read, same]
  dsimp only
  rw [populate_shows, populated]
  rfl

/-- A window on the last revision of some commits shows the last of them. -/
theorem Holds.covering (holds : engine.Holds readable journal) (sound : journal.Sound accepted)
    (known : ∀ commit ∈ journal.stream key, readable commit) {before later : List Commit}
    (split : journal.stream key = before ++ later) {revision : UInt64}
    (ends : revision.toNat = (Commit.eventsOf before).length) :
    ∃ commits, CommitStore.getFrom key revision revision engine = (.ok commits, engine) ∧
      ((commits.getLast?.map fun commit : Commit => commit.sequence).getD 0).toNat = before.length := by
  have orderly := sound.orderly key
  have ascending := orderly.ascending
  have small : revision.toNat ≤ maxRevision.toNat := by
    rw [ends]
    rw [split] at orderly
    exact orderly.few
  obtain ⟨start, _, shown, _, -, exact, opened, read⟩ := holds.window sound known revision revision
  refine ⟨shown.map engine.shows, read, ?_⟩
  rw [exact small] at opened
  rw [split] at orderly ascending
  rcases List.eq_nil_or_concat before with rfl | ⟨earlier, last, rfl⟩
  · -- Before the first event there is nothing to be shown.
    have none : shown = [] := by
      refine List.eq_nil_iff_forall_not_mem.2 fun commit member => ?_
      have bounds := opened.within commit member
      have inStream : commit ∈ journal.stream key := by
        rw [opened.split]
        simp [member]
      have covers := (sound.fits (List.mem_filter.1 inStream).1).covers
      simp only [Commit.eventsOf, List.flatMap_nil, List.length_nil] at ends
      omega
    rw [none]
    rfl
  · rw [List.concat_eq_append] at split ends orderly ascending ⊢
    obtain ⟨ended, counted⟩ := orderly.left.last
    have events := List.length_pos_iff.2 (orderly.fits last (by simp)).events
    have window : Window revision revision (journal.stream key) earlier [last] later := by
      obtain ⟨first, -, above⟩ := List.pairwise_append.1 ascending
      constructor
      · exact split
      · intro commit member
        have below := (List.pairwise_append.1 first).2.2 commit member last (by simp)
        omega
      · intro commit member
        rw [List.mem_singleton.1 member]
        omega
      · intro commit member
        have beyond := above last (by simp) commit member
        omega
    have one : shown = [last] := by rw [← window.filter, ← opened.filter]
    rw [one, ← counted]
    exact congrArg UInt64.toNat (engine.sequence_shows last)

/-- A stream is resumed from a snapshot where it is replayed to, wherever the snapshot and the end of the window
lie in the log. -/
theorem Holds.resume (holds : engine.Holds readable journal) (sound : journal.Sound accepted)
    {snapshot : Snapshot} (known : ∀ commit ∈ journal.stream snapshot.key, readable commit) {most : UInt64}
    (covered : snapshot.revision.toNat ≤ (Commit.eventsOf (journal.stream snapshot.key)).length)
    (inside : snapshot.revision ≤ most) :
    ∃ replayed resumed, openWindow snapshot.key 0 most engine = (.ok replayed, engine) ∧
      EventStream.resume snapshot most engine = (.ok resumed, engine) ∧ Continues resumed replayed snapshot := by
  have orderly := sound.orderly snapshot.key
  have few := @Orderly.few (journal.stream snapshot.key) [] (by rwa [List.append_nil])
  obtain ⟨least, sum, next⟩ := Overflow.exists_sum_one (Nat.le_trans covered few)
  rw [UInt64.le_iff_toNat_le] at inside
  obtain ⟨start, before, chunk, later, early, -, window, read⟩ := holds.window sound known least most
  have replayed := holds.replay sound known (window.from_beginning orderly (by omega))
  have skipped := window.skipped orderly
  have part := congrArg List.length (window.take_eq orderly)
  rw [List.length_take, List.length_take] at part
  rw [window.split] at orderly
  have reached : snapshot.revision.toNat ≤ ((Commit.eventsOf (before ++ chunk)).take most.toNat).length := by
    rw [List.length_take]
    omega
  obtain ⟨committed, revision⟩ := taking_ofSnapshot next reached
  have counted := @Orderly.sequence_foldl [] (before ++ chunk) orderly.left 0
  have behind : (ofSnapshot snapshot).skip least = snapshot.revision.toNat :=
    skip_eq (Nat.le_of_eq (by rw [next]; rfl))
  have populated := @populate_eq least most before chunk (ofSnapshot snapshot) orderly.left
    (fun commit member => (window.within commit member).2) (by omega)
  rw [← engine.populate_shows] at populated
  have opened := resume_eq sum read populated
  by_cases none : chunk = []
  · -- No later commit tells the sequence, so the one that the snapshot ends with is asked for.
    subst none
    rw [List.append_nil] at part counted
    have ends : snapshot.revision.toNat = (Commit.eventsOf before).length := by omega
    have split : journal.stream snapshot.key = before ++ later := by rw [window.split, List.append_nil]
    obtain ⟨commits, covering, sequence⟩ := holds.covering sound known split ends
    rw [covering] at opened
    obtain ⟨sameCommitted, sameRevision, adopted⟩ := adoptLast_eq commits ((ofSnapshot snapshot).taking least most before [])
    refine ⟨_, _, replayed, opened, ?_, ?_, ?_⟩
    · rw [sameCommitted, committed]
    · rw [sameRevision, revision]
    · rw [adopted, List.append_nil, ← UInt64.toNat_inj]
      refine sequence.trans (Eq.trans ?_ counted.symm)
      cases before <;> simp
  · have some : ¬ (chunk.map engine.shows).isEmpty = true := by simpa using none
    have later := @Orderly.sequence_foldl before chunk orderly.left 0
    rw [if_neg some] at opened
    rw [if_neg none] at later
    rw [if_neg (by simp [none])] at counted
    refine ⟨_, _, replayed, opened, committed, revision, ?_⟩
    rw [← UInt64.toNat_inj]
    exact later.trans counted.symm

end Engine

/-- In every state that a run can reach, a stream can be resumed from a snapshot anywhere up to its head, and is
then what it would be if it had been replayed from the beginning. -/
theorem resume_eq_replay {engine : Engine} (fresh : engine.Fresh) {calls : List Call} (kept : .dispose ∉ calls)
    (key : StreamKey)
    (restores : ∀ commit ∈ Call.accepted (Call.serveAll calls engine).1, commit.key = key → engine.Restores commit) :
    let store := (Call.serveAll calls engine).2
    ∃ head after, CommitStore.head key store = (.ok head, after) ∧
      ∀ (snapshot : Snapshot) (most : UInt64), snapshot.key = key →
        snapshot.revision ≤ (head.map StreamHead.revision).getD 0 → snapshot.revision ≤ most →
          ∃ replayed resumed, EventStream.openWindow key 0 most store = (.ok replayed, store) ∧
            EventStream.resume snapshot most store = (.ok resumed, store) ∧
            EventStream.Continues resumed replayed snapshot := by
  intro store
  obtain ⟨journal, sound, headed⟩ := fresh.headed.serveAll .empty kept
  rw [List.nil_append] at sound
  obtain ⟨head, after, answered, -, same⟩ := headed.head sound key
  refine ⟨head, after, answered, ?_⟩
  rintro snapshot most rfl covered inside
  rw [same, UInt64.le_iff_toNat_le, sound.reached_eq] at covered
  exact headed.holds.resume sound (sound.forall_stream restores) covered inside

/-- Two commits of two events each, and a snapshot in the midst of the second. -/
theorem resume_eq_replay_inside_commit :
    let attempt (name : String) (revision sequence : UInt64) : Attempt :=
      ⟨⟨"orders"⟩, ⟨"7"⟩, revision, ⟨name⟩, sequence, 0, [], [{ body := [1] }, { body := [2] }]⟩
    let calls : List Call := [.commit (attempt "placed" 2 1), .commit (attempt "paid" 4 2)]
    let snapshot : Snapshot := ⟨⟨⟨"orders"⟩, ⟨"7"⟩⟩, 3, [0]⟩
    let run := Call.serveAll calls (.database (DatabaseStore.fresh {}) : Engine)
    .dispose ∉ calls ∧
      (∀ commit ∈ Call.accepted run.1, commit.key = snapshot.key → commit.Storable) ∧
      ∃ replayed resumed, EventStream.openWindow snapshot.key 0 4 run.2 = (.ok replayed, run.2) ∧
        EventStream.resume snapshot 4 run.2 = (.ok resumed, run.2) ∧
        EventStream.Continues resumed replayed snapshot ∧
        (resumed.committed.map Event.body, resumed.revision, resumed.sequence) = ([[2]], 4, 2) := by
  intro attempt calls snapshot run
  have kept : .dispose ∉ calls := by simp [calls]
  have bare : ((Call.accepted run.1).all fun commit =>
      commit.headers.isEmpty && commit.events.all fun event => event.headers.isEmpty) = true := by
    decide +kernel
  have storable : ∀ commit ∈ Call.accepted run.1, commit.key = snapshot.key → commit.Storable :=
    fun commit member _ => Commit.storable_of_bare bare commit member
  obtain ⟨head, after, answered, continues⟩ :=
    resume_eq_replay (.database {}) kept snapshot.key storable
  have ends : (CommitStore.head snapshot.key run.2).1.toOption = some (some ⟨snapshot.key, 4, 0⟩) := by
    decide +kernel
  have covered : snapshot.revision ≤ (head.map StreamHead.revision).getD 0 := by
    rw [answered] at ends
    rw [Option.some.inj ends]
    decide
  obtain ⟨replayed, resumed, opened, found, same⟩ := continues snapshot 4 rfl covered (by decide)
  have shown : (EventStream.resume snapshot 4 run.2).1.toOption.map
      (fun stream => (stream.committed.map Event.body, stream.revision, stream.sequence)) = some ([[2]], 4, 2) := by
    decide +kernel
  rw [found] at shown
  exact ⟨kept, storable, replayed, resumed, opened, found, same, Option.some.inj shown⟩

end CommitLog
