import CommitLog.Proofs.Feed
import CommitLog.Proofs.Ledger

/-!
The parts of a store in memory, one by one: the queue of head updates loses none of them, the log of a
stream grows and goes with its stream, a window shows the commits that overlap it (`within_eq`), and a
feed shows everything that lies after its checkpoint (`rest_eq`).
-/

namespace CommitLog

/-! ### Heads -/

namespace Memory.HeadQueue

/-- An update is never lost, and the queue never outgrows its bound. -/
theorem record_settle {queue : HeadQueue} (room : queue.pending.length ≤ queue.capacity) (update : HeadUpdate) :
    (queue.record update).settle.heads = update.apply queue.settle.heads ∧
      (queue.record update).pending.length ≤ (queue.record update).capacity := by
  by_cases free : queue.pending.length < queue.capacity
  · have recorded : queue.record update = { queue with pending := queue.pending ++ [update] } := by
      simp [record, enqueue?, free]
    rw [recorded]
    constructor
    · simp [settle]
    · simpa [capacity, Nat.succ_le_iff] using free
  · obtain ⟨oldest, others, pending⟩ : ∃ oldest others, queue.pending = oldest :: others := by
      refine List.exists_cons_of_length_pos ?_
      have : 1 ≤ queue.capacity := Nat.le_max_left 1 queue.bound
      omega
    have work : queue.work = { queue with pending := others, heads := oldest.apply queue.heads } := by
      simp [HeadQueue.work, pending]
    have worked : others.length < queue.capacity := by
      rw [pending, List.length_cons] at room
      omega
    have recorded : queue.record update =
        { queue with pending := others ++ [update], heads := oldest.apply queue.heads } := by
      have kept : others.length < (HeadQueue.mk queue.bound others (oldest.apply queue.heads)).capacity := worked
      simp [record, enqueue?, free, work, kept]
    rw [recorded]
    constructor
    · simp [settle, pending]
    · simpa [capacity, Nat.succ_le_iff] using worked

end Memory.HeadQueue

/-! ### Streams -/

namespace StreamLogs

theorem log_push (logs : StreamLogs) (commit : Commit) (key : StreamKey) :
    (logs.push commit).log key = if commit.key = key then logs.log key ++ [commit] else logs.log key := by
  induction logs with
  | nil =>
    by_cases same : commit.key = key
    · simp [push, log, same]
    · simp [push, log, same]
  | cons entry rest ih =>
    obtain ⟨other, stored⟩ := entry
    by_cases here : other = key
    · subst here
      by_cases same : other = commit.key
      · simp [push, log, same]
      · simp [push, log, same, Ne.symm same]
    · have skip : ∀ logs : StreamLogs, ∀ stored, log ((other, stored) :: logs) key = logs.log key := by
        intro logs stored
        simp [log, here]
      by_cases same : other = commit.key
      · have elsewhere : commit.key ≠ key := by rwa [← same]
        rw [push, if_pos same, skip, skip, if_neg elsewhere]
      · rw [push, if_neg same, skip, skip, ih]

theorem log_remove (logs : StreamLogs) (gone : StreamKey → Bool) (key : StreamKey) :
    log (List.filter (fun entry => !gone entry.1) logs) key = if gone key then [] else logs.log key := by
  induction logs with
  | nil => simp [log]
  | cons entry rest ih =>
    obtain ⟨other, stored⟩ := entry
    by_cases here : other = key
    · subst here
      by_cases removed : gone other
      · simpa [List.filter_cons, removed] using ih
      · simp [removed, log]
    · have skip : ∀ logs : StreamLogs, log ((other, stored) :: logs) key = logs.log key := by
        intro logs
        simp [log, here]
      by_cases removed : gone other
      · rw [List.filter_cons, if_neg (by simp [removed]), skip, ih]
      · rw [List.filter_cons, if_pos (by simp [removed]), skip, skip, ih]

end StreamLogs

/-! ### Reading -/

/-- The arithmetic on a commit that was well formed as an attempt stays in its word. -/
theorem Commit.intersects_eq {commit : Commit} (covers : commit.events.length ≤ commit.revision.toNat)
    (small : commit.revision.toNat ≤ maxRevision.toNat) (least most : UInt64) :
    commit.intersects least most = .ok (commit.overlaps least most) := by
  have limit : maxRevision.toNat = 9223372036854775807 := rfl
  have first : (UInt64.ofNat (commit.revision.toNat - commit.events.length + 1)).toNat =
      commit.revision.toNat - commit.events.length + 1 :=
    UInt64.toNat_ofNat_of_lt' (by simp only [UInt64.size]; omega)
  rw [Attempt.intersects, Attempt.firstRevision_eq covers small, Commit.overlaps]
  by_cases before : commit.revision < least
  · rw [if_pos before]
    rw [UInt64.lt_iff_toNat_lt] at before
    rw [decide_eq_false (by omega : ¬ least.toNat ≤ commit.revision.toNat)]
    rfl
  · rw [if_neg before]
    rw [UInt64.lt_iff_toNat_lt] at before
    rw [decide_eq_true (by omega : least.toNat ≤ commit.revision.toNat), Bool.true_and]
    show Except.ok (decide _) = _
    refine congrArg Except.ok (decide_eq_decide.2 ?_)
    rw [UInt64.le_iff_toNat_le, first]
    omega

theorem Commit.within_eq {log : List Commit} (covers : ∀ commit ∈ log, commit.events.length ≤ commit.revision.toNat)
    (small : ∀ commit ∈ log, commit.revision.toNat ≤ maxRevision.toNat) (least most : UInt64) :
    Commit.within least most log = .ok (log.filter (Commit.overlaps least most)) := by
  induction log with
  | nil => rfl
  | cons commit rest ih =>
    have first := Commit.intersects_eq (covers commit (by simp)) (small commit (by simp)) least most
    have others := ih (fun other member => covers other (by simp [member])) fun other member =>
      small other (by simp [member])
    simp only [Commit.within, first, others, List.filter_cons]
    cases commit.overlaps least most <;> rfl

namespace MemoryStore

/-- What a feed shows from here on. -/
def left (store : MemoryStore) (cursor : Cursor) : List FeedItem :=
  cursor.left ((store.later cursor.after).filter (store.wanted cursor.scope))

theorem later_ascending {store : MemoryStore}
    (ascending : store.feed.Pairwise fun a b => a.checkpoint.toInt < b.checkpoint.toInt) (after : Checkpoint) :
    (store.later after).Pairwise fun a b => a.checkpoint.toInt < b.checkpoint.toInt :=
  ascending.sublist List.filter_sublist

/-- A chunk of the feed leaves what lies after its last commit. -/
theorem later_chunk {store : MemoryStore}
    (ascending : store.feed.Pairwise fun a b => a.checkpoint.toInt < b.checkpoint.toInt) {after : Checkpoint}
    {last : Commit} (found : ((store.later after).take Memory.scanLimit).getLast? = some last) :
    store.later last.checkpoint = (store.later after).drop Memory.scanLimit := by
  rw [later_later (List.mem_of_mem_take (List.mem_of_getLast? found))]
  exact beyond_page (later_ascending ascending after) found

/-- Looking for a page loses no commit, and finds one unless there is none. -/
theorem refill_refilled {store : MemoryStore}
    (ascending : store.feed.Pairwise fun a b => a.checkpoint.toInt < b.checkpoint.toInt) (cursor : Cursor)
    (empty : cursor.page = []) (unfinished : cursor.exhausted = false) :
    cursor.Refilled (fun scope after => (store.later after).filter (store.wanted scope)) (refill cursor store) := by
  have parts : ∀ after, store.later after =
      (store.later after).take Memory.scanLimit ++ (store.later after).drop Memory.scanLimit := fun after =>
    (List.take_append_drop _ _).symm
  have upTo : ∀ {after : Checkpoint} {last : Commit},
      ((store.later after).take Memory.scanLimit).getLast? = some last → ∀ wanted : Commit → Bool,
        ∀ commit ∈ ((store.later after).take Memory.scanLimit).filter wanted, commit.checkpoint ≤ last.checkpoint :=
    fun {after last} found wanted commit member =>
      le_getLast ((later_ascending ascending after).sublist (List.take_sublist _ _)) found commit
        (List.mem_filter.1 member).1
  have further : ∀ {after : Checkpoint} {last : Commit},
      ((store.later after).take Memory.scanLimit).getLast? = some last → after ≤ last.checkpoint := by
    intro after last found
    have inLater := List.mem_of_mem_take (List.mem_of_getLast? found)
    have ahead := of_decide_eq_true (List.mem_filter.1 inLater).2
    rw [Checkpoint.lt_iff] at ahead
    exact Int.le_of_lt ahead
  fun_induction refill cursor store with
  | case1 cursor chunk page none =>
    have nothing : store.later cursor.after = [] := by
      have empty : chunk = [] := List.getLast?_eq_none_iff.1 none
      simpa [chunk, Memory.scanLimit] using empty
    refine ⟨empty, unfinished, rfl, Int.le_refl _, ?_, ?_, fun _ => rfl⟩
    · simp [page, chunk, nothing]
    · simp [Cursor.left, nothing, page, chunk]
  | case2 cursor chunk page last found cursor' short =>
    have whole : chunk = store.later cursor.after := by
      refine List.take_of_length_le ?_
      simp only [chunk, List.length_take] at short
      omega
    refine ⟨empty, unfinished, rfl, further found, upTo found _, ?_, fun _ => rfl⟩
    simp [Cursor.left, cursor', page, whole]
  | case3 cursor chunk page last found cursor' full unwanted ih =>
    have none : ((store.later cursor.after).take Memory.scanLimit).filter (store.wanted cursor.scope) = [] :=
      List.isEmpty_iff.1 unwanted
    have skipped : (store.later cursor.after).filter (store.wanted cursor.scope) =
        (store.later last.checkpoint).filter (store.wanted cursor.scope) := by
      rw [later_chunk ascending found]
      conv => lhs; rw [parts cursor.after]
      rw [List.filter_append, none, List.nil_append]
    have onward := ih none unfinished
    exact ⟨empty, unfinished, onward.scope, Int.le_trans (further found) onward.ahead, onward.behind,
      by rw [skipped]; exact onward.left, onward.full⟩
  | case4 cursor chunk page last found cursor' full filled =>
    have both : (store.later cursor.after).filter (store.wanted cursor.scope) =
        page ++ (store.later last.checkpoint).filter (store.wanted cursor.scope) := by
      rw [later_chunk ascending found]
      conv => lhs; rw [parts cursor.after]
      rw [List.filter_append]
    refine ⟨empty, unfinished, rfl, further found, upTo found _, ?_, fun none => absurd (List.isEmpty_iff.2 none) filled⟩
    simp [Cursor.left, cursor', unfinished, both]

theorem turns {store : MemoryStore}
    (ascending : store.feed.Pairwise fun a b => a.checkpoint.toInt < b.checkpoint.toInt) :
    Turns (fun cursor => next cursor store) fun scope after => (store.later after).filter (store.wanted scope) := by
  intro cursor
  by_cases needed : cursor.page.isEmpty ∧ cursor.exhausted = false
  · exact ⟨refill cursor store, if_pos needed,
      .inr (refill_refilled ascending cursor (List.isEmpty_iff.1 needed.1) needed.2)⟩
  · refine ⟨cursor, if_neg needed, .inl ⟨rfl, fun empty => ?_⟩⟩
    simpa [empty] using needed

/-- A feed that is read to its end shows everything that is wanted, in order. -/
theorem rest_eq {store : MemoryStore}
    (ascending : store.feed.Pairwise fun a b => a.checkpoint.toInt < b.checkpoint.toInt) (cursor : Cursor) :
    CommitStore.rest (σ := MemoryStore) cursor store = (store.left cursor, store) := by
  have turns := turns ascending
  refine @CommitStore.rest_of_next MemoryStore _ store store.left (fun cursor nothing => ?_)
    (fun cursor item items remains => ?_) cursor
  · obtain ⟨after, found⟩ := turns.ended nothing
    exact ⟨after, by simp only [CommitStore.next, found]⟩
  · obtain ⟨after, found, fewer⟩ := turns.shown remains
    exact ⟨after, by simp only [CommitStore.next, found], fewer⟩

end MemoryStore
end CommitLog
