import CommitLog.Proofs.Memory.Parts

/-!
A store in memory keeps a ledger (`MemoryStore.Keeps`): it answers every call as the ledger does and
keeps the ledger that the call leads to (`serve_agrees`).
-/

namespace CommitLog.MemoryStore

/-- What is in a store is what is in a ledger. Some head updates may still be waiting in the store. -/
structure Keeps (store : MemoryStore) (ledger : Ledger) : Prop where
  streams : ∀ key, store.log key = ledger.stream key
  feed : store.feed = ledger.commits
  last : store.lastCheckpoint = ledger.last
  dispatched : ∀ entry ∈ ledger.entries, store.dispatched.contains entry.commit.checkpoint = entry.dispatched
  given : ∀ checkpoint ∈ store.dispatched, checkpoint.toInt ≤ store.lastCheckpoint.toInt
  heads : store.headQueue.settle.heads = ledger.heads
  room : store.headQueue.pending.length ≤ store.headQueue.capacity
  snapshots : store.snapshots = ledger.snapshots
  disposed : store.disposed = ledger.disposed

theorem Keeps.create (config : MemoryConfig) : (create config).Keeps {} where
  streams _ := rfl
  feed := rfl
  last := rfl
  dispatched entry member := by simp at member
  given checkpoint member := by simp [MemoryStore.create] at member
  heads := rfl
  room := Nat.zero_le _
  snapshots := rfl
  disposed := rfl

theorem Keeps.settled {store : MemoryStore} {ledger : Ledger} (keeps : store.Keeps ledger) :
    store.settled.Keeps ledger where
  streams := keeps.streams
  feed := keeps.feed
  last := keeps.last
  dispatched := keeps.dispatched
  given := keeps.given
  heads := keeps.heads
  room := Nat.zero_le _
  snapshots := keeps.snapshots
  disposed := keeps.disposed

variable {store : MemoryStore} {ledger : Ledger} {accepted : List Commit}

theorem ensureOpen_of_open (isOpen : store.disposed = false) : store.ensureOpen = .ok () := by
  simp [ensureOpen, isOpen]

/-! ### Commits -/

theorem check_eq (keeps : store.Keeps ledger) (sound : ledger.Sound accepted) (isOpen : store.disposed = false)
    (attempt : Attempt) :
    store.check attempt =
      match attempt.refusal (ledger.postings attempt.key) with
      | some error => .error error
      | none => .ok () := by
  have log : store.log attempt.key = ledger.stream attempt.key := keeps.streams attempt.key
  have length : (ledger.stream attempt.key).length = (ledger.postings attempt.key).length := by
    simp [Journal.postings]
  have ends : (((ledger.stream attempt.key).getLast?.map fun commit : Commit => commit.revision).getD 0).toNat =
      Posting.lastRevision (ledger.postings attempt.key) := by
    rw [Posting.lastRevision, Journal.postings, List.getLast?_map]
    cases (ledger.stream attempt.key).getLast? <;> rfl
  have held : ((ledger.stream attempt.key).any fun commit : Commit => commit.id = attempt.id) = true ↔
      ∃ posting ∈ ledger.postings attempt.key, posting.id = attempt.id := by
    rw [List.any_eq_true, Journal.postings]
    constructor
    · rintro ⟨commit, member, same⟩
      exact ⟨commit.posting, List.mem_map_of_mem member, of_decide_eq_true same⟩
    · rintro ⟨posting, member, same⟩
      obtain ⟨commit, inStream, rfl⟩ := List.mem_map.1 member
      exact ⟨commit, inStream, decide_eq_true same⟩
  simp only [check, ensureOpen_of_open isOpen, log]
  cases valid : attempt.validate with
  | error error =>
    rw [Attempt.refusal_of_invalid valid]
    rfl
  | ok =>
    by_cases known : ∃ posting ∈ ledger.postings attempt.key, posting.id = attempt.id
    · rw [Attempt.refusal_of_valid valid, if_pos known]
      exact if_pos (held.2 known)
    · have follows := Attempt.checkFollows_eq valid known (sound.length_lt attempt.key) ends
      rw [← length] at follows
      exact (if_neg fun found => known (held.1 found)).trans follows

theorem Keeps.publish (keeps : store.Keeps ledger) (attempt : Attempt)
    {checkpoint : Checkpoint} (next : ledger.last.next = .ok checkpoint) :
    (store.publish (attempt.toCommit checkpoint)).Keeps (ledger.accept attempt checkpoint) := by
  have following := Checkpoint.toInt_next next
  have recorded := Memory.HeadQueue.record_settle keeps.room ⟨attempt.key, attempt.revision⟩
  constructor
  · intro key
    have log := StreamLogs.log_push store.streams (attempt.toCommit checkpoint) key
    have before : store.streams.log key = ledger.stream key := keeps.streams key
    rw [before] at log
    exact log.trans (Journal.stream_accept ledger.toJournal attempt checkpoint key).symm
  · simp [MemoryStore.publish, keeps.feed, Ledger.accept, Journal.accept, Journal.commits]
  · rfl
  · intro entry member
    rcases List.mem_append.1 member with earlier | last
    · exact keeps.dispatched entry earlier
    · cases List.mem_singleton.1 last
      -- A dispatched checkpoint has been given out before, and this one has not.
      refine Bool.eq_false_iff.2 fun found => ?_
      have before := keeps.given checkpoint (List.contains_iff_mem.1 found)
      rw [keeps.last] at before
      omega
  · intro other member
    have before := keeps.given other member
    rw [keeps.last] at before
    show other.toInt ≤ checkpoint.toInt
    omega
  · show (store.headQueue.record ⟨attempt.key, attempt.revision⟩).settle.heads = _
    rw [recorded.1, keeps.heads]
    rfl
  · exact recorded.2
  · exact keeps.snapshots
  · exact keeps.disposed

/-- A call is answered as the ledger answers it, and the store still keeps the ledger. -/
def Agrees (served : Call.Answer × MemoryStore) (answered : Call.Answer × Ledger) : Prop :=
  served.1 = answered.1 ∧ served.2.Keeps answered.2

theorem commit_agrees (keeps : store.Keeps ledger) (sound : ledger.Sound accepted) (isOpen : store.disposed = false)
    (attempt : Attempt) : Agrees ((Call.commit attempt).serve store) (ledger.commit attempt) := by
  have checked := check_eq keeps sound isOpen attempt
  have served : (Call.commit attempt).serve store = Call.answering .commit (store.commit attempt) := rfl
  rw [served, MemoryStore.commit, checked, Ledger.commit, keeps.last]
  cases attempt.refusal (ledger.postings attempt.key) with
  | some error => exact ⟨rfl, keeps⟩
  | none =>
    cases next : ledger.last.next with
    | error overflow => exact ⟨rfl, keeps⟩
    | ok checkpoint => exact ⟨rfl, keeps.publish attempt next⟩

/-! ### Reading -/

/-- A window shows the commits of the stream that it overlaps. -/
theorem getFrom_eq (keeps : store.Keeps ledger) (sound : ledger.Sound accepted) (isOpen : store.disposed = false)
    (key : StreamKey) (least most : UInt64) :
    store.getFrom key least most = .ok ((ledger.stream key).filter (Commit.overlaps least most)) := by
  have fits : ∀ commit ∈ ledger.stream key, commit.Fits := fun commit member =>
    sound.fits (List.mem_filter.1 member).1
  have window := Commit.within_eq (fun commit member => (fits commit member).covers)
    (fun commit member => (fits commit member).revision) least most
  rw [getFrom, ensureOpen_of_open isOpen, keeps.streams, window]
  rfl

theorem getFrom_agrees (keeps : store.Keeps ledger) (sound : ledger.Sound accepted) (isOpen : store.disposed = false)
    (key : StreamKey) (least most : UInt64) :
    Agrees ((Call.getFrom key least most).serve store) (ledger.respond (.getFrom key least most)) :=
  ⟨congrArg (Except.map Call.Reply.commits) (getFrom_eq keeps sound isOpen key least most), keeps⟩

theorem Keeps.shown_eq (keeps : store.Keeps ledger) (scope : Scope) (after : Checkpoint) :
    ((store.later after).filter (store.wanted scope)) =
      (ledger.entries.filter (Entry.shown scope after)).map Entry.commit := by
  rw [later, keeps.feed, Journal.commits, List.filter_filter, List.filter_map]
  refine congrArg (List.map Entry.commit) (List.filter_congr fun entry member => ?_)
  have dispatched := keeps.dispatched entry member
  cases scope with
  | all => simp [wanted, Entry.shown]
  | bucket bucket => simp [wanted, Entry.shown, Bool.and_comm]
  | undispatched =>
    simp only [Function.comp_apply, wanted, Entry.shown, dispatched]
    exact Bool.and_comm _ _

theorem readFeed_agrees (keeps : store.Keeps ledger) (sound : ledger.Sound accepted)
    (isOpen : store.disposed = false) (scope : Scope) (after : Checkpoint) :
    Agrees ((Call.readFeed scope after).serve store) (ledger.respond (.readFeed scope after)) := by
  have ascending := sound.ascending
  rw [← keeps.feed] at ascending
  have opened : CommitStore.openFeed scope after store = (.ok (Cursor.start scope after), store) := by
    show (store.openFeed scope after, store) = _
    rw [openFeed, ensureOpen_of_open isOpen]
    rfl
  have shown : store.left (Cursor.start scope after) =
      (ledger.entries.filter (Entry.shown scope after)).map fun entry => .ok entry.commit := by
    have all := keeps.shown_eq scope after
    simp only [left, Cursor.left, Cursor.start, List.nil_append, Bool.false_eq_true, if_false, all, List.map_map]
    rfl
  have read : CommitStore.readFeed scope after store = (.ok (store.left (Cursor.start scope after)), store) := by
    simp only [CommitStore.readFeed, opened, rest_eq ascending]
  rw [Call.serve, read, shown]
  exact ⟨rfl, keeps⟩

/-- One look for a page. -/
theorem refill_eq (cursor : Cursor) (store : MemoryStore) :
    refill cursor store =
      let chunk := (store.later cursor.after).take Memory.scanLimit
      let page := chunk.filter (store.wanted cursor.scope)
      match chunk.getLast? with
      | none => { cursor with page, exhausted := true }
      | some last =>
        let cursor := { cursor with after := last.checkpoint, page }
        if chunk.length < Memory.scanLimit then { cursor with exhausted := true }
        else if page.isEmpty then refill cursor store
        else cursor := by
  rw [refill]
  dsimp only
  split
  · next none => rw [none]
  · next last found => rw [found]

/-- Stores with one feed that want the same of it find the same page. -/
theorem refill_congr {other : MemoryStore} (later : ∀ after, other.later after = store.later after)
    (page : ∀ scope after, ((store.later after).take Memory.scanLimit).filter (other.wanted scope) =
      ((store.later after).take Memory.scanLimit).filter (store.wanted scope)) (cursor : Cursor) :
    refill cursor other = refill cursor store := by
  fun_induction refill cursor store with
  | case1 cursor chunk found nothing =>
    have ends : ((store.later cursor.after).take Memory.scanLimit).getLast? = none := nothing
    simp only [MemoryStore.refill_eq cursor other, later, page, ends]
    rfl
  | case2 cursor chunk found last ended moved short =>
    have ends : ((store.later cursor.after).take Memory.scanLimit).getLast? = some last := ended
    simp only [MemoryStore.refill_eq cursor other, later, page, ends]
    exact if_pos short
  | case3 cursor chunk found last ended moved full unwanted ih =>
    have ends : ((store.later cursor.after).take Memory.scanLimit).getLast? = some last := ended
    simp only [MemoryStore.refill_eq cursor other, later, page, ends]
    exact (if_neg full).trans ((if_pos unwanted).trans ih)
  | case4 cursor chunk found last ended moved full filled =>
    have ends : ((store.later cursor.after).take Memory.scanLimit).getLast? = some last := ended
    simp only [MemoryStore.refill_eq cursor other, later, page, ends]
    exact (if_neg full).trans (if_neg filled)

/-- Stores that keep one ledger find the same page. -/
theorem Keeps.refill_eq {other : MemoryStore} (keeps : store.Keeps ledger) (same : other.Keeps ledger) (cursor : Cursor) :
    refill cursor other = refill cursor store := by
  have wanted : ∀ scope, ∀ commit ∈ ledger.commits, other.wanted scope commit = store.wanted scope commit := by
    intro scope commit member
    obtain ⟨entry, inLedger, rfl⟩ := List.mem_map.1 member
    cases scope with
    | undispatched => simp only [MemoryStore.wanted, keeps.dispatched entry inLedger, same.dispatched entry inLedger]
    | _ => rfl
  refine refill_congr (by simp [MemoryStore.later, keeps.feed, same.feed]) (fun scope after => ?_) cursor
  refine List.filter_congr fun commit member => wanted scope commit ?_
  rw [← keeps.feed]
  exact (List.mem_filter.1 (List.mem_of_mem_take member)).1

theorem Keeps.next_eq {other : MemoryStore} (keeps : store.Keeps ledger) (same : other.Keeps ledger) (cursor : Cursor) :
    other.next cursor = store.next cursor := by
  rw [MemoryStore.next, MemoryStore.next, keeps.refill_eq same]

/-! ### Dispatching -/

theorem Keeps.dispatch (keeps : store.Keeps ledger) (sound : ledger.Sound accepted) (checkpoint : Checkpoint)
    {commit : Commit} (member : commit ∈ ledger.commits) (same : commit.checkpoint = checkpoint) :
    ({ store with dispatched := store.dispatched.insert checkpoint } : MemoryStore).Keeps
      { ledger with toJournal := ledger.toJournal.dispatch checkpoint } where
  streams key := by
    rw [Journal.stream, Journal.commits_dispatch]
    exact keeps.streams key
  feed := keeps.feed.trans (Journal.commits_dispatch _ _).symm
  last := keeps.last
  dispatched entry member := by
    obtain ⟨before, inLedger, rfl⟩ := List.mem_map.1 member
    have known := keeps.dispatched before inLedger
    split
    · next here => simp [here]
    · next elsewhere => simpa [elsewhere] using known
  given other found := by
    rcases List.mem_insert_iff.1 found with rfl | before
    · rw [← same, keeps.last]
      exact sound.checkpoint_le member
    · exact keeps.given other before
  heads := keeps.heads
  room := keeps.room
  snapshots := keeps.snapshots
  disposed := keeps.disposed

theorem markDispatched_agrees (keeps : store.Keeps ledger) (sound : ledger.Sound accepted)
    (isOpen : store.disposed = false) (checkpoint : Checkpoint) :
    Agrees ((Call.markDispatched checkpoint).serve store) (ledger.respond (.markDispatched checkpoint)) := by
  have served : (Call.markDispatched checkpoint).serve store =
      Call.answering (fun _ => .done) (store.markDispatched checkpoint) := rfl
  rw [served, markDispatched, ensureOpen_of_open isOpen]
  by_cases known : ∃ commit ∈ ledger.commits, commit.checkpoint = checkpoint
  · obtain ⟨commit, member, same⟩ := known
    have found : (store.feed.any fun commit => commit.checkpoint = checkpoint) = true := by
      rw [keeps.feed]
      exact List.any_eq_true.2 ⟨commit, member, decide_eq_true same⟩
    dsimp only
    rw [if_pos found]
    exact ⟨rfl, keeps.dispatch sound checkpoint member same⟩
  · have absent : ¬ (store.feed.any fun commit => commit.checkpoint = checkpoint) = true := by
      rw [keeps.feed, List.any_eq_true]
      rintro ⟨commit, member, same⟩
      exact known ⟨commit, member, of_decide_eq_true same⟩
    have unchanged : ledger.toJournal.dispatch checkpoint = ledger.toJournal :=
      Journal.dispatch_of_absent fun commit member same => known ⟨commit, member, same⟩
    dsimp only
    rw [if_neg absent]
    refine ⟨rfl, ?_⟩
    show store.Keeps { ledger with toJournal := ledger.toJournal.dispatch checkpoint }
    rw [unchanged]
    exact keeps

/-! ### Heads and snapshots -/

theorem head_eq (keeps : store.Keeps ledger) (isOpen : store.disposed = false) (key : StreamKey) :
    store.head key = (.ok (ledger.head? key), store.settled) := by
  have found : store.settled.headQueue.find? key = ledger.head? key := by
    rw [Ledger.head?, ← keeps.heads]
    rfl
  rw [MemoryStore.head, ensureOpen_of_open isOpen, found]

theorem head_agrees (keeps : store.Keeps ledger) (isOpen : store.disposed = false) (key : StreamKey) :
    Agrees ((Call.head key).serve store) (ledger.respond (.head key)) := by
  have served : (Call.head key).serve store = Call.answering .head (store.head key) := rfl
  rw [served, head_eq keeps isOpen]
  exact ⟨rfl, keeps.settled⟩

theorem snapshot_agrees (keeps : store.Keeps ledger) (isOpen : store.disposed = false) (key : StreamKey)
    (most : UInt64) : Agrees ((Call.snapshot key most).serve store) (ledger.respond (.snapshot key most)) := by
  have served : (Call.snapshot key most).serve store =
      Call.answering .snapshot (store.snapshot key most, store) := rfl
  rw [served, MemoryStore.snapshot, ensureOpen_of_open isOpen, keeps.snapshots]
  exact ⟨rfl, keeps⟩

theorem addSnapshot_agrees (keeps : store.Keeps ledger) (isOpen : store.disposed = false) (snapshot : Snapshot) :
    Agrees ((Call.addSnapshot snapshot).serve store) (ledger.respond (.addSnapshot snapshot)) := by
  have served : (Call.addSnapshot snapshot).serve store = Call.answering .flag (store.addSnapshot snapshot) := rfl
  have found : store.settled.headQueue.find? snapshot.key = ledger.head? snapshot.key := by
    rw [Ledger.head?, ← keeps.heads]
    rfl
  have snapshots : store.settled.snapshots = ledger.snapshots := keeps.snapshots
  rw [served, MemoryStore.addSnapshot, ensureOpen_of_open isOpen, Ledger.respond, Ledger.addSnapshot]
  dsimp only
  rw [found, snapshots]
  split
  · exact ⟨rfl, keeps.settled⟩
  split
  · exact ⟨rfl, keeps.settled⟩
  refine ⟨rfl, { keeps.settled with heads := ?_, snapshots := rfl }⟩
  show store.headQueue.settle.heads.map (raiseSnapshot snapshot) = _
  rw [keeps.heads]

theorem streamsToSnapshot_agrees (keeps : store.Keeps ledger) (isOpen : store.disposed = false) (bucket : BucketId)
    (threshold : UInt64) :
    Agrees ((Call.streamsToSnapshot bucket threshold).serve store)
      (ledger.respond (.streamsToSnapshot bucket threshold)) := by
  have served : (Call.streamsToSnapshot bucket threshold).serve store =
      Call.answering .heads (store.streamsToSnapshot bucket threshold) := rfl
  have heads : store.settled.headQueue.heads = ledger.heads := keeps.heads
  rw [served, MemoryStore.streamsToSnapshot, ensureOpen_of_open isOpen]
  dsimp only
  rw [heads]
  exact ⟨rfl, keeps.settled⟩

/-! ### Removal -/

theorem Keeps.removeWhere (keeps : store.Keeps ledger) (sound : ledger.Sound accepted) (gone : StreamKey → Bool) :
    (store.removeWhere gone).Keeps (ledger.remove gone) where
  streams key := by
    have before : store.streams.log key = ledger.stream key := keeps.streams key
    have log := StreamLogs.log_remove store.streams gone key
    rw [before] at log
    exact log.trans (Journal.stream_remove ledger.toJournal gone key).symm
  feed := by
    show store.feed.filter _ = (ledger.toJournal.remove gone).commits
    rw [Journal.commits_remove, keeps.feed]
  last := keeps.last
  dispatched entry member := by
    obtain ⟨inLedger, stays⟩ := List.mem_filter.1 member
    have notRemoved : ¬ ((store.feed.filter fun commit => gone commit.key).any fun commit =>
        commit.checkpoint = entry.commit.checkpoint) = true := by
      rw [keeps.feed, List.any_eq_true]
      rintro ⟨commit, removed, same⟩
      obtain ⟨inFeed, isGone⟩ := List.mem_filter.1 removed
      have here : commit = entry.commit :=
        sound.eq_of_checkpoint inFeed (List.mem_map_of_mem inLedger) (of_decide_eq_true same)
      rw [here] at isGone
      simp [isGone] at stays
    rw [← keeps.dispatched entry inLedger, Bool.eq_iff_iff, List.contains_iff_mem, List.contains_iff_mem]
    show entry.commit.checkpoint ∈ store.dispatched.filter _ ↔ _
    rw [List.mem_filter]
    exact ⟨And.left, fun given => ⟨given, by rw [Bool.not_eq_true']; exact Bool.eq_false_iff.2 notRemoved⟩⟩
  given checkpoint found := keeps.given checkpoint (List.mem_filter.1 found).1
  heads := by
    show store.headQueue.settle.heads.filter _ = _
    rw [keeps.heads]
    rfl
  room := Nat.zero_le _
  snapshots := by
    show store.snapshots.filter _ = _
    rw [keeps.snapshots]
    rfl
  disposed := keeps.disposed

theorem remove_agrees (keeps : store.Keeps ledger) (sound : ledger.Sound accepted) (isOpen : store.disposed = false)
    (gone : StreamKey → Bool) :
    Agrees (Call.answering (fun _ => .done) (store.remove gone)) (.ok .done, ledger.remove gone) := by
  rw [MemoryStore.remove, ensureOpen_of_open isOpen]
  exact ⟨rfl, keeps.removeWhere sound gone⟩

theorem dispose_agrees (keeps : store.Keeps ledger) (isOpen : store.disposed = false) :
    Agrees (Call.dispose.serve store) (ledger.respond .dispose) := by
  have disposed : store.dispose = { store.settled with disposed := true } := by
    simp [MemoryStore.dispose, isOpen]
  have served : Call.dispose.serve store = (.ok .done, store.dispose) := rfl
  rw [served, disposed]
  exact ⟨rfl, { keeps.settled with disposed := rfl }⟩

/-! ### All calls -/

theorem closed (disposed : store.disposed = true) : Call.Closed store := by
  have refused : store.ensureOpen = .error .disposed := by simp [ensureOpen, disposed]
  have removed : ∀ gone, store.remove gone = (.error .disposed, store) := fun gone => by
    rw [remove, refused]
  constructor
  · exact congrArg (·, store) refused
  · intro attempt
    show store.commit attempt = _
    rw [MemoryStore.commit, check, refused]
    rfl
  · intro key least most
    show (store.getFrom key least most, store) = _
    rw [getFrom, refused]
    rfl
  · intro scope after
    show (store.openFeed scope after, store) = _
    rw [openFeed, refused]
    rfl
  · intro checkpoint
    show store.markDispatched checkpoint = _
    rw [markDispatched, refused]
  · intro key
    show store.head key = _
    rw [head, refused]
  · intro snapshot
    show store.addSnapshot snapshot = _
    rw [addSnapshot, refused]
  · intro key most
    show (store.snapshot key most, store) = _
    rw [snapshot, refused]
    rfl
  · intro bucket threshold
    show store.streamsToSnapshot bucket threshold = _
    rw [streamsToSnapshot, refused]
  · exact fun key => removed _
  · exact fun bucket => removed _
  · exact removed _

theorem disposed_agrees (keeps : store.Keeps ledger) (disposed : store.disposed = true) (call : Call) :
    Agrees (call.serve store) (ledger.answer call) := by
  have ledgerDisposed : ledger.disposed = true := by rw [← keeps.disposed, disposed]
  have refused := @Call.Closed.serve _ _ store (closed disposed) call
  rw [Ledger.answer_of_disposed ledgerDisposed]
  cases call with
  | isDisposed => exact ⟨by simp [Call.serve, CommitStore.isDisposed, disposed], keeps⟩
  | dispose => exact ⟨rfl, by simpa [Call.serve, Call.answering, CommitStore.dispose, dispose, disposed] using keeps⟩
  | _ =>
    rw [refused (by simp) (by simp)]
    exact ⟨rfl, keeps⟩

/-- A store in memory does what its ledger does. -/
theorem serve_agrees (keeps : store.Keeps ledger) (sound : ledger.Sound accepted) (call : Call) :
    Agrees (call.serve store) (ledger.answer call) := by
  cases isOpen : store.disposed with
  | true => exact disposed_agrees keeps isOpen call
  | false =>
    have ledgerOpen : ledger.disposed = false := by rw [← keeps.disposed, isOpen]
    rw [Ledger.answer_of_open ledgerOpen]
    cases call with
    | prepare => exact ⟨congrArg (Except.map fun _ => Call.Reply.done) (ensureOpen_of_open isOpen), keeps⟩
    | commit attempt => exact commit_agrees keeps sound isOpen attempt
    | getFrom key least most => exact getFrom_agrees keeps sound isOpen key least most
    | readFeed scope after => exact readFeed_agrees keeps sound isOpen scope after
    | markDispatched checkpoint => exact markDispatched_agrees keeps sound isOpen checkpoint
    | head key => exact head_agrees keeps isOpen key
    | addSnapshot snapshot => exact addSnapshot_agrees keeps isOpen snapshot
    | snapshot key most => exact snapshot_agrees keeps isOpen key most
    | streamsToSnapshot bucket threshold => exact streamsToSnapshot_agrees keeps isOpen bucket threshold
    | deleteStream key => exact remove_agrees keeps sound isOpen fun other => other = key
    | purgeBucket bucket => exact remove_agrees keeps sound isOpen fun other => other.bucket = bucket
    | purge => exact remove_agrees keeps sound isOpen fun _ => true
    | dispose => exact dispose_agrees keeps isOpen
    | isDisposed => exact ⟨by simp [Call.serve, CommitStore.isDisposed, isOpen, Ledger.respond], keeps⟩

/-- Over any calls, a store in memory gives the answers that its ledger gives. -/
theorem serveAll_agrees (keeps : store.Keeps ledger) (sound : ledger.Sound accepted) (calls : List Call) :
    (Call.serveAll calls store).1 = (ledger.answerAll calls).1 ∧
      (Call.serveAll calls store).2.Keeps (ledger.answerAll calls).2 := by
  induction calls generalizing store ledger accepted with
  | nil => exact ⟨rfl, keeps⟩
  | cons call calls ih =>
    obtain ⟨same, kept⟩ := serve_agrees keeps sound call
    obtain ⟨others, keptOn⟩ := ih kept (sound.step (ledger.answer_step call))
    rw [Call.serveAll, Ledger.answerAll]
    dsimp only
    rw [same, others]
    exact ⟨rfl, keptOn⟩

end CommitLog.MemoryStore
