import CommitLog.Proofs.Memory.Refinement
import CommitLog.Proofs.Portable
import CommitLog.Proofs.Reached

/-!
The worker of the heads as a process of its own. A caller of a store in memory puts requests into a bounded queue: a
commit leaves a head update there when it is made, and whatever reports or removes heads first asks to be told when all
earlier updates are applied. The worker takes the requests one by one whenever it likes. The caller's calls are
programs that consist of critical sections, requests and waits (`Program.ofCall`), and caller and worker take their
steps in any order (`Scene.Step`).
-/

namespace CommitLog

/-! ### Head updates that are applied at once -/

namespace MemoryStore

/-- The store with its heads changed. -/
def withHeads (change : List StreamHead → List StreamHead) (store : MemoryStore) : MemoryStore :=
  { store with headQueue := { store.headQueue with heads := change store.headQueue.heads } }

/-- Makes a commit part of its stream and of the feed, and leaves the heads as they are. -/
def post (commit : Commit) (store : MemoryStore) : MemoryStore :=
  { store with
    streams := store.streams.push commit
    feed := store.feed ++ [commit]
    lastCheckpoint := commit.checkpoint }

/-- The checkpoint of an attempt, if it can be taken. -/
def place (attempt : Attempt) (store : MemoryStore) : Except Error Checkpoint :=
  match store.check attempt with
  | .error error => .error error
  | .ok () =>
    match store.lastCheckpoint.next with
    | .error overflow => .error (.overflow overflow)
    | .ok checkpoint => .ok checkpoint

/-- A commit that applies its head update at once. -/
def commitNow (attempt : Attempt) (store : MemoryStore) : Except Error Commit × MemoryStore :=
  match store.place attempt with
  | .error error => (.error error, store)
  | .ok checkpoint =>
    (.ok (attempt.toCommit checkpoint),
      (store.post (attempt.toCommit checkpoint)).withHeads (Memory.HeadUpdate.apply ⟨attempt.key, attempt.revision⟩))

end MemoryStore

namespace Call

/-- A call to a store that applies each head update at once. -/
def serveNow : Call → MemoryStore → Answer × MemoryStore
  | .commit attempt, store => answering .commit (store.commitNow attempt)
  | call, store => call.serve store

def serveAllNow : List Call → MemoryStore → List Answer × MemoryStore
  | [], store => ([], store)
  | call :: calls, store =>
    let (answer, store) := call.serveNow store
    let (answers, store) := serveAllNow calls store
    (answer :: answers, store)

end Call

namespace Memory

/-! ### What a caller does -/

/-- What is left of a call. -/
inductive Program where
  | done (answer : Call.Answer)
  /-- A critical section: what it makes of the store, and how to go on after what it has seen. -/
  | within (change : MemoryStore → MemoryStore) (next : MemoryStore → Program)
  /-- Puts a head update into the queue. -/
  | record (update : HeadUpdate) (next : Program)
  /-- Asks to be told when all earlier updates are applied, and waits for that. -/
  | flush (next : Program)

namespace Program

/-- All of a call in one critical section. -/
def whole (call : Call) : Program :=
  .within (fun store => (call.serve store).2) fun store => .done (call.serve store).1

/-- Goes on if the store is not disposed. -/
def ifOpen (next : Program) : Program :=
  .within id fun store =>
    match store.ensureOpen with
    | .error error => .done (.error error)
    | .ok () => next

/-- A commit leaves its head update in the queue when it has been made. -/
def commit (attempt : Attempt) : Program :=
  .within
    (fun store =>
      match store.place attempt with
      | .error _ => store
      | .ok checkpoint => store.post (attempt.toCommit checkpoint))
    fun store =>
      match store.place attempt with
      | .error error => .done (.error error)
      | .ok checkpoint =>
        .record ⟨attempt.key, attempt.revision⟩ (.done (.ok (.commit (attempt.toCommit checkpoint))))

/-- A removal takes one kind of data after the other. -/
def remove (gone : StreamKey → Bool) : Program :=
  .ifOpen <| .flush <|
    .within (fun store => { store with streams := List.filter (fun entry => !gone entry.1) store.streams }) fun _ =>
    .within (fun store => { store with feed := store.feed.filter fun commit => !gone commit.key }) fun seen =>
    .within (fun store => { store with
      dispatched := store.dispatched.filter fun checkpoint =>
        !(seen.feed.filter fun commit => gone commit.key).any fun commit => commit.checkpoint = checkpoint }) fun _ =>
    .within (MemoryStore.withHeads fun heads => heads.filter fun head => !gone head.key) fun _ =>
    .within (fun store => { store with
      snapshots := store.snapshots.filter fun snapshot => !gone snapshot.key }) fun _ =>
    .done (.ok .done)

/-- Waits for the worker before the call. -/
def settled (call : Call) : Program := .ifOpen <| .flush <| whole call

/-- What a caller does for a call. Whatever looks at heads waits for the worker first. -/
def ofCall : Call → Program
  | .commit attempt => commit attempt
  | .head key => settled (.head key)
  | .addSnapshot snapshot => settled (.addSnapshot snapshot)
  | .streamsToSnapshot bucket threshold => settled (.streamsToSnapshot bucket threshold)
  | .deleteStream key => remove fun other => other = key
  | .purgeBucket bucket => remove fun other => other.bucket = bucket
  | .purge => remove fun _ => true
  | call => whole call

end Program

/-! ### What programs come to -/

section

variable {call : Call} {key : StreamKey} {store : MemoryStore}

/-- No head update waits in the store itself. -/
def Own (store : MemoryStore) : Prop := store.headQueue.pending = []

/-- The stream has no head. -/
def Headless (key : StreamKey) (store : MemoryStore) : Prop := key ∉ store.headQueue.heads.map StreamHead.key

theorem Own.settled (own : Own store) : store.settled = store := by
  obtain ⟨streams, feed, last, dispatched, snapshots, ⟨bound, pending, heads⟩, disposed⟩ := store
  obtain rfl : pending = [] := own
  rfl

theorem mem_keys_apply {update : HeadUpdate} {heads : List StreamHead} :
    key ∈ (update.apply heads).map StreamHead.key ↔ key ∈ heads.map StreamHead.key ∨ key = update.key := by
  rw [Ledger.apply_keys]
  split
  · next known => exact ⟨.inl, fun either => either.elim id fun same => same ▸ known⟩
  · rw [List.mem_append, List.mem_singleton]

/-- From one store to the other nothing has been queued in it, and no stream has got a head. -/
def Tame (store after : MemoryStore) : Prop := Own after ∧ ∀ key, Headless key store → Headless key after

/-- Of all calls, only commits give streams heads. -/
theorem tame_serve (own : Own store) (plain : ∀ attempt, call ≠ .commit attempt) : Tame store (call.serve store).2 := by
  have same : ∀ after : MemoryStore, after = store → Tame store after := by
    rintro after rfl
    exact ⟨own, fun _ => id⟩
  have removed : ∀ gone, Tame store (store.remove gone).2 := by
    intro gone
    rw [MemoryStore.remove]
    split
    · exact same _ rfl
    · refine ⟨rfl, fun _ headless => ?_⟩
      rw [MemoryStore.removeWhere, own.settled]
      exact fun found => headless (List.Sublist.map _ List.filter_sublist |>.subset found)
  cases call with
  | commit attempt => exact absurd rfl (plain attempt)
  | readFeed scope after => exact same _ (CommitStore.readFeed_store (fun _ => rfl) rfl)
  | markDispatched checkpoint =>
    show Tame store (store.markDispatched checkpoint).2
    rw [MemoryStore.markDispatched]
    split
    · exact same _ rfl
    · split <;> exact ⟨own, fun _ => id⟩
  | head other =>
    show Tame store (store.head other).2
    rw [MemoryStore.head]
    split
    · exact same _ rfl
    · exact same _ own.settled
  | streamsToSnapshot bucket threshold =>
    show Tame store (store.streamsToSnapshot bucket threshold).2
    rw [MemoryStore.streamsToSnapshot]
    split
    · exact same _ rfl
    · exact same _ own.settled
  | addSnapshot snapshot =>
    show Tame store (store.addSnapshot snapshot).2
    rw [MemoryStore.addSnapshot, own.settled]
    split
    · exact same _ rfl
    · dsimp only
      split
      · exact same _ rfl
      split
      · exact same _ rfl
      · refine ⟨own, fun _ headless found => headless ?_⟩
        rwa [← Ledger.raiseSnapshot_keys store.headQueue.heads snapshot]
  | deleteStream other => exact removed _
  | purgeBucket bucket => exact removed _
  | purge => exact removed _
  | dispose =>
    show Tame store store.dispose
    rw [MemoryStore.dispose, own.settled]
    split
    · exact same _ rfl
    · exact ⟨own, fun _ => id⟩
  | prepare | getFrom | snapshot | isDisposed => exact same _ rfl

/-- A call to a store that applies head updates at once is the call as it is, and then all updates that wait. -/
theorem serveNow_eq (own : Own store) (call : Call) :
    call.serveNow store = ((call.serve store).1, (call.serve store).2.settled) := by
  have other : (∀ attempt, call ≠ .commit attempt) → call.serve store =
      ((call.serve store).1, (call.serve store).2.settled) := by
    intro plain
    rw [(tame_serve own plain).1.settled]
  cases call with
  | commit attempt =>
    show Call.answering .commit (store.commitNow attempt) =
      (Except.map .commit (store.commit attempt).1, (store.commit attempt).2.settled)
    rw [MemoryStore.commitNow, MemoryStore.place, MemoryStore.commit]
    cases store.check attempt with
    | error error => rw [own.settled]; rfl
    | ok =>
      dsimp only
      cases store.lastCheckpoint.next with
      | error overflow => rw [own.settled]; rfl
      | ok checkpoint =>
        obtain ⟨streams, feed, last, dispatched, snapshots, ⟨bound, pending, heads⟩, disposed⟩ := store
        obtain rfl : pending = [] := own
        have room : 0 < max 1 bound := by omega
        simp [MemoryStore.publish, HeadQueue.record, HeadQueue.enqueue?, HeadQueue.capacity, room, MemoryStore.settled,
          HeadQueue.settle, Call.answering, MemoryStore.post, MemoryStore.withHeads, Attempt.toCommit]
        rfl
  | _ => exact other (by simp)

namespace Program

/-- What a program comes to if head updates are applied at once and nothing is waited for. -/
def outcome : Program → MemoryStore → Call.Answer × MemoryStore
  | .done answer, store => (answer, store)
  | .within change next, store => (next store).outcome (change store)
  | .record update next, store => next.outcome (store.withHeads update.apply)
  | .flush next, store => next.outcome store

theorem outcome_remove (own : Own store) (gone : StreamKey → Bool) :
    (remove gone).outcome store = Call.answering (fun _ => .done) (store.remove gone) := by
  rw [MemoryStore.remove, remove, ifOpen, outcome]
  cases store.ensureOpen with
  | error error => rfl
  | ok =>
    dsimp only
    rw [MemoryStore.removeWhere, own.settled]
    rfl

theorem outcome_settled (other : call ≠ .dispose) (another : call ≠ .isDisposed) :
    (settled call).outcome store = call.serve store := by
  cases disposed : store.disposed with
  | true =>
    rw [(MemoryStore.closed disposed).serve other another]
    simp [settled, ifOpen, outcome, MemoryStore.ensureOpen, disposed]
  | false => simp [settled, ifOpen, outcome, whole, MemoryStore.ensureOpen, disposed]

/-- The program of a call comes to what a store does that applies head updates at once. -/
theorem outcome_ofCall (own : Own store) (call : Call) : (ofCall call).outcome store = call.serveNow store := by
  cases call with
  | commit attempt =>
    show (commit attempt).outcome store = Call.answering .commit (store.commitNow attempt)
    rw [commit, outcome, MemoryStore.commitNow]
    cases store.place attempt <;> rfl
  | head | addSnapshot | streamsToSnapshot => exact outcome_settled (by simp) (by simp)
  | deleteStream key => exact outcome_remove own fun other => other = key
  | purgeBucket bucket => exact outcome_remove own fun other => other.bucket = bucket
  | purge => exact outcome_remove own fun _ => true
  | _ => rfl

/-! ### What programs mind -/

/-- A critical section that neither looks at heads nor changes them. -/
def Blind (change : MemoryStore → MemoryStore) (next : MemoryStore → Program) : Prop :=
  ∀ heads store, change (store.withHeads heads) = (change store).withHeads heads ∧
    next (store.withHeads heads) = next store

/-- A program looks at heads only when no head update is on its way, and queues none in the store itself. The argument
says that none is on its way at the start. -/
def Careful : Bool → Program → Prop
  | _, .done _ => True
  | still, .within change next =>
    (∀ store, Own store → Own (change store)) ∧ (still = true ∨ Blind change next) ∧ ∀ store, (next store).Careful still
  | _, .record _ next => next.Careful false
  | _, .flush next => next.Careful true

/-- A program gives a stream no head. -/
def Spares (key : StreamKey) : Program → Prop
  | .done _ => True
  | .within change next =>
    (∀ store, Own store → Headless key store → Headless key (change store)) ∧ ∀ store, (next store).Spares key
  | .record update next => update.key ≠ key ∧ next.Spares key
  | .flush next => next.Spares key

theorem careful_whole (plain : ∀ attempt, call ≠ .commit attempt) : (whole call).Careful true :=
  ⟨fun _ own => (tame_serve own plain).1, .inl rfl, fun _ => trivial⟩

theorem spares_whole (plain : ∀ attempt, call ≠ .commit attempt) : (whole call).Spares key :=
  ⟨fun _ own => (tame_serve own plain).2 key, fun _ => trivial⟩

theorem careful_ifOpen {next : Program} (careful : next.Careful false) : (ifOpen next).Careful false := by
  refine ⟨fun _ own => own, .inr fun _ _ => ⟨rfl, rfl⟩, fun store => ?_⟩
  dsimp only
  split
  · trivial
  · exact careful

theorem spares_ifOpen {next : Program} (spares : next.Spares key) : (ifOpen next).Spares key := by
  refine ⟨fun _ _ headless => headless, fun store => ?_⟩
  dsimp only
  split
  · trivial
  · exact spares

theorem careful_remove (gone : StreamKey → Bool) : (remove gone).Careful false := by
  refine careful_ifOpen ⟨fun _ own => own, .inl rfl, fun _ => ?_⟩
  refine ⟨fun _ own => own, .inl rfl, fun _ => ?_⟩
  refine ⟨fun _ own => own, .inl rfl, fun _ => ?_⟩
  refine ⟨fun _ own => own, .inl rfl, fun _ => ?_⟩
  exact ⟨fun _ own => own, .inl rfl, fun _ => trivial⟩

theorem spares_remove (gone : StreamKey → Bool) : (remove gone).Spares key := by
  refine spares_ifOpen ⟨fun _ _ headless => headless, fun _ => ?_⟩
  refine ⟨fun _ _ headless => headless, fun _ => ?_⟩
  refine ⟨fun _ _ headless => headless, fun _ => ?_⟩
  refine ⟨fun _ _ headless found => headless ?_, fun _ => ⟨fun _ _ headless => headless, fun _ => trivial⟩⟩
  exact List.Sublist.map _ List.filter_sublist |>.subset found

/-- A call that does not look at heads. -/
def HeadBlind (call : Call) : Prop :=
  ∀ (heads : List StreamHead → List StreamHead) (store : MemoryStore),
    call.serve (store.withHeads heads) = ((call.serve store).1, (call.serve store).2.withHeads heads)

theorem blind_readFeed (scope : Scope) (after : Checkpoint) : HeadBlind (.readFeed scope after) := by
  intro heads store
  have refill : ∀ cursor, MemoryStore.refill cursor (store.withHeads heads) = MemoryStore.refill cursor store :=
    MemoryStore.refill_congr (fun _ => rfl) fun _ _ => rfl
  have stays : (CommitStore.readFeed scope after store).2 = store := CommitStore.readFeed_store (fun _ => rfl) rfl
  have read : CommitStore.readFeed scope after (store.withHeads heads) =
      ((CommitStore.readFeed scope after store).1, store.withHeads heads) := by
    refine @CommitStore.readFeed_into MemoryStore MemoryStore _ _ store _ id _ _ (fun _ => rfl)
      (fun cursor => ?_) rfl ?_
    · simp only [CommitStore.next, MemoryStore.next, refill, id]
    · rw [Except.map_id]
      rfl
  simp only [Call.serve, Call.answering, read, stays]

theorem blind_markDispatched (checkpoint : Checkpoint) : HeadBlind (.markDispatched checkpoint) := by
  intro heads store
  show Call.answering _ ((store.withHeads heads).markDispatched checkpoint) =
    ((Call.answering _ (store.markDispatched checkpoint)).1,
      (Call.answering _ (store.markDispatched checkpoint)).2.withHeads heads)
  rw [MemoryStore.markDispatched, MemoryStore.markDispatched]
  have same : (store.withHeads heads).ensureOpen = store.ensureOpen := rfl
  have feed : (store.withHeads heads).feed = store.feed := rfl
  rw [same, feed]
  cases store.ensureOpen with
  | error => rfl
  | ok =>
    dsimp only
    split <;> rfl

theorem careful_commit (attempt : Attempt) : (commit attempt).Careful false := by
  refine ⟨fun store own => ?_, .inr fun heads store => ?_, fun store => ?_⟩
  · dsimp only
    split
    · exact own
    · exact own
  · have same : (store.withHeads heads).place attempt = store.place attempt := rfl
    dsimp only
    rw [same]
    cases store.place attempt <;> exact ⟨rfl, rfl⟩
  · dsimp only
    split
    · trivial
    · trivial

theorem careful_ofCall (stays : call ≠ .dispose) : (ofCall call).Careful false := by
  have settles : ∀ {call}, (∀ attempt, call ≠ .commit attempt) → (settled call).Careful false :=
    fun plain => careful_ifOpen (careful_whole plain)
  have once : ∀ {call}, (∀ attempt, call ≠ .commit attempt) → HeadBlind call → (whole call).Careful false := by
    intro call plain blind
    refine ⟨(careful_whole plain).1, .inr fun heads store => ?_, fun _ => trivial⟩
    dsimp only
    rw [blind]
    exact ⟨rfl, rfl⟩
  cases call with
  | commit attempt => exact careful_commit attempt
  | head | addSnapshot | streamsToSnapshot => exact settles (by simp)
  | deleteStream key => exact careful_remove fun other => other = key
  | purgeBucket bucket => exact careful_remove fun other => other.bucket = bucket
  | purge => exact careful_remove fun _ => true
  | dispose => exact absurd rfl stays
  | readFeed scope after => exact once (by simp) (blind_readFeed scope after)
  | markDispatched checkpoint => exact once (by simp) (blind_markDispatched checkpoint)
  | prepare | getFrom | snapshot | isDisposed => exact once (by simp) fun _ _ => rfl

theorem spares_commit {attempt : Attempt} (other : attempt.key ≠ key) : (commit attempt).Spares key := by
  refine ⟨fun store _ headless => ?_, fun store => ?_⟩
  · dsimp only
    split
    · exact headless
    · exact headless
  · dsimp only
    split
    · trivial
    · exact ⟨other, trivial⟩

/-- A call other than a commit to the stream gives it no head. -/
theorem spares_ofCall (other : ∀ attempt, call = .commit attempt → attempt.key ≠ key) : (ofCall call).Spares key := by
  cases call with
  | commit attempt => exact spares_commit (other attempt rfl)
  | head | addSnapshot | streamsToSnapshot => exact spares_ifOpen (spares_whole (by simp))
  | deleteStream gone => exact spares_remove fun other => other = gone
  | purgeBucket bucket => exact spares_remove fun other => other.bucket = bucket
  | purge => exact spares_remove fun _ => true
  | prepare | getFrom | readFeed | markDispatched | snapshot | isDisposed | dispose => exact spares_whole (by simp)

end Program

end

/-! ### Caller and worker -/

/-- What a caller asks of the worker. -/
inductive Request where
  | raise (update : HeadUpdate)
  | flush

inductive Caller where
  | idle
  | running (call : Call) (rest : Program)
  /-- Has asked to be told when all earlier updates are applied. -/
  | waiting (call : Call) (rest : Program)

/-- The call that is not over. -/
def Caller.call? : Caller → Option Call
  | .idle => none
  | .running call _ | .waiting call _ => some call

/-- A store with its caller and its worker. No head update waits in the store itself, they all go by the queue. -/
structure Scene where
  store : MemoryStore
  bound : Nat
  queue : List Request := []
  /-- What the worker has taken from the queue and not done yet. -/
  hand : Option Request := none
  /-- The worker has told the caller that all is applied, and the caller has not heard it yet. -/
  acknowledged : Bool := false
  caller : Caller := .idle
  /-- The calls that are over, and their answers. -/
  history : History := []

namespace Scene

def start (config : MemoryConfig) : Scene where
  store := .create config
  bound := config.headQueueBound

/-- There is room in the queue. A bound of zero counts as one. -/
def HasRoom (scene : Scene) : Prop := scene.queue.length < max 1 scene.bound

inductive WorkerStep : Scene → Scene → Prop where
  | take {scene : Scene} {request : Request} {rest : List Request} (free : scene.hand = none)
    (queued : scene.queue = request :: rest) : WorkerStep scene { scene with queue := rest, hand := some request }
  | apply {scene : Scene} {update : HeadUpdate} (taken : scene.hand = some (.raise update)) :
    WorkerStep scene { scene with store := scene.store.withHeads update.apply, hand := none }
  | acknowledge {scene : Scene} (taken : scene.hand = some .flush) :
    WorkerStep scene { scene with hand := none, acknowledged := true }

inductive CallerStep : Scene → Scene → Prop where
  /-- A call of any kind, except that the store is not disposed. -/
  | ask {scene : Scene} (idle : scene.caller = .idle) (call : Call) (stays : call ≠ .dispose) :
    CallerStep scene { scene with caller := .running call (.ofCall call) }
  | within {scene : Scene} {call : Call} {change : MemoryStore → MemoryStore} {next : MemoryStore → Program}
    (running : scene.caller = .running call (.within change next)) :
    CallerStep scene { scene with store := change scene.store, caller := .running call (next scene.store) }
  | record {scene : Scene} {call : Call} {update : HeadUpdate} {next : Program}
    (running : scene.caller = .running call (.record update next)) (room : scene.HasRoom) :
    CallerStep scene { scene with queue := scene.queue ++ [.raise update], caller := .running call next }
  | flush {scene : Scene} {call : Call} {next : Program} (running : scene.caller = .running call (.flush next))
    (room : scene.HasRoom) :
    CallerStep scene { scene with queue := scene.queue ++ [.flush], caller := .waiting call next }
  | hear {scene : Scene} {call : Call} {next : Program} (waiting : scene.caller = .waiting call next)
    (told : scene.acknowledged = true) :
    CallerStep scene { scene with acknowledged := false, caller := .running call next }
  | answer {scene : Scene} {call : Call} {answer : Call.Answer}
    (running : scene.caller = .running call (.done answer)) :
    CallerStep scene { scene with caller := .idle, history := scene.history ++ [(call, answer)] }

def Step (scene after : Scene) : Prop := scene.WorkerStep after ∨ scene.CallerStep after

/-- The caller and the worker after any steps, in any order. -/
inductive Reached (config : MemoryConfig) : Scene → Prop where
  | start : Reached config (start config)
  | step {scene after : Scene} (reached : Reached config scene) (step : scene.Step after) : Reached config after

/-- The caller is in a call and cannot go on. -/
def Blocked (scene : Scene) : Prop := scene.caller ≠ .idle ∧ ∀ after, ¬ scene.CallerStep after

/-- Requests that are not done yet, the oldest first. -/
def requests (scene : Scene) : List Request := scene.hand.toList ++ scene.queue

end Scene
end Memory
end CommitLog
