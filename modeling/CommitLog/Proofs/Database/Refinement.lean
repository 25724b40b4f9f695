import CommitLog.Proofs.Database.Calls
import CommitLog.Proofs.Database.Reading
import CommitLog.Proofs.Portable

/-!
A store that is alone on its database keeps a ledger (`DatabaseStore.Keeps`): as long as the ledger is
portable and no checkpoint is the last, it answers every call as the ledger does and keeps the ledger
that the call leads to (`serve_agrees`).
-/

namespace CommitLog.DatabaseStore

/-- What is in the tables is what is in a ledger. -/
structure Keeps (store : DatabaseStore) (ledger : Ledger) : Prop where
  logs : store.Logs True ledger.toJournal
  heads : store.db.heads = ledger.heads.map StreamHead.row
  snapshots : store.db.snapshots = ledger.snapshots.map Snapshot.row
  disposed : store.handle.disposed = ledger.disposed

theorem Keeps.fresh (config : DatabaseConfig) : (fresh config).Keeps {} where
  logs := .fresh config
  heads := rfl
  snapshots := rfl
  disposed := rfl

variable {store : DatabaseStore} {ledger : Ledger} {accepted : List Commit}

/-- A call is answered as the ledger answers it, and the store still keeps the ledger. -/
def Agrees (served : Call.Answer × DatabaseStore) (answered : Call.Answer × Ledger) : Prop :=
  served.1 = answered.1 ∧ served.2.Keeps answered.2

/-! ### Commits -/

theorem commit_agrees (keeps : store.Keeps ledger) (portable : ledger.Portable) (sound : ledger.Sound accepted)
    (isOpen : store.handle.disposed = false) (room : accepted.length < 2 ^ 63 - 1) (attempt : Attempt) :
    Agrees ((Call.commit attempt).serve store) (ledger.commit attempt) := by
  have served : (Call.commit attempt).serve store = Call.answering .commit (store.commit attempt) := rfl
  rw [served, commit_eq keeps.logs.holds sound isOpen attempt (keeps.logs.cached trivial), Ledger.commit]
  cases taken : attempt.refusal (ledger.postings attempt.key) with
  | some error => exact ⟨rfl, keeps⟩
  | none =>
    obtain ⟨checkpoint, next⟩ := sound.exists_next room
    obtain ⟨-, bound, -⟩ := Attempt.refusal_eq_none.1 taken
    rw [next]
    refine ⟨rfl, keeps.logs.committed attempt checkpoint, ?_, keeps.snapshots, keeps.disposed⟩
    show Database.raiseHead attempt.key (Column.ofWord attempt.revision) store.db.heads = _
    rw [keeps.heads]
    exact Database.raiseHead_row portable.heads bound attempt.key

/-! ### Reading -/

theorem getFrom_agrees (keeps : store.Keeps ledger) (portable : ledger.Portable) (sound : ledger.Sound accepted)
    (isOpen : store.handle.disposed = false) (key : StreamKey) (least most : UInt64) :
    Agrees ((Call.getFrom key least most).serve store) (ledger.respond (.getFrom key least most)) := by
  have known : ∀ commit ∈ ledger.stream key, commit.Portable := fun commit member =>
    portable.commits commit (List.mem_filter.1 member).1
  have window : (ledger.stream key).filter (Commit.overlaps (min least maxRevision) most) =
      (ledger.stream key).filter (Commit.overlaps least most) := by
    refine List.filter_congr fun commit member => ?_
    have small := (known commit member).revision
    rw [Commit.overlaps, Commit.overlaps, toNat_min]
    refine congrArg (· && _) (decide_eq_decide.2 ?_)
    omega
  have whole : ((ledger.stream key).filter (Commit.overlaps least most)).map Commit.stored =
      (ledger.stream key).filter (Commit.overlaps least most) :=
    (List.map_congr_left fun commit member =>
      Commit.stored_eq (known commit (List.mem_filter.1 member).1).stamp).trans (List.map_id _)
  have read := getFrom_eq keeps.logs.holds sound (fun commit member => (known commit member).storable) isOpen
    least most
  rw [window, whole] at read
  exact ⟨congrArg (Except.map Call.Reply.commits) read, keeps⟩

theorem readFeed_agrees (keeps : store.Keeps ledger) (portable : ledger.Portable) (sound : ledger.Sound accepted)
    (isOpen : store.handle.disposed = false) (scope : Scope) (after : Checkpoint) :
    Agrees ((Call.readFeed scope after).serve store) (ledger.respond (.readFeed scope after)) := by
  have opened : CommitStore.openFeed scope after store = (.ok (Cursor.start scope after), store) := by
    show (store.openFeed scope after, store) = _
    rw [openFeed, ensureOpen_of_open isOpen]
    rfl
  have shown : (stored ledger.toJournal scope after).map Except.ok =
      (ledger.entries.filter (Entry.shown scope after)).map fun entry => (.ok entry.commit : FeedItem) := by
    rw [stored, DatabaseStore.shown, List.map_map]
    refine List.map_congr_left fun entry member => ?_
    have known : entry.commit ∈ ledger.commits := List.mem_map_of_mem (List.mem_filter.1 member).1
    exact congrArg Except.ok (Commit.stored_eq (portable.commits _ known).stamp)
  have rest := rest_eq keeps.logs.holds sound (fun commit member => (portable.commits commit member).storable)
    isOpen (Cursor.start scope after)
  have read : CommitStore.readFeed scope after store =
      (.ok ((stored ledger.toJournal scope after).map .ok), store) := by
    simp only [CommitStore.readFeed, opened, rest]
    simp [Cursor.left, Cursor.start]
  rw [Call.serve, read, shown]
  exact ⟨rfl, keeps⟩

/-! ### Heads and snapshots -/

theorem head_agrees (keeps : store.Keeps ledger) (portable : ledger.Portable) (isOpen : store.handle.disposed = false)
    (key : StreamKey) : Agrees ((Call.head key).serve store) (ledger.respond (.head key)) := by
  have found : (store.db.head? key).map HeadRow.toHead = ledger.head? key := by
    have same : store.db.head? key = (ledger.head? key).map StreamHead.row := by
      rw [Database.head?, keeps.heads, List.find?_map]
      rfl
    rw [same]
    cases known : ledger.head? key with
    | none => rfl
    | some head =>
      have fits := portable.heads head (List.mem_of_find?_eq_some known)
      exact congrArg some fits.stored.toHead_row
  have read : store.head key = .ok (ledger.head? key) := by
    rw [DatabaseStore.head, query_eq isOpen, found]
  exact ⟨congrArg (Except.map Call.Reply.head) read, keeps⟩

theorem snapshot_agrees (keeps : store.Keeps ledger) (portable : ledger.Portable)
    (isOpen : store.handle.disposed = false) (key : StreamKey) (most : UInt64) :
    Agrees ((Call.snapshot key most).serve store) (ledger.respond (.snapshot key most)) := by
  have read : store.snapshot key most = .ok (MemoryStore.newest (ledger.snapshots.filter fun snapshot =>
      snapshot.key = key ∧ snapshot.revision ≤ most)) := by
    rw [DatabaseStore.snapshot, query_eq isOpen,
      Database.snapshot?_eq keeps.snapshots portable.snapshots portable.single]
  exact ⟨congrArg (Except.map Call.Reply.snapshot) read, keeps⟩

theorem addSnapshot_agrees (keeps : store.Keeps ledger) (portable : ledger.Portable)
    (isOpen : store.handle.disposed = false) {snapshot : Snapshot}
    (covered : ∀ head, ledger.head? snapshot.key = some head → snapshot.revision.toNat ≤ head.revision.toNat) :
    Agrees ((Call.addSnapshot snapshot).serve store) (ledger.respond (.addSnapshot snapshot)) := by
  have served : (Call.addSnapshot snapshot).serve store = Call.answering .flag
      (store.update (fun db => .ok (db.addSnapshot snapshot)) id) := rfl
  have same : store.db.head? snapshot.key = (ledger.head? snapshot.key).map StreamHead.row := by
    rw [Database.head?, keeps.heads, List.find?_map]
    rfl
  rw [served, update_eq isOpen keeps.logs.holds.unlocked, Ledger.respond, Ledger.addSnapshot, Database.addSnapshot,
    same]
  dsimp only
  cases found : ledger.head? snapshot.key with
  | none => exact ⟨rfl, keeps⟩
  | some head =>
    have bound := covered head found
    have largest := (portable.heads head (List.mem_of_find?_eq_some found)).revision
    have small : snapshot.revision.toNat ≤ maxRevision.toNat := by omega
    have known := Database.any_row keeps.snapshots portable.snapshots small snapshot.key
    rw [known]
    by_cases taken : (ledger.snapshots.any fun other =>
        other.key = snapshot.key ∧ other.revision = snapshot.revision) = true
    · simp only [Option.map_some, Option.isNone_some, Bool.false_eq_true, if_false, if_pos taken]
      exact ⟨rfl, keeps⟩
    · simp only [Option.map_some, Option.isNone_some, Bool.false_eq_true, if_false, if_neg taken]
      have raised := Database.raiseSnapshot_row portable.heads small
      refine ⟨rfl, ⟨⟨keeps.logs.holds.rows, keeps.logs.holds.last, keeps.logs.holds.unlocked,
        keeps.logs.holds.stamps⟩, keeps.logs.remembered⟩, ?_, ?_, keeps.disposed⟩
      · show store.db.heads.map _ = _
        rw [keeps.heads]
        exact raised
      · show store.db.snapshots ++ _ = _
        rw [keeps.snapshots, List.map_append]
        rfl

theorem streamsToSnapshot_agrees (keeps : store.Keeps ledger) (portable : ledger.Portable)
    (isOpen : store.handle.disposed = false) (bucket : BucketId) (threshold : UInt64) :
    Agrees ((Call.streamsToSnapshot bucket threshold).serve store)
      (ledger.respond (.streamsToSnapshot bucket threshold)) := by
  have due := Database.due_rows (fun head member => (portable.heads head member).stored)
    (fun a first b second => (portable.heads a first).order_row (portable.heads b second))
    (fun head member => (portable.heads head member).due_row threshold) bucket
  have read : store.streamsToSnapshot bucket threshold = .ok (ledger.due bucket threshold) := by
    rw [DatabaseStore.streamsToSnapshot, query_eq isOpen, Database.streamsToSnapshot, keeps.heads, due]
    rfl
  exact ⟨congrArg (Except.map Call.Reply.heads) read, keeps⟩

/-! ### Changes -/

theorem markDispatched_agrees (keeps : store.Keeps ledger) (isOpen : store.handle.disposed = false)
    (checkpoint : Checkpoint) :
    Agrees ((Call.markDispatched checkpoint).serve store) (ledger.respond (.markDispatched checkpoint)) := by
  have served : (Call.markDispatched checkpoint).serve store = Call.answering (fun _ => .done)
      (store.update (fun db => .ok ((), db.markDispatched checkpoint)) id) := rfl
  rw [served, update_eq isOpen keeps.logs.holds.unlocked]
  exact ⟨rfl, keeps.logs.dispatched checkpoint, keeps.heads, keeps.snapshots, keeps.disposed⟩

theorem remove_agrees (keeps : store.Keeps ledger) (isOpen : store.handle.disposed = false)
    (gone : StreamKey → Bool) :
    Agrees (Call.answering (fun _ => .done) (store.remove gone)) (.ok .done, ledger.remove gone) := by
  rw [remove, update_eq isOpen keeps.logs.holds.unlocked]
  refine ⟨rfl, keeps.logs.removed gone, ?_, ?_, keeps.disposed⟩
  · show store.db.heads.filter _ = _
    rw [keeps.heads, List.filter_map]
    rfl
  · show store.db.snapshots.filter _ = _
    rw [keeps.snapshots, List.filter_map]
    rfl

theorem dispose_agrees (keeps : store.Keeps ledger) :
    Agrees (Call.dispose.serve store) (ledger.respond .dispose) :=
  ⟨rfl, ⟨keeps.logs.holds, keeps.logs.remembered⟩, keeps.heads, keeps.snapshots, rfl⟩

/-! ### All calls -/

theorem disposed_agrees (keeps : store.Keeps ledger) (disposed : store.handle.disposed = true) (call : Call) :
    Agrees (call.serve store) (ledger.answer call) := by
  have ledgerDisposed : ledger.disposed = true := by rw [← keeps.disposed, disposed]
  have refused := @Call.Closed.serve _ _ store (closed disposed) call
  rw [Ledger.answer_of_disposed ledgerDisposed]
  cases call with
  | isDisposed => exact ⟨by simp [Call.serve, CommitStore.isDisposed, disposed], keeps⟩
  | dispose => exact ⟨rfl, ⟨keeps.logs.holds, keeps.logs.remembered⟩, keeps.heads, keeps.snapshots, ledgerDisposed.symm⟩
  | _ =>
    rw [refused (by simp) (by simp)]
    exact ⟨rfl, keeps⟩

/-- A store in a database does what its ledger does. -/
theorem serve_agrees (keeps : store.Keeps ledger) (portable : ledger.Portable) (sound : ledger.Sound accepted)
    (room : accepted.length < 2 ^ 63 - 1) {call : Call} (permits : ledger.Permits call) :
    Agrees (call.serve store) (ledger.answer call) := by
  cases isOpen : store.handle.disposed with
  | true => exact disposed_agrees keeps isOpen call
  | false =>
    have ledgerOpen : ledger.disposed = false := by rw [← keeps.disposed, isOpen]
    rw [Ledger.answer_of_open ledgerOpen]
    cases call with
    | prepare => exact ⟨congrArg (Except.map fun _ => Call.Reply.done) (ensureOpen_of_open isOpen), keeps⟩
    | commit attempt => exact commit_agrees keeps portable sound isOpen room attempt
    | getFrom key least most => exact getFrom_agrees keeps portable sound isOpen key least most
    | readFeed scope after => exact readFeed_agrees keeps portable sound isOpen scope after
    | markDispatched checkpoint => exact markDispatched_agrees keeps isOpen checkpoint
    | head key => exact head_agrees keeps portable isOpen key
    | addSnapshot snapshot => exact addSnapshot_agrees keeps portable isOpen (permits.snapshots ledgerOpen snapshot rfl)
    | snapshot key most => exact snapshot_agrees keeps portable isOpen key most
    | streamsToSnapshot bucket threshold => exact streamsToSnapshot_agrees keeps portable isOpen bucket threshold
    | deleteStream key => exact remove_agrees keeps isOpen fun other => other = key
    | purgeBucket bucket => exact remove_agrees keeps isOpen fun other => other.bucket = bucket
    | purge => exact remove_agrees keeps isOpen fun _ => true
    | dispose => exact dispose_agrees keeps
    | isDisposed => exact ⟨by simp [Call.serve, CommitStore.isDisposed, isOpen, Ledger.respond], keeps⟩

end CommitLog.DatabaseStore
