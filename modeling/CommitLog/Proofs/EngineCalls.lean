import CommitLog.Proofs.Engine

/-!
Calls on an engine that is open. Whatever is called except its disposal, the engine stays open and holds a
journal that has made a step (`Holds.serve`), so it does over any number of calls (`Holds.serveAll`).
-/

namespace CommitLog

/-- A ledger is disposed by no other call than the one for it. -/
theorem Ledger.disposed_answer {ledger : Ledger} (isOpen : ledger.disposed = false) {call : Call}
    (other : call ≠ .dispose) : (ledger.answer call).2.disposed = false := by
  rw [Ledger.answer_of_open isOpen]
  cases call with
  | dispose => exact absurd rfl other
  | commit attempt =>
    show (ledger.commit attempt).2.disposed = false
    unfold Ledger.commit
    split
    · exact isOpen
    split
    · exact isOpen
    · exact isOpen
  | addSnapshot snapshot =>
    show (ledger.addSnapshot snapshot).2.disposed = false
    unfold Ledger.addSnapshot
    split
    · exact isOpen
    split
    · exact isOpen
    · exact isOpen
  | _ => exact isOpen

namespace DatabaseStore

theorem disposed_update {α : Type} (change : Database → Except Error (α × Database)) (done : Handle → Handle)
    (same : ∀ handle, (done handle).disposed = handle.disposed) (store : DatabaseStore) :
    (store.update change done).2.handle.disposed = store.handle.disposed := by
  unfold update
  split
  · rfl
  split
  · exact same store.handle
  · rfl

/-- A store in a database is disposed by no other call than the one for it. -/
theorem disposed_serve (store : DatabaseStore) {call : Call} (other : call ≠ .dispose) :
    (call.serve store).2.handle.disposed = store.handle.disposed := by
  have removed : ∀ gone, (store.remove gone).2.handle.disposed = store.handle.disposed := fun gone =>
    disposed_update _ (fun handle => { handle with recent := handle.recent.forget gone }) (fun _ => rfl) store
  cases call with
  | dispose => exact absurd rfl other
  | commit attempt =>
    have updated := disposed_update (Database.append attempt)
      (fun handle => { handle with recent := handle.recent.insert (commitKey attempt) }) (fun _ => rfl) store
    show (store.commit attempt).2.handle.disposed = _
    unfold commit
    split
    · rfl
    dsimp only
    split
    all_goals
      next outcome =>
      rw [outcome] at updated
      exact updated
  | readFeed scope after =>
    show (CommitStore.readFeed scope after store).2.handle.disposed = _
    rw [readFeed_store]
  | markDispatched | addSnapshot => exact disposed_update _ _ (fun _ => rfl) store
  | deleteStream | purgeBucket | purge => exact removed _
  | prepare | getFrom | head | snapshot | streamsToSnapshot | isDisposed => rfl

end DatabaseStore

namespace Engine

variable {readable : Commit → Prop} {engine : Engine} {journal : Journal} {accepted : List Commit}

/-- An engine serves a call as the store in it does. -/
theorem serve_memory (store : MemoryStore) (call : Call) :
    call.serve (Engine.memory store) = ((call.serve store).1, .memory (call.serve store).2) := by
  cases call with
  | readFeed scope after =>
    have stays : (CommitStore.readFeed scope after store).2 = store := CommitStore.readFeed_store (fun _ => rfl) rfl
    have read : CommitStore.readFeed scope after (Engine.memory store) =
        ((CommitStore.readFeed scope after store).1, .memory store) := by
      refine @CommitStore.readFeed_into MemoryStore Engine _ _ store _ id _ _ (fun _ => rfl) (fun _ => rfl) rfl ?_
      rw [Except.map_id]
      rfl
    simp only [Call.serve, Call.answering, read, stays]
  | _ => rfl

theorem serve_database (store : DatabaseStore) (call : Call) :
    call.serve (Engine.database store) = ((call.serve store).1, .database (call.serve store).2) := by
  cases call with
  | readFeed scope after =>
    have stays : (CommitStore.readFeed scope after store).2 = store := CommitStore.readFeed_store (fun _ => rfl) rfl
    have read : CommitStore.readFeed scope after (Engine.database store) =
        ((CommitStore.readFeed scope after store).1, .database store) := by
      refine @CommitStore.readFeed_into DatabaseStore Engine _ _ store _ id _ _ (fun _ => rfl) (fun _ => rfl) rfl ?_
      rw [Except.map_id]
      rfl
    simp only [Call.serve, Call.answering, read, stays]
  | _ => rfl

/-- So it does over any number of calls. -/
theorem serveAll_memory (calls : List Call) (store : MemoryStore) :
    Call.serveAll calls (Engine.memory store) =
      ((Call.serveAll calls store).1, .memory (Call.serveAll calls store).2) := by
  induction calls generalizing store with
  | nil => rfl
  | cons call calls ih =>
    rw [Call.serveAll, serve_memory, Call.serveAll]
    dsimp only
    rw [ih]

/-- An open engine stays open, and its journal makes a step. -/
theorem Holds.serve (holds : engine.Holds readable journal) (sound : journal.Sound accepted) {call : Call}
    (other : call ≠ .dispose) :
    ∃ after, Journal.Step journal (call.serve engine).1.accepted after ∧ (call.serve engine).2.Holds readable after := by
  cases holds with
  | @memory store ledger keeps isOpen =>
    obtain ⟨same, kept⟩ := MemoryStore.serve_agrees keeps sound call
    have ledgerOpen : ledger.disposed = false := by rw [← keeps.disposed, isOpen]
    rw [serve_memory, same]
    refine ⟨_, ledger.answer_step call, .memory kept ?_⟩
    rw [kept.disposed, Ledger.disposed_answer ledgerOpen other]
  | database logs isOpen storable =>
    rename_i store
    obtain ⟨after, step, logged⟩ := DatabaseStore.serve_step logs sound call
    rw [serve_database]
    exact ⟨after, step, .database logged ((store.disposed_serve other).trans isOpen) storable⟩

theorem Holds.serveAll (holds : engine.Holds readable journal) (sound : journal.Sound accepted) {calls : List Call}
    (others : .dispose ∉ calls) :
    ∃ after made, after.Sound made ∧ (Call.serveAll calls engine).2.Holds readable after := by
  induction calls generalizing engine journal accepted with
  | nil => exact ⟨journal, accepted, sound, holds⟩
  | cons call calls ih =>
    rw [List.mem_cons, not_or] at others
    obtain ⟨middle, step, held⟩ := holds.serve sound (Ne.symm others.1)
    exact ih held (sound.step step) others.2

end Engine
end CommitLog
