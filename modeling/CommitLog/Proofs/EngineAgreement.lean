import CommitLog.Proofs.Database.Refinement
import CommitLog.Proofs.Memory.Refinement

/-!
The two engines agree (`engines_agree`): whatever calls are made on a store in memory and on a store that
is alone on a new database, both give the same answers, as long as the run adds nothing that a database
cannot hold.
-/

namespace CommitLog

/-- A run in memory that adds nothing a database cannot hold: every accepted commit comes back from its
row as it was and is below the largest revision, and no snapshot is added above the head of its stream. -/
structure Comparable (store : MemoryStore) (calls : List Call) : Prop where
  commits : ∀ commit ∈ Call.accepted (Call.serveAll calls store).1, commit.Portable
  snapshots : ∀ before snapshot later, calls = before ++ .addSnapshot snapshot :: later →
    ∀ head, (CommitStore.head snapshot.key (Call.serveAll before store).2).1 = .ok (some head) →
      snapshot.revision.toNat ≤ head.revision.toNat

variable {memory : MemoryStore} {ledger : Ledger} {accepted : List Commit} {call : Call} {calls : List Call}

/-- The first call of a comparable run is one that the ledger permits. -/
theorem Comparable.permits (comparable : Comparable memory (call :: calls)) (keeps : memory.Keeps ledger)
    (sound : ledger.Sound accepted) : ledger.Permits call where
  commits commit made := by
    refine comparable.commits commit ?_
    obtain ⟨same, -⟩ := MemoryStore.serve_agrees keeps sound call
    rw [Call.serveAll]
    dsimp only
    rw [Call.accepted_cons, same, made]
    simp
  snapshots isOpen snapshot same head found := by
    subst same
    refine comparable.snapshots [] snapshot calls rfl head ?_
    have memoryOpen : memory.disposed = false := by rw [keeps.disposed, isOpen]
    show (memory.head snapshot.key).1 = _
    rw [MemoryStore.head_eq keeps memoryOpen, found]

theorem Comparable.later (comparable : Comparable memory (call :: calls)) :
    Comparable (call.serve memory).2 calls where
  commits commit member := by
    refine comparable.commits commit ?_
    rw [Call.serveAll]
    dsimp only
    rw [Call.accepted_cons]
    exact List.mem_append_right _ member
  snapshots before snapshot later same := by
    refine comparable.snapshots (call :: before) snapshot later ?_
    rw [same]
    rfl

/-- Stores of both engines that keep one ledger give the same answers from then on. -/
theorem answers_agree {database : DatabaseStore} (inMemory : memory.Keeps ledger) (inDatabase : database.Keeps ledger)
    (portable : ledger.Portable) (sound : ledger.Sound accepted) (comparable : Comparable memory calls)
    (few : accepted.length + (Call.accepted (Call.serveAll calls memory).1).length < 2 ^ 63 - 1) :
    (Call.serveAll calls memory).1 = (Call.serveAll calls database).1 := by
  induction calls generalizing memory database ledger accepted with
  | nil => rfl
  | cons call calls ih =>
    have permits := comparable.permits inMemory sound
    obtain ⟨memoryAnswer, memoryKeeps⟩ := MemoryStore.serve_agrees inMemory sound call
    obtain ⟨databaseAnswer, databaseKeeps⟩ :=
      DatabaseStore.serve_agrees inDatabase portable sound (by omega) permits
    have counted : (Call.accepted (Call.serveAll (call :: calls) memory).1).length =
        (ledger.answer call).1.accepted.toList.length +
          (Call.accepted (Call.serveAll calls (call.serve memory).2).1).length := by
      rw [Call.serveAll]
      dsimp only
      rw [Call.accepted_cons, List.length_append, memoryAnswer]
    have others := ih memoryKeeps databaseKeeps (portable.answer permits) (sound.step (ledger.answer_step call))
      comparable.later (by rw [List.length_append]; omega)
    rw [Call.serveAll, Call.serveAll]
    dsimp only
    rw [memoryAnswer, databaseAnswer, others]

/-- Both engines, started empty, give the same answers to the same calls. -/
theorem engines_agree (memoryConfig : MemoryConfig) (databaseConfig : DatabaseConfig) (calls : List Call)
    (comparable : Comparable (MemoryStore.create memoryConfig) calls)
    (few : (Call.accepted (Call.serveAll calls (MemoryStore.create memoryConfig)).1).length < 2 ^ 63 - 1) :
    (Call.serveAll calls (MemoryStore.create memoryConfig)).1 =
      (Call.serveAll calls (DatabaseStore.fresh databaseConfig)).1 := by
  have empty : Journal.Sound ({} : Ledger).toJournal [] := .empty
  exact answers_agree (.create memoryConfig) (.fresh databaseConfig) .empty empty comparable (by simpa using few)

/-- One commit, a snapshot of it, and two ways of looking at them. -/
theorem engines_agree_on_first :
    let first : Attempt := ⟨⟨"orders"⟩, ⟨"7"⟩, 1, ⟨"placed"⟩, 1, 0, [], [{ body := [1] }]⟩
    let calls : List Call :=
      [.commit first, .addSnapshot ⟨first.key, 1, [7]⟩, .getFrom first.key 0 5, .streamsToSnapshot first.bucket 1]
    Comparable (MemoryStore.create {}) calls ∧
      (Call.accepted (Call.serveAll calls (MemoryStore.create {})).1).length < 2 ^ 63 - 1 ∧
      (Call.serveAll calls (MemoryStore.create {})).1 = (Call.serveAll calls (DatabaseStore.fresh {})).1 := by
  intro first calls
  have made : Call.accepted (Call.serveAll calls (MemoryStore.create {})).1 = [first.toCommit ⟨1⟩] := rfl
  have comparable : Comparable (MemoryStore.create {}) calls := by
    constructor
    · intro commit member
      rw [made, List.mem_singleton] at member
      subst member
      refine ⟨.of_bare rfl fun event inside => ?_, by decide, by decide⟩
      rw [List.mem_singleton.1 inside]
    · intro before snapshot later same head found
      have second : before = [.commit first] ∧ snapshot = ⟨first.key, 1, [7]⟩ := by
        rcases before with _ | ⟨one, _ | ⟨two, _ | ⟨three, _ | ⟨four, more⟩⟩⟩⟩
        all_goals simp [calls] at same
        exact ⟨by rw [same.1], same.2.1.symm⟩
      obtain ⟨rfl, rfl⟩ := second
      cases found
      decide
  have few : (Call.accepted (Call.serveAll calls (MemoryStore.create {})).1).length < 2 ^ 63 - 1 :=
    Nat.lt_of_le_of_lt (Call.length_accepted_le _ _) (by decide)
  exact ⟨comparable, few, engines_agree {} {} calls comparable few⟩

end CommitLog
