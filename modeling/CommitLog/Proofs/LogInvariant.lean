import CommitLog.Proofs.Database.Calls
import CommitLog.Proofs.Memory.Refinement

/-!
What the log of a store looks like after any run: each stream is a chain without gaps, and the whole
log is numbered without a number ever being used twice. It is so for a store in memory and for any
number of stores that share a database.
-/

namespace CommitLog

/-- The invariant of a log, of which `stored` is left in each stream, after the commits `accepted`. -/
structure LogInvariant (stored : StreamKey → List Posting) (accepted : List Commit) : Prop where
  /-- In each stream the sequences are 1, 2, 3 and so on, each revision is the one before plus the
  number of events, no id is there twice, and the checkpoints ascend. -/
  streams : ∀ key, Posting.Chained (stored key)
  /-- Only accepted commits are stored, in the order in which they were accepted. -/
  kept : ∀ key, (stored key).Sublist ((accepted.filter fun commit => commit.key = key).map Commit.posting)
  /-- The first accepted commit has checkpoint 1, the second 2 and so on. -/
  numbered : ∀ (k : Nat) (commit : Commit), accepted[k]? = some commit → commit.checkpoint.toInt = k + 1

theorem Journal.Sound.logInvariant {journal : Journal} {accepted : List Commit} (sound : journal.Sound accepted) :
    LogInvariant journal.postings accepted where
  streams := sound.streams
  kept _ := (sound.kept.filter _).map _
  numbered := sound.numbered

/-! ### A shared database -/

/-- Stores on one database, each known by a number. -/
structure SharedDatabase where
  db : Database := {}
  handles : Nat → Option Handle := fun _ => none

namespace SharedDatabase

inductive Move where
  /-- Opens a store on the database, in place of the one that had the number. -/
  | join (number : Nat) (config : DatabaseConfig)
  | call (number : Nat) (call : Call)

def put (number : Nat) (handle : Handle) (handles : Nat → Option Handle) : Nat → Option Handle :=
  fun other => if other = number then some handle else handles other

/-- One whole operation of one of the stores, and its answer if it is a call. -/
def act (move : Move) (shared : SharedDatabase) : Option Call.Answer × SharedDatabase :=
  match move with
  | .join number config =>
    match DatabaseStore.open? config shared.db with
    | (.ok handle, db) => (none, ⟨db, put number handle shared.handles⟩)
    | (.error _, db) => (none, { shared with db })
  | .call number call =>
    match shared.handles number with
    | none => (none, shared)
    | some handle =>
      let (answer, store) := call.serve (DatabaseStore.mk shared.db handle)
      (some answer, ⟨store.db, put number store.handle shared.handles⟩)

/-- Operations one after another, and the answers to the calls among them. -/
def actAll : List Move → SharedDatabase → List Call.Answer × SharedDatabase
  | [], shared => ([], shared)
  | move :: moves, shared =>
    let (answer, shared) := act move shared
    let (answers, shared) := actAll moves shared
    (answer.toList ++ answers, shared)

/-- Whichever store it is that does something, the common log makes a step. -/
theorem act_step {shared : SharedDatabase} {journal : Journal} {accepted : List Commit}
    (holds : shared.db.Holds journal) (sound : journal.Sound accepted) (move : Move) :
    ∃ after, Journal.Step journal ((act move shared).1.bind Call.Answer.accepted) after ∧
      (act move shared).2.db.Holds after := by
  cases move with
  | join number config =>
    have opened := holds.verifyVersion
    rw [act, DatabaseStore.open?]
    generalize shared.db.verifyVersion = verified at opened
    obtain ⟨result, db⟩ := verified
    cases result with
    | error error => exact ⟨journal, .stay journal, opened⟩
    | ok => exact ⟨journal, .stay journal, opened⟩
  | call number call =>
    cases known : shared.handles number with
    | none =>
      rw [act, known]
      exact ⟨journal, .stay journal, holds⟩
    | some handle =>
      have lent : DatabaseStore.Logs False ⟨shared.db, handle⟩ journal := ⟨holds, False.elim⟩
      obtain ⟨after, step, logged⟩ := DatabaseStore.serve_step lent sound call
      rw [act, known]
      exact ⟨after, step, logged.holds⟩

theorem actAll_sound {shared : SharedDatabase} {journal : Journal} {accepted : List Commit}
    (holds : shared.db.Holds journal) (sound : journal.Sound accepted) (moves : List Move) :
    ∃ after, after.Sound (accepted ++ Call.accepted (actAll moves shared).1) ∧ (actAll moves shared).2.db.Holds after := by
  induction moves generalizing shared journal accepted with
  | nil => exact ⟨journal, by simpa [actAll, Call.accepted] using sound, holds⟩
  | cons move moves ih =>
    obtain ⟨middle, step, held⟩ := act_step holds sound move
    obtain ⟨after, soundAfter, heldAfter⟩ := ih held (sound.step step)
    refine ⟨after, ?_, heldAfter⟩
    have joined : Call.accepted ((act move shared).1.toList ++ (actAll moves (act move shared).2).1) =
        ((act move shared).1.bind Call.Answer.accepted).toList ++
          Call.accepted (actAll moves (act move shared).2).1 := by
      cases (act move shared).1 with
      | none => rfl
      | some answer => exact Call.accepted_cons answer _
    rw [List.append_assoc, ← joined] at soundAfter
    exact soundAfter

end SharedDatabase

/-- The invariant holds after every run of calls on a store in memory, and after every run of whole
operations of any number of stores on one database. -/
theorem log_invariant :
    (∀ (config : MemoryConfig) (calls : List Call),
      let run := Call.serveAll calls (MemoryStore.create config)
      LogInvariant (fun key => (run.2.log key).map Commit.posting) (Call.accepted run.1)) ∧
    (∀ moves : List SharedDatabase.Move,
      let run := SharedDatabase.actAll moves {}
      LogInvariant (fun key => (run.2.db.stream key).map Row.posting) (Call.accepted run.1)) := by
  constructor
  · intro config calls
    have empty : Journal.Sound ({} : Ledger).toJournal [] := .empty
    obtain ⟨same, keeps⟩ := MemoryStore.serveAll_agrees (.create config) empty calls
    have sound := Ledger.answerAll_sound empty calls
    rw [← same, List.nil_append] at sound
    have stored : (fun key => ((Call.serveAll calls (MemoryStore.create config)).2.log key).map Commit.posting) =
        (Ledger.answerAll calls {}).2.postings := by
      funext key
      rw [keeps.streams]
      rfl
    dsimp only
    rw [stored]
    exact sound.logInvariant
  · intro moves
    have fresh : ({} : SharedDatabase).db.Holds {} := .empty
    obtain ⟨journal, sound, holds⟩ := SharedDatabase.actAll_sound fresh .empty moves
    have stored : (fun key => ((SharedDatabase.actAll moves {}).2.db.stream key).map Row.posting) =
        journal.postings := funext fun key => holds.postings_eq sound key
    dsimp only
    rw [stored]
    exact sound.logInvariant

end CommitLog
