import CommitLog.Proofs.Database.Calls
import CommitLog.Proofs.Memory.Refinement

/-!
How a store decides on a commit. Whatever has happened before, the first of a fixed list of rules that
applies gives the answer, and an attempt that is not taken leaves the store as it was.
-/

namespace CommitLog

/-- The answer to an attempt: the rules of `Attempt.refusal` after a look at the disposal of the store,
and otherwise the attempt itself with the checkpoint after those of all accepted commits. -/
def Attempt.decision (attempt : Attempt) (disposed : Bool) (stored : List Posting) (accepted : Nat) :
    Except Error Commit :=
  if disposed then .error .disposed
  else
    match attempt.refusal stored with
    | some error => .error error
    | none => .ok (attempt.toCommit ⟨Int64.ofNat (accepted + 1)⟩)

/-- A store with the given postings in its streams answers any attempt with its decision. An attempt that
fails does not fail for a number that left its word, and leaves the store as it is. -/
structure DecidesCommits {σ : Type} [CommitStore σ] (disposed : Bool) (stored : StreamKey → List Posting)
    (accepted : Nat) (store : σ) : Prop where
  decided : ∀ attempt, (CommitStore.commit attempt store).1 =
    attempt.decision disposed (stored attempt.key) accepted
  noOverflow : ∀ attempt cause, (CommitStore.commit attempt store).1 ≠ .error (.overflow cause)
  untouched : ∀ attempt error, (CommitStore.commit attempt store).1 = .error error →
    (CommitStore.commit attempt store).2 = store

/-- No decision is an overflow. -/
theorem Attempt.refusal_ne_overflow (attempt : Attempt) (stored : List Posting) (cause : Overflow) :
    attempt.refusal stored ≠ some (.overflow cause) := by
  intro refused
  simp only [refusal, duplicate, conflict] at refused
  repeat' split at refused
  all_goals cases refused

theorem Attempt.decision_ne_overflow (attempt : Attempt) (disposed : Bool) (stored : List Posting) (accepted : Nat)
    (cause : Overflow) : attempt.decision disposed stored accepted ≠ .error (.overflow cause) := by
  intro decided
  unfold decision at decided
  split at decided
  · cases decided
  split at decided
  · next error refused =>
    cases decided
    exact attempt.refusal_ne_overflow stored cause refused
  · cases decided

variable {journal : Journal} {accepted : List Commit}

/-- The checkpoint after those of all accepted commits. -/
theorem Journal.Sound.next_eq (sound : journal.Sound accepted) (room : accepted.length < 2 ^ 63 - 1) :
    journal.last.next = .ok ⟨Int64.ofNat (accepted.length + 1)⟩ := by
  obtain ⟨following, next⟩ := sound.exists_next room
  have value : following.toInt = (Int64.ofNat (accepted.length + 1)).toInt := by
    rw [Checkpoint.toInt_next next, sound.last, Int64.toInt_ofNat_of_lt (by omega)]
    rfl
  rw [next]
  exact congrArg Except.ok (Checkpoint.eq_of_toInt value)

/-- A store that answers by the rules, as to its result and its state after a refusal. -/
theorem DecidesCommits.of_rules {σ : Type} [CommitStore σ] {store : σ} {disposed : Bool}
    {stored : StreamKey → List Posting} {accepted : Nat}
    (closed : disposed = true → ∀ attempt, CommitStore.commit attempt store = (.error .disposed, store))
    (refused : disposed = false → ∀ attempt error, attempt.refusal (stored attempt.key) = some error →
      CommitStore.commit attempt store = (.error error, store))
    (taken : disposed = false → ∀ attempt, attempt.refusal (stored attempt.key) = none →
      (CommitStore.commit attempt store).1 = .ok (attempt.toCommit ⟨Int64.ofNat (accepted + 1)⟩)) :
    DecidesCommits disposed stored accepted store := by
  have decided : ∀ attempt, (CommitStore.commit attempt store).1 =
      attempt.decision disposed (stored attempt.key) accepted := by
    intro attempt
    unfold Attempt.decision
    split
    · next gone => rw [closed gone]
    · next isOpen =>
      rw [Bool.not_eq_true] at isOpen
      split
      · next error found => rw [refused isOpen attempt error found]
      · next found => exact taken isOpen attempt found
  refine ⟨decided, fun attempt cause failed => ?_, fun attempt error failed => ?_⟩
  · rw [decided] at failed
    exact Attempt.decision_ne_overflow _ _ _ _ _ failed
  · cases gone : disposed with
    | true => rw [closed gone]
    | false =>
      cases found : attempt.refusal (stored attempt.key) with
      | some other => rw [refused gone attempt other found]
      | none =>
        rw [taken gone attempt found] at failed
        contradiction

/-- A store in memory decides by the postings of its ledger. -/
theorem MemoryStore.Keeps.decides {store : MemoryStore} {ledger : Ledger} (keeps : store.Keeps ledger)
    (sound : ledger.Sound accepted) (room : accepted.length < 2 ^ 63 - 1) :
    DecidesCommits store.disposed ledger.postings accepted.length store := by
  have next := sound.next_eq room
  refine .of_rules ?_ ?_ ?_
  · intro gone attempt
    exact (MemoryStore.closed gone).commit attempt
  · intro isOpen attempt error refused
    have checked := MemoryStore.check_eq keeps sound isOpen attempt
    rw [refused] at checked
    show store.commit attempt = _
    rw [MemoryStore.commit, checked]
  · intro isOpen attempt taken
    have checked := MemoryStore.check_eq keeps sound isOpen attempt
    rw [taken] at checked
    show (store.commit attempt).1 = _
    rw [MemoryStore.commit, checked, keeps.last, next]

/-- A store that is alone on its database decides by the postings of its journal. -/
theorem DatabaseStore.Logs.decides {store : DatabaseStore} (logs : store.Logs True journal)
    (sound : journal.Sound accepted) (room : accepted.length < 2 ^ 63 - 1) :
    DecidesCommits store.handle.disposed journal.postings accepted.length store := by
  have next := sound.next_eq room
  have rules := fun isOpen attempt =>
    DatabaseStore.commit_eq logs.holds sound isOpen attempt (logs.cached trivial)
  refine .of_rules ?_ ?_ ?_
  · intro gone attempt
    exact (DatabaseStore.closed gone).commit attempt
  · intro isOpen attempt error refused
    show store.commit attempt = _
    rw [rules isOpen attempt, refused]
  · intro isOpen attempt taken
    show (store.commit attempt).1 = _
    rw [rules isOpen attempt, taken, next]

/-- In every state that a run can reach, a store decides on commits by the rules: a store in memory, and
one that is alone on its database. -/
theorem commits_decided :
    (∀ (config : MemoryConfig) (calls : List Call),
      let run := Call.serveAll calls (MemoryStore.create config)
      (Call.accepted run.1).length < 2 ^ 63 - 1 →
        DecidesCommits run.2.disposed (fun key => (run.2.log key).map Commit.posting) (Call.accepted run.1).length
          run.2) ∧
    (∀ (config : DatabaseConfig) (calls : List Call),
      let run := Call.serveAll calls (DatabaseStore.fresh config)
      (Call.accepted run.1).length < 2 ^ 63 - 1 →
        DecidesCommits run.2.handle.disposed (fun key => (run.2.db.stream key).map Row.posting)
          (Call.accepted run.1).length run.2) := by
  constructor
  · intro config calls run room
    have empty : Journal.Sound ({} : Ledger).toJournal [] := .empty
    obtain ⟨same, keeps⟩ := MemoryStore.serveAll_agrees (.create config) empty calls
    have sound := Ledger.answerAll_sound empty calls
    rw [← same, List.nil_append] at sound
    have stored : (fun key => (run.2.log key).map Commit.posting) = (Ledger.answerAll calls {}).2.postings := by
      funext key
      rw [keeps.streams]
      rfl
    rw [stored]
    exact keeps.decides sound room
  · intro config calls run room
    obtain ⟨journal, sound, logs⟩ := DatabaseStore.serveAll_sound (.fresh config) .empty calls
    rw [List.nil_append] at sound
    have stored : (fun key => (run.2.db.stream key).map Row.posting) = journal.postings :=
      funext fun key => logs.holds.postings_eq sound key
    rw [stored]
    exact logs.decides sound room

/-- Both engines after one commit to a stream. -/
theorem commits_decided_after_first :
    let first : Attempt := ⟨⟨"orders"⟩, ⟨"7"⟩, 1, ⟨"placed"⟩, 1, 0, [], [{ body := [1] }]⟩
    let inMemory := Call.serveAll [.commit first] (MemoryStore.create {})
    let inDatabase := Call.serveAll [.commit first] (DatabaseStore.fresh {})
    ((Call.accepted inMemory.1).length < 2 ^ 63 - 1 ∧
        DecidesCommits inMemory.2.disposed (fun key => (inMemory.2.log key).map Commit.posting)
          (Call.accepted inMemory.1).length inMemory.2) ∧
      ((Call.accepted inDatabase.1).length < 2 ^ 63 - 1 ∧
        DecidesCommits inDatabase.2.handle.disposed (fun key => (inDatabase.2.db.stream key).map Row.posting)
          (Call.accepted inDatabase.1).length inDatabase.2) := by
  intro first inMemory inDatabase
  have few : (Call.accepted inMemory.1).length < 2 ^ 63 - 1 :=
    Nat.lt_of_le_of_lt (Call.length_accepted_le _ _) (by decide)
  have fewRows : (Call.accepted inDatabase.1).length < 2 ^ 63 - 1 :=
    Nat.lt_of_le_of_lt (Call.length_accepted_le _ _) (by decide)
  exact ⟨⟨few, commits_decided.1 {} [.commit first] few⟩, ⟨fewRows, commits_decided.2 {} [.commit first] fewRows⟩⟩

end CommitLog
