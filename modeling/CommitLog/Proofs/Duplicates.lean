import CommitLog.Proofs.LogInvariant
import Mathlib.Data.List.Induction

/-!
Which commits are answered as duplicates when several stores share a database. A store that remembers a
commit does not ask the table. What it remembers is in the table unless another store has removed it there
(`remembered_stored`), so the answer goes by the table except for commits that were removed behind the
store's back (`duplicate_iff`).
-/

namespace CommitLog

/-- Whether a call removes a stream. -/
def Call.removes : Call → StreamKey → Bool
  | .deleteStream gone, key => key = gone
  | .purgeBucket bucket, key => key.bucket = bucket
  | .purge, _ => true
  | _, _ => false

/-- Of the rules on attempts of the right form, only the one on ids answers with a duplicate. -/
theorem Attempt.refusal_eq_duplicate {attempt : Attempt} (valid : attempt.validate = .ok ()) {stored : List Posting} :
    attempt.refusal stored = some attempt.duplicate ↔ ∃ posting ∈ stored, posting.id = attempt.id := by
  rw [refusal_of_valid valid]
  by_cases held : ∃ posting ∈ stored, posting.id = attempt.id
  · rw [if_pos held]
    exact iff_of_true rfl held
  · rw [if_neg held]
    refine iff_of_false (fun answered => ?_) held
    repeat' split at answered
    all_goals cases answered

namespace Database

/-- The table has a row for the id in the stream. -/
def Stores (db : Database) (key : CommitKey) : Prop :=
  ∃ row ∈ db.rows, row.key = key.stream ∧ row.id = key.id

instance (db : Database) (key : CommitKey) : Decidable (db.Stores key) :=
  inferInstanceAs (Decidable (∃ row ∈ db.rows, row.key = key.stream ∧ row.id = key.id))

variable {db : Database} {key : CommitKey} {attempt : Attempt} {checkpoint : Checkpoint}

/-- A transaction that adds a commit adds its row and no other. -/
theorem append_ok {after : Database} (added : db.append attempt = .ok (checkpoint, after)) :
    after = db.appended attempt checkpoint := by
  unfold append at added
  simp only [bind, Except.bind, pure, Except.pure, throw, throwThe, MonadExceptOf.throw] at added
  repeat' split at added
  all_goals first | contradiction | skip
  cases added
  rfl

theorem stores_appended :
    (db.appended attempt checkpoint).Stores key ↔ db.Stores key ∨ key = DatabaseStore.commitKey attempt := by
  obtain ⟨stream, id⟩ := key
  simp [Stores, appended, rowOf, DatabaseStore.commitKey, or_and_right, exists_or, eq_comm]

theorem stores_markDispatched : (db.markDispatched checkpoint).Stores key ↔ db.Stores key := by
  constructor
  · rintro ⟨row, member, same⟩
    obtain ⟨other, stored, rfl⟩ := List.mem_map.1 member
    exact ⟨other, stored, by split at same <;> exact same⟩
  · rintro ⟨row, stored, same⟩
    exact ⟨_, List.mem_map_of_mem stored, by split <;> exact same⟩

theorem stores_removeWhere {gone : StreamKey → Bool} :
    (db.removeWhere gone).Stores key ↔ db.Stores key ∧ gone key.stream = false := by
  constructor
  · rintro ⟨row, member, sameKey, sameId⟩
    obtain ⟨stored, stays⟩ := List.mem_filter.1 member
    exact ⟨⟨row, stored, sameKey, sameId⟩, by simpa [sameKey] using stays⟩
  · rintro ⟨⟨row, stored, sameKey, sameId⟩, stays⟩
    exact ⟨row, List.mem_filter.2 ⟨stored, by simp [sameKey, stays]⟩, sameKey, sameId⟩

theorem rows_addSnapshot (snapshot : Snapshot) (db : Database) : (db.addSnapshot snapshot).2.rows = db.rows := by
  unfold addSnapshot
  dsimp only
  split
  · rfl
  split <;> rfl

theorem rows_verifyVersion (db : Database) : db.verifyVersion.2.rows = db.rows := by
  unfold verifyVersion write
  split
  · split <;> rfl
  · split <;> rfl

end Database

/-! ### One store -/

namespace DatabaseStore

variable {call : Call} {store after : DatabaseStore}

/-- What a call does to the rows of a table and to what its store remembers of them. -/
structure Accounts (call : Call) (store after : DatabaseStore) : Prop where
  /-- Rows of streams that the call does not remove stay. -/
  rows : ∀ key, store.db.Stores key → call.removes key.stream = false → after.db.Stores key
  /-- Whatever the store remembers is in the table, or was remembered already; a call that has removed
  a stream forgets it. -/
  recent : ∀ key ∈ after.handle.recent.keys, after.db.Stores key ∨
    key ∈ store.handle.recent.keys ∧ (call.removes key.stream = true → after = store)

theorem Accounts.refl (call : Call) (store : DatabaseStore) : Accounts call store store where
  rows _ stored _ := stored
  recent _ remembered := .inr ⟨remembered, fun _ => rfl⟩

/-- A transaction changes the table and what the store remembers together, or neither. -/
theorem Accounts.update {α : Type} {change : Database → Except Error (α × Database)} {done : Handle → Handle}
    (changed : ∀ answer db, change store.db = .ok (answer, db) → Accounts call store ⟨db, done store.handle⟩) :
    Accounts call store (store.update change done).2 := by
  unfold DatabaseStore.update Database.write
  cases store.ensureOpen with
  | error => exact .refl call store
  | ok =>
    by_cases locked : store.db.writeLocked = true
    · simpa [locked] using Accounts.refl call store
    · cases outcome : change store.db with
      | error => simpa [locked] using Accounts.refl call store
      | ok made => simpa [locked] using changed made.1 made.2 outcome

/-- A call that removes nothing, and after which the table has the same commits. -/
theorem Accounts.of_same (stays : ∀ key, call.removes key = false)
    (rows : ∀ key, store.db.Stores key → after.db.Stores key)
    (recent : after.handle.recent = store.handle.recent) : Accounts call store after where
  rows key stored _ := rows key stored
  recent key remembered := by
    rw [recent] at remembered
    exact .inr ⟨remembered, fun removed => by simp [stays] at removed⟩

theorem Accounts.remove {gone : StreamKey → Bool} (removes : call.removes = gone) (store : DatabaseStore) :
    Accounts call store (store.remove gone).2 := by
  refine .update fun answer db changed => ?_
  cases changed
  constructor
  · intro key stored stays
    rw [removes] at stays
    exact Database.stores_removeWhere.2 ⟨stored, stays⟩
  · intro key remembered
    obtain ⟨earlier, stays⟩ := List.mem_filter.1 remembered
    refine .inr ⟨earlier, fun removed => ?_⟩
    rw [removes] at removed
    simp [removed] at stays

theorem Accounts.commit (attempt : Attempt) (store : DatabaseStore) :
    Accounts (.commit attempt) store (store.commit attempt).2 := by
  unfold DatabaseStore.commit
  split
  · exact .refl _ store
  have updated : Accounts (.commit attempt) store
      (store.update (Database.append attempt) fun handle =>
        { handle with recent := handle.recent.insert (commitKey attempt) }).2 := by
    refine .update fun checkpoint db added => ?_
    cases Database.append_ok added
    constructor
    · intro key stored _
      exact Database.stores_appended.2 (.inl stored)
    · intro key remembered
      rcases List.mem_cons.1 (List.mem_of_mem_take remembered) with new | earlier
      · exact .inl (Database.stores_appended.2 (.inr new))
      · exact .inr ⟨(List.mem_filter.1 earlier).1, fun removed => by simp [Call.removes] at removed⟩
  dsimp only
  split
  all_goals
    next outcome =>
    rw [outcome] at updated
    exact updated

/-- What any call does. -/
theorem Accounts.serve (call : Call) (store : DatabaseStore) : Accounts call store (call.serve store).2 := by
  cases call with
  | commit attempt => exact .commit attempt store
  | readFeed scope checkpoint =>
    show Accounts _ store (CommitStore.readFeed scope checkpoint store).2
    rw [readFeed_store]
    exact .refl _ store
  | markDispatched checkpoint =>
    show Accounts _ store (store.markDispatched checkpoint).2
    refine .update fun answer db changed => ?_
    cases changed
    exact .of_same (fun _ => rfl) (fun key => Database.stores_markDispatched.2) rfl
  | addSnapshot snapshot =>
    show Accounts _ store (store.addSnapshot snapshot).2
    refine .update fun answer db changed => ?_
    have rows : db.rows = store.db.rows := by
      rw [← Database.rows_addSnapshot snapshot store.db, Except.ok.inj changed]
    refine .of_same (fun _ => rfl) (fun key stored => ?_) rfl
    rwa [Database.Stores, rows]
  | deleteStream key => exact .remove rfl store
  | purgeBucket bucket => exact .remove rfl store
  | purge => exact .remove rfl store
  | dispose => exact .of_same (fun _ => rfl) (fun _ stored => stored) rfl
  | prepare | getFrom | head | snapshot | streamsToSnapshot | isDisposed => exact .refl _ store

theorem holdsId_iff_stores {db : Database} {attempt : Attempt} :
    db.holdsId attempt = true ↔ db.Stores (commitKey attempt) := by
  simp only [Database.holdsId, Database.stream, List.any_filter, List.any_eq_true, Bool.and_eq_true,
    decide_eq_true_eq, Database.Stores, commitKey]

/-- An attempt of the right form is a duplicate if the store remembers it or the table has it. -/
theorem commit_duplicate_iff {journal : Journal} {accepted : List Commit} (holds : store.db.Holds journal)
    (sound : journal.Sound accepted) (isOpen : store.handle.disposed = false) {attempt : Attempt}
    (valid : attempt.validate = .ok ()) :
    (store.commit attempt).1 = .error attempt.duplicate ↔
      commitKey attempt ∈ store.handle.recent.keys ∨ store.db.Stores (commitKey attempt) := by
  by_cases cached : store.handle.recent.contains (commitKey attempt) = true
  · rw [commit, check_of_cached isOpen valid cached]
    exact iff_of_true rfl (.inl (List.contains_iff_mem.1 cached))
  · have new : commitKey attempt ∉ store.handle.recent.keys := fun member => cached (List.contains_iff_mem.2 member)
    rw [commit_eq holds sound isOpen attempt (fun remembered => absurd remembered cached), or_iff_right new,
      ← holdsId_iff_stores, holds.holdsId_iff, ← Attempt.refusal_eq_duplicate valid]
    cases attempt.refusal (journal.postings attempt.key) with
    | some error => simp
    | none => cases journal.last.next <;> simp [Attempt.duplicate]

end DatabaseStore

/-! ### Several stores -/

namespace SharedDatabase

/-- The store of a number remembers a commit. -/
def Remembers (number : Nat) (key : CommitKey) (shared : SharedDatabase) : Prop :=
  ∃ handle, shared.handles number = some handle ∧ key ∈ handle.recent.keys

/-- At some moment of a run, another store removes the stream of a commit that is in the table and that the
store of the number remembers. -/
def RemovedBehind (number : Nat) (key : CommitKey) (moves : List Move) : Prop :=
  ∃ before other removal later, moves = before ++ .call other removal :: later ∧ other ≠ number ∧
    removal.removes key.stream = true ∧ (actAll before {}).2.db.Stores key ∧
    (actAll before {}).2.Remembers number key

variable {number : Nat} {key : CommitKey} {shared : SharedDatabase} {moves : List Move}

theorem actAll_snoc (moves : List Move) (move : Move) (shared : SharedDatabase) :
    (actAll (moves ++ [move]) shared).2 = (act move (actAll moves shared).2).2 := by
  induction moves generalizing shared with
  | nil => rfl
  | cons first moves ih => exact ih (act first shared).2

theorem RemovedBehind.snoc (removed : RemovedBehind number key moves) (move : Move) :
    RemovedBehind number key (moves ++ [move]) := by
  obtain ⟨before, other, removal, later, rfl, moment⟩ := removed
  exact ⟨before, other, removal, later ++ [move], by simp, moment⟩

/-- The store of the number is the same after an operation of another one. -/
theorem handles_call {other : Nat} (another : other ≠ number) (call : Call) (shared : SharedDatabase) :
    (act (.call other call) shared).2.handles number = shared.handles number := by
  rw [act]
  cases shared.handles other with
  | none => rfl
  | some handle => exact if_neg (Ne.symm another)

/-- Opening a store leaves the table alone. -/
theorem stores_join (other : Nat) (config : DatabaseConfig) (shared : SharedDatabase) (key : CommitKey) :
    (act (.join other config) shared).2.db.Stores key ↔ shared.db.Stores key := by
  have rows := shared.db.rows_verifyVersion
  rw [act, DatabaseStore.open?]
  generalize shared.db.verifyVersion = verified at rows
  obtain ⟨result, db⟩ := verified
  cases result with
  | error => rw [Database.Stores, rows, Database.Stores]
  | ok => rw [Database.Stores, rows, Database.Stores]

/-- A store that has just been opened remembers nothing. -/
theorem remembers_join {other : Nat} {config : DatabaseConfig}
    (remembers : (act (.join other config) shared).2.Remembers number key) : shared.Remembers number key := by
  obtain ⟨handle, seated, member⟩ := remembers
  rw [act, DatabaseStore.open?] at seated
  generalize shared.db.verifyVersion = verified at seated
  obtain ⟨result, db⟩ := verified
  cases result with
  | error => exact ⟨handle, seated, member⟩
  | ok =>
    by_cases same : number = other
    · cases (if_pos same).symm.trans seated
      simp [Handle.create] at member
    · exact ⟨handle, (if_neg same).symm.trans seated, member⟩

/-- Nothing is remembered after an operation that is not in the table, unless it was so before, or the
operation is another store's that has removed it. -/
theorem remembered_act {move : Move} (remembers : (act move shared).2.Remembers number key)
    (before : shared.Remembers number key → shared.db.Stores key) :
    (act move shared).2.db.Stores key ∨
      ∃ other removal, move = .call other removal ∧ other ≠ number ∧ removal.removes key.stream = true ∧
        shared.Remembers number key := by
  cases move with
  | join other config => exact .inl ((stores_join other config shared key).2 (before (remembers_join remembers)))
  | call other call =>
    cases known : shared.handles other with
    | none =>
      rw [act, known] at remembers ⊢
      exact .inl (before remembers)
    | some handle =>
      have accounts := DatabaseStore.Accounts.serve call ⟨shared.db, handle⟩
      have acted : (act (.call other call) shared).2.db = (call.serve (DatabaseStore.mk shared.db handle)).2.db := by
        rw [act, known]
      rw [acted]
      by_cases own : other = number
      · subst own
        obtain ⟨next, seated, member⟩ := remembers
        rw [act, known] at seated
        cases (if_pos rfl).symm.trans seated
        rcases accounts.recent key member with stored | ⟨earlier, forgotten⟩
        · exact .inl stored
        · have stored := before ⟨handle, known, earlier⟩
          cases removed : call.removes key.stream with
          | true =>
            rw [forgotten removed]
            exact .inl stored
          | false => exact .inl (accounts.rows key stored removed)
      · obtain ⟨next, seated, member⟩ := remembers
        rw [handles_call own] at seated
        have earlier : shared.Remembers number key := ⟨next, seated, member⟩
        cases removed : call.removes key.stream with
        | true => exact .inr ⟨other, call, rfl, own, removed, earlier⟩
        | false => exact .inl (accounts.rows key (before earlier) removed)

/-- What a store remembers is in the table, unless another store has removed it there. -/
theorem remembered_stored (moves : List Move) (number : Nat) (key : CommitKey)
    (remembers : (actAll moves {}).2.Remembers number key) :
    (actAll moves {}).2.db.Stores key ∨ RemovedBehind number key moves := by
  induction moves using List.reverseRecOn with
  | nil =>
    obtain ⟨handle, seated, -⟩ := remembers
    cases seated
  | append_singleton moves move ih =>
    by_cases behind : RemovedBehind number key moves
    · exact .inr (behind.snoc move)
    have before := fun earlier => (ih earlier).resolve_right behind
    rw [actAll_snoc] at remembers ⊢
    rcases remembered_act remembers before with stored | ⟨other, removal, rfl, another, removes, earlier⟩
    · exact .inl stored
    · exact .inr ⟨moves, other, removal, [], rfl, another, removes, before earlier, earlier⟩

end SharedDatabase

open SharedDatabase in
/-- Over any operations of any stores on one database, an attempt of the right form is answered as a
duplicate exactly if the table has its id, or the store still remembers it after another store has
removed it. -/
theorem duplicate_iff (moves : List Move) {number : Nat} {handle : Handle} {attempt : Attempt}
    (seated : (actAll moves {}).2.handles number = some handle) (isOpen : handle.disposed = false)
    (valid : attempt.validate = .ok ()) :
    (act (.call number (.commit attempt)) (actAll moves {}).2).1 = some (.error attempt.duplicate) ↔
      (actAll moves {}).2.db.Stores (DatabaseStore.commitKey attempt) ∨
        (actAll moves {}).2.Remembers number (DatabaseStore.commitKey attempt) ∧
          RemovedBehind number (DatabaseStore.commitKey attempt) moves := by
  have fresh : ({} : SharedDatabase).db.Holds {} := .empty
  obtain ⟨journal, sound, holds⟩ := actAll_sound fresh .empty moves
  have remembers : (actAll moves {}).2.Remembers number (DatabaseStore.commitKey attempt) ↔
      DatabaseStore.commitKey attempt ∈ handle.recent.keys := by
    constructor
    · rintro ⟨other, same, member⟩
      cases seated.symm.trans same
      exact member
    · exact fun member => ⟨handle, seated, member⟩
  have known := remembered_stored moves number (DatabaseStore.commitKey attempt)
  generalize (actAll moves {}).2 = shared at seated holds remembers known ⊢
  have decided := @DatabaseStore.commit_duplicate_iff ⟨shared.db, handle⟩ _ _ holds sound isOpen _ valid
  have answered : (act (.call number (.commit attempt)) shared).1 = some (.error attempt.duplicate) ↔
      (DatabaseStore.commit attempt ⟨shared.db, handle⟩).1 = .error attempt.duplicate := by
    rw [act, seated]
    show some (((DatabaseStore.commit attempt ⟨shared.db, handle⟩).1).map Call.Reply.commit) = _ ↔ _
    cases (DatabaseStore.commit attempt ⟨shared.db, handle⟩).1 with
    | error error => simp [Except.map]
    | ok commit => simp [Except.map]
  rw [answered, decided, ← remembers]
  tauto

open SharedDatabase in
/-- The store that made a commit, asked again after another store has removed all there is. -/
theorem duplicate_iff_after_purge :
    let first : Attempt := ⟨⟨"orders"⟩, ⟨"7"⟩, 1, ⟨"placed"⟩, 1, 0, [], [{ body := [1] }]⟩
    let moves : List Move := [.join 0 {}, .join 1 {}, .call 0 (.commit first), .call 1 .purge]
    ∃ handle, (actAll moves {}).2.handles 0 = some handle ∧ handle.disposed = false ∧ first.validate = .ok () ∧
      ((act (.call 0 (.commit first)) (actAll moves {}).2).1 = some (.error first.duplicate) ↔
        (actAll moves {}).2.db.Stores (DatabaseStore.commitKey first) ∨
          (actAll moves {}).2.Remembers 0 (DatabaseStore.commitKey first) ∧
            RemovedBehind 0 (DatabaseStore.commitKey first) moves) := by
  intro first moves
  have isOpen : ((actAll moves {}).2.handles 0).map Handle.disposed = some false := by decide +kernel
  obtain ⟨handle, seated, isOpen⟩ := Option.map_eq_some_iff.1 isOpen
  exact ⟨handle, seated, isOpen, rfl, duplicate_iff moves seated isOpen rfl⟩

open SharedDatabase in
/-- A store refuses to make a commit again whose stream another store has deleted: no row is left, and a
store that does not remember the commit takes it. -/
theorem duplicate_without_row :
    let first : Attempt := ⟨⟨"orders"⟩, ⟨"7"⟩, 1, ⟨"placed"⟩, 1, 0, [], [{ body := [1] }]⟩
    let moves : List Move := [.join 0 {}, .join 1 {}, .call 0 (.commit first), .call 1 (.deleteStream first.key)]
    let shared := (actAll moves {}).2
    (act (.call 0 (.commit first)) shared).1 = some (.error first.duplicate) ∧
      ¬ shared.db.Stores (DatabaseStore.commitKey first) ∧
      (act (.call 1 (.commit first)) shared).1 = some (.ok (.commit (first.toCommit ⟨2⟩))) := by
  intro first moves shared
  refine ⟨by with_unfolding_all rfl, by decide +kernel, by with_unfolding_all rfl⟩

end CommitLog
