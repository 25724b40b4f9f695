import CommitLog.Database.File
import CommitLog.Proofs.Database.WriteLock

/-!
Writes that find the database locked. Others may take the write lock of a file, and give it back, between any two
turns of a store on the file, of its feeds and of the clients of its streams. A write that finds the lock taken is
refused, and it leaves no trace: everything else is answered as if it had not been tried, and as if the lock had
never been taken (`refused_writes_traceless`).
-/

namespace CommitLog

/-! ### All that is done with a store -/

namespace FileDesk

/-- Those who work with a store: the feeds that are open, and the clients of streams. -/
structure Users where
  feeds : List Cursor := []
  clients : Nat → Option EventStream := fun _ => none

namespace Users

def seat (number : Nat) (client : EventStream) (users : Users) : Users :=
  { users with clients := Function.update users.clients number (some client) }

theorem seat_self {number : Nat} {client : EventStream} {users : Users} (seated : users.clients number = some client) :
    users.seat number client = users := by
  rw [seat, ← seated, Function.update_eq_self]

end Users

inductive Action where
  | call (call : Call)
  | openFeed (scope : Scope) (after : Checkpoint)
  /-- The next item of one of the feeds. -/
  | nextItem (number : Nat)
  /-- A client for a window of a stream, in place of the one that had the number. -/
  | openWindow (number : Nat) (key : StreamKey) (least most : UInt64)
  /-- A client changes what only it knows. -/
  | edit (number : Nat) (change : EventStream → EventStream)
  | refresh (number : Nat)
  | commitChanges (number : Nat) (id : CommitId) (now : UInt64)

namespace Action

def run : Action → Users → DatabaseStore → Call.Answer × Users × DatabaseStore
  | .call asked, users, store =>
    let (answer, store) := asked.serve store
    (answer, users, store)
  | .openFeed scope after, users, store =>
    match CommitStore.openFeed scope after store with
    | (.error error, store) => (.error error, users, store)
    | (.ok feed, store) => (.ok .done, { users with feeds := users.feeds ++ [feed] }, store)
  | .nextItem number, users, store =>
    match users.feeds[number]? with
    | none => (.ok .done, users, store)
    | some feed =>
      let (item, feed, store) := CommitStore.next feed store
      (.ok (.items item.toList), { users with feeds := users.feeds.set number feed }, store)
  | .openWindow number key least most, users, store =>
    match EventStream.openWindow key least most store with
    | (.error error, store) => (.error error, users, store)
    | (.ok client, store) => (.ok .done, users.seat number client, store)
  | .edit number change, users, store =>
    match users.clients number with
    | none => (.ok .done, users, store)
    | some client => (.ok .done, users.seat number (change client), store)
  | .refresh number, users, store =>
    match users.clients number with
    | none => (.ok .done, users, store)
    | some client =>
      let (outcome, client, store) := client.refresh store
      ((outcome.map fun _ => .done).mapError .overflow, users.seat number client, store)
  | .commitChanges number id now, users, store =>
    match users.clients number with
    | none => (.ok .done, users, store)
    | some client =>
      let (answer, client, store) := client.commitChanges id now store
      (answer.map fun made => .commits made.toList, users.seat number client, store)

/-- Whether an action begins a transaction that writes. -/
def writes : Action → Users → DatabaseStore → Bool
  | .call asked, _, store => asked.writes store
  | .commitChanges number id now, users, store =>
    match (users.clients number).bind fun client => client.attempt? id now with
    | none => false
    | some attempt => (Call.commit attempt).writes store
  | _, _, _ => false

variable {action : Action} {users : Users} {store : DatabaseStore}

/-- An action that does not write heeds no lock. -/
theorem run_withLock (quiet : action.writes users store = false) (locked : Bool) :
    action.run users (store.withLock locked) =
      ((action.run users store).1, (action.run users store).2.1, (action.run users store).2.2.withLock locked) := by
  cases action with
  | call asked =>
    have heedless : asked.writes store = false := quiet
    rw [run, run, DatabaseStore.serve_heedless heedless locked]
  | openFeed scope after =>
    have opens : ∀ store : DatabaseStore,
        CommitStore.openFeed scope after store = (store.openFeed scope after, store) :=
      fun _ => rfl
    have alike : (store.withLock locked).openFeed scope after = store.openFeed scope after := rfl
    rw [run, run, opens, opens, alike]
    cases store.openFeed scope after <;> rfl
  | nextItem number =>
    rw [run, run]
    cases users.feeds[number]? <;> rfl
  | openWindow number key least most =>
    obtain ⟨stays, read⟩ := EventStream.openWindow_withLock key least most locked store
    rw [run, run, read]
    generalize EventStream.openWindow key least most store = opened at stays
    obtain ⟨outcome, after⟩ := opened
    obtain rfl : after = store := stays
    cases outcome <;> rfl
  | edit number change =>
    rw [run, run]
    cases users.clients number <;> rfl
  | refresh number =>
    rw [run, run]
    cases users.clients number with
    | none => rfl
    | some client =>
      obtain ⟨stays, read⟩ := client.refresh_withLock locked store
      dsimp only
      rw [read]
      dsimp only
      rw [stays]
  | commitChanges number id now =>
    rw [run, run]
    cases seated : users.clients number with
    | none => rfl
    | some client =>
      cases tried : client.attempt? id now with
      | none =>
        obtain ⟨answer, idle⟩ := EventStream.commitChanges_idle tried
        dsimp only
        rw [idle, idle]
      | some attempt =>
        have unasked : (Call.commit attempt).writes store = false := by simpa [writes, seated, tried] using quiet
        obtain ⟨error, -, answered⟩ := DatabaseStore.commit_quiet unasked
        have here : store.commit attempt = (.error error, store) := answered store.db.writeLocked
        obtain ⟨stays, heard⟩ := client.hear_withLock locked (.error error) store
        dsimp only
        rw [EventStream.commitChanges_tried tried, EventStream.commitChanges_tried tried, answered, here, heard]
        dsimp only
        rw [stays]

/-- An action that writes is refused while others have the lock, and changes nothing. -/
theorem run_barred (wrote : action.writes users store = true) (locked : store.db.writeLocked = true) :
    action.run users store = (.error (.storageUnavailable .locked), users, store) := by
  cases action with
  | call asked =>
    have writes : asked.writes store = true := wrote
    rw [run, DatabaseStore.serve_barred writes locked]
  | commitChanges number id now =>
    rw [writes] at wrote
    split at wrote
    · cases wrote
    next attempt made =>
    obtain ⟨client, seated, tried⟩ := Option.bind_eq_some_iff.1 made
    rw [run, seated]
    dsimp only
    rw [EventStream.commitChanges_tried tried, DatabaseStore.commit_barred wrote locked]
    dsimp only [EventStream.hear]
    rw [Users.seat_self seated]
    rfl
  | openFeed | nextItem | openWindow | edit | refresh => cases wrote

/-- No action takes the lock for good. -/
theorem run_unlocked (action : Action) (users : Users) (unlocked : store.db.writeLocked = false) :
    (action.run users store).2.2.db.writeLocked = false := by
  -- An action that writes does so by a commit, and the others keep the store or call it.
  cases action with
  | call asked => exact DatabaseStore.serve_unlocked asked unlocked
  | commitChanges number id now =>
    rw [run]
    cases users.clients number with
    | none => exact unlocked
    | some client =>
      cases tried : client.attempt? id now with
      | none =>
        obtain ⟨answer, idle⟩ := EventStream.commitChanges_idle tried
        dsimp only
        rw [idle]
        exact unlocked
      | some attempt =>
        have made : (store.commit attempt).2.db.writeLocked = false :=
          DatabaseStore.serve_unlocked (.commit attempt) unlocked
        dsimp only
        rw [EventStream.commitChanges_tried tried]
        generalize store.commit attempt = outcome at made
        obtain ⟨answer, after⟩ := outcome
        rw [(client.hear_withLock false answer after).1]
        exact made
  | openFeed scope after =>
    have opens : CommitStore.openFeed scope after store = (store.openFeed scope after, store) := rfl
    rw [run, opens]
    cases store.openFeed scope after <;> exact unlocked
  | nextItem number =>
    rw [run]
    cases users.feeds[number]? <;> exact unlocked
  | openWindow number key least most =>
    obtain ⟨stays, -⟩ := EventStream.openWindow_withLock key least most false store
    rw [run]
    generalize EventStream.openWindow key least most store = opened at stays
    obtain ⟨outcome, after⟩ := opened
    obtain rfl : after = store := stays
    cases outcome <;> exact unlocked
  | edit number change =>
    rw [run]
    cases users.clients number <;> exact unlocked
  | refresh number =>
    rw [run]
    cases users.clients number with
    | none => exact unlocked
    | some client =>
      dsimp only
      rw [(client.refresh_withLock false store).1]
      exact unlocked

/-- What leaves the store open and a client alone. An attempt to commit does while others have the lock. -/
def Spares (number : Nat) : Action → Prop
  | .call .dispose => False
  | .openWindow other _ _ _ | .edit other _ | .refresh other => other ≠ number
  | _ => True

theorem run_spares (locked : store.db.writeLocked = true) {number : Nat} (spares : action.Spares number) :
    (action.run users store).2.2 = store ∧ (action.run users store).2.1.clients number = users.clients number := by
  cases wrote : action.writes users store with
  | true =>
    rw [run_barred wrote locked]
    exact ⟨rfl, rfl⟩
  | false =>
    cases action with
    | call asked =>
      have stays : asked ≠ .dispose := by
        rintro rfl
        exact spares
      exact ⟨DatabaseStore.serve_quiet wrote stays, rfl⟩
    | openFeed scope after =>
      have opens : CommitStore.openFeed scope after store = (store.openFeed scope after, store) := rfl
      rw [run, opens]
      cases store.openFeed scope after <;> exact ⟨rfl, rfl⟩
    | nextItem index =>
      rw [run]
      cases users.feeds[index]? <;> exact ⟨rfl, rfl⟩
    | openWindow other key least most =>
      obtain ⟨stays, -⟩ := EventStream.openWindow_withLock key least most true store
      rw [run]
      generalize EventStream.openWindow key least most store = opened at stays
      obtain ⟨outcome, after⟩ := opened
      cases outcome with
      | error => exact ⟨stays, rfl⟩
      | ok client => exact ⟨stays, Function.update_of_ne (Ne.symm spares) _ _⟩
    | edit other change =>
      rw [run]
      cases users.clients other with
      | none => exact ⟨rfl, rfl⟩
      | some client => exact ⟨rfl, Function.update_of_ne (Ne.symm spares) _ _⟩
    | refresh other =>
      rw [run]
      cases users.clients other with
      | none => exact ⟨rfl, rfl⟩
      | some client =>
        exact ⟨(client.refresh_withLock true store).1, Function.update_of_ne (Ne.symm spares) _ _⟩
    | commitChanges other id now =>
      rw [run]
      cases seated : users.clients other with
      | none => exact ⟨rfl, rfl⟩
      | some client =>
        have unchanged : ∃ answer, client.commitChanges id now store = (answer, client, store) := by
          cases tried : client.attempt? id now with
          | none =>
            obtain ⟨answer, idle⟩ := EventStream.commitChanges_idle tried
            exact ⟨answer, idle store⟩
          | some attempt =>
            have unasked : (Call.commit attempt).writes store = false := by simpa [writes, seated, tried] using wrote
            obtain ⟨error, calm, answered⟩ := DatabaseStore.commit_quiet unasked
            have here : store.commit attempt = (.error error, store) := answered store.db.writeLocked
            exact ⟨.error error, by rw [EventStream.commitChanges_tried tried, here, EventStream.hear_calm calm]⟩
        obtain ⟨answer, unchanged⟩ := unchanged
        dsimp only
        rw [unchanged]
        exact ⟨rfl, congrArg (fun users => users.clients number) (Users.seat_self seated)⟩

/-- What becomes of the changes of a client is a matter of the client and the store. -/
theorem run_commitChanges_congr {number : Nat} {id : CommitId} {now : UInt64} {others : Users}
    (same : users.clients number = others.clients number) :
    ((commitChanges number id now).run users store).1 = ((commitChanges number id now).run others store).1 ∧
      ((commitChanges number id now).run users store).2.2 = ((commitChanges number id now).run others store).2.2 ∧
      ((commitChanges number id now).run users store).2.1.clients number =
        ((commitChanges number id now).run others store).2.1.clients number := by
  rw [run, run, same]
  cases others.clients number with
  | none => exact ⟨rfl, rfl, same⟩
  | some client =>
    refine ⟨rfl, rfl, ?_⟩
    show Function.update _ number _ number = Function.update _ number _ number
    rw [Function.update_self, Function.update_self]

end Action
end FileDesk

/-! ### Turns on a file -/

/-- A file that others use too, a store that was opened on it, and those who work with the store. -/
structure FileDesk where
  file : Database.File
  handle : Handle
  users : FileDesk.Users := {}

namespace FileDesk

inductive Turn where
  /-- Others take the write lock. -/
  | lock
  /-- Others give the write lock back. -/
  | unlock
  | act (action : Action)

/-- A turn that has been taken, whether it was refused because of the lock, and its answer. -/
structure Turn.Entry where
  turn : Turn
  refused : Bool
  answer : Call.Answer

/-- The store as it finds the file. -/
def store (desk : FileDesk) : DatabaseStore := ⟨desk.file.db, desk.handle⟩

/-- Others have the write lock. -/
def held (desk : FileDesk) : Bool := desk.file.pending.isSome

/-- The same with the write lock free. -/
def freed (desk : FileDesk) : FileDesk :=
  { desk with file := { desk.file with db := { desk.file.db with writeLocked := false }, pending := none } }

namespace Turn

def take : Turn → FileDesk → Call.Answer × FileDesk
  | .lock, desk =>
    let (outcome, file) := desk.file.lock
    (outcome.map fun _ => .done, { desk with file })
  | .unlock, desk =>
    let (outcome, file) := desk.file.unlock
    (outcome.map fun _ => .done, { desk with file })
  | .act action, desk =>
    let (answer, users, store) := action.run desk.users desk.store
    (answer, ⟨{ desk.file with db := store.db }, store.handle, users⟩)

/-- Whether a turn begins a transaction that writes. -/
def writes : Turn → FileDesk → Bool
  | .act action, desk => action.writes desk.users desk.store
  | _, _ => false

/-- Whether a turn is for those who work with the store. -/
def isAct : Turn → Bool
  | .act _ => true
  | _ => false

/-- What keeps the lock with those who have it, leaves the store open and a client alone. -/
def Spares (number : Nat) : Turn → Prop
  | .lock => True
  | .unlock => False
  | .act action => action.Spares number

/-- Turns one after another. -/
def takeAll : List Turn → FileDesk → List Entry × FileDesk
  | [], desk => ([], desk)
  | turn :: turns, desk =>
    let entry : Entry := ⟨turn, desk.held && turn.writes desk, (turn.take desk).1⟩
    let (entries, after) := takeAll turns (turn.take desk).2
    (entry :: entries, after)

/-- Whether others have the lock after a turn. -/
def grip : Bool → Turn → Bool
  | _, .lock => true
  | _, .unlock => false
  | held, .act _ => held

theorem takeAll_append (first second : List Turn) (desk : FileDesk) : takeAll (first ++ second) desk =
    ((takeAll first desk).1 ++ (takeAll second (takeAll first desk).2).1,
      (takeAll second (takeAll first desk).2).2) := by
  induction first generalizing desk with
  | nil => rfl
  | cons turn first ih =>
    rw [List.cons_append, takeAll, takeAll, ih]
    rfl

theorem takeAll_turns (turns : List Turn) (desk : FileDesk) : (takeAll turns desk).1.map Entry.turn = turns := by
  induction turns generalizing desk with
  | nil => rfl
  | cons turn turns ih => exact congrArg (turn :: ·) (ih _)

end Turn

/-- A store is open on the file, and the database is locked exactly while others have the lock. -/
structure Tidy (desk : FileDesk) : Prop where
  inUse : desk.file.inUse = true
  locked : desk.file.db.writeLocked = desk.held

variable {desk : FileDesk} {turn : Turn}

theorem Tidy.isText (tidy : desk.Tidy) : desk.file.isText = false := by
  rw [Database.File.isText, tidy.inUse, Bool.not_true, Bool.and_false]

theorem freed_of_free (tidy : desk.Tidy) (free : desk.held = false) : desk.freed = desk := by
  obtain ⟨⟨db, pending, inUse, overwritten⟩, handle, users⟩ := desk
  have unlocked := tidy.locked
  rw [free] at unlocked
  obtain rfl : pending = none := Option.isSome_eq_false_iff.1 free |> Option.isNone_iff_eq_none.1
  rw [freed, ← unlocked]

theorem take_lock_of_held (held : desk.held = true) :
    Turn.lock.take desk = (.error (.sql "cannot start a transaction within a transaction"), desk) := by
  have taken : desk.file.pending.isSome = true := held
  rw [Turn.take, Database.File.lock, if_pos taken]
  rfl

/-- The lock is taken if it was free. -/
theorem take_lock (tidy : desk.Tidy) :
    (Turn.lock.take desk).2.Tidy ∧ (Turn.lock.take desk).2.held = true ∧
      (Turn.lock.take desk).2.freed = desk.freed := by
  have isText := tidy.isText
  by_cases taken : desk.file.pending.isSome = true
  · rw [take_lock_of_held taken]
    exact ⟨tidy, taken, rfl⟩
  · rw [Turn.take, Database.File.lock, if_neg taken, if_neg (by simp [isText])]
    exact ⟨⟨tidy.inUse, rfl⟩, rfl, rfl⟩

theorem take_unlock (tidy : desk.Tidy) :
    (Turn.unlock.take desk).2.Tidy ∧ (Turn.unlock.take desk).2.held = false ∧
      (Turn.unlock.take desk).2 = desk.freed := by
  by_cases taken : desk.file.pending.isSome = true
  · rw [Turn.take, Database.File.unlock, if_pos taken]
    exact ⟨⟨tidy.inUse, rfl⟩, rfl, rfl⟩
  · have stays : Turn.unlock.take desk = (.error (.sql "cannot rollback - no transaction is active"), desk) := by
      rw [Turn.take, Database.File.unlock, if_neg taken]
      rfl
    have free : desk.held = false := Bool.eq_false_iff.2 taken
    rw [stays, freed_of_free tidy free]
    exact ⟨tidy, free, rfl⟩

/-- A write is refused while others have the lock, and all stays as it was. -/
theorem take_refused (tidy : desk.Tidy) (held : desk.held = true) (wrote : turn.writes desk = true) :
    turn.take desk = (.error (.storageUnavailable .locked), desk) := by
  cases turn with
  | lock | unlock => cases wrote
  | act action =>
    have locked : desk.store.db.writeLocked = true := tidy.locked.trans held
    rw [Turn.take, Action.run_barred wrote locked]
    rfl

/-- Whatever is not refused is done as with the lock free, and leaves the lock to those who have it. -/
theorem take_act (tidy : desk.Tidy) {action : Action} (passes : (desk.held && (Turn.act action).writes desk) = false) :
    ((Turn.act action).take desk).2.Tidy ∧ ((Turn.act action).take desk).2.held = desk.held ∧
      (Turn.act action).take desk.freed =
        (((Turn.act action).take desk).1, ((Turn.act action).take desk).2.freed) := by
  cases held : desk.held with
  | false =>
    have unlocked : desk.store.db.writeLocked = false := tidy.locked.trans held
    have kept : ((Turn.act action).take desk).2.Tidy :=
      ⟨tidy.inUse, (Action.run_unlocked action desk.users unlocked).trans held.symm⟩
    rw [freed_of_free tidy held, freed_of_free kept held]
    exact ⟨kept, held, rfl⟩
  | true =>
    rw [held, Bool.true_and] at passes
    replace passes : action.writes desk.users desk.store = false := passes
    have here := Action.run_withLock passes desk.file.db.writeLocked
    have free := Action.run_withLock passes false
    have asIs : desk.store.withLock desk.file.db.writeLocked = desk.store := rfl
    rw [asIs] at here
    refine ⟨⟨tidy.inUse, ?_⟩, held, ?_⟩
    · show (action.run desk.users desk.store).2.2.db.writeLocked = _
      rw [here]
      exact tidy.locked
    · show Turn.take _ _ = _
      rw [Turn.take, Turn.take]
      have store : desk.freed.store = desk.store.withLock false := rfl
      have users : desk.freed.users = desk.users := rfl
      rw [store, users, free]
      rfl

theorem take_tidy (tidy : desk.Tidy) (turn : Turn) :
    (turn.take desk).2.Tidy ∧ (turn.take desk).2.held = turn.grip desk.held := by
  cases turn with
  | lock =>
    obtain ⟨kept, held, -⟩ := take_lock tidy
    exact ⟨kept, held⟩
  | unlock =>
    obtain ⟨kept, free, -⟩ := take_unlock tidy
    exact ⟨kept, free⟩
  | act action =>
    cases refused : desk.held && (Turn.act action).writes desk with
    | true =>
      obtain ⟨held, wrote⟩ := Bool.and_eq_true_iff.1 refused
      rw [take_refused tidy held wrote]
      exact ⟨tidy, rfl⟩
    | false =>
      obtain ⟨kept, held, -⟩ := take_act tidy refused
      exact ⟨kept, held⟩

/-! ### Runs -/

theorem takeAll_tidy (tidy : desk.Tidy) (turns : List Turn) :
    (Turn.takeAll turns desk).2.Tidy ∧ (Turn.takeAll turns desk).2.held = turns.foldl Turn.grip desk.held := by
  induction turns generalizing desk with
  | nil => exact ⟨tidy, rfl⟩
  | cons turn turns ih =>
    obtain ⟨kept, held⟩ := take_tidy tidy turn
    rw [List.foldl_cons, ← held]
    exact ih kept

/-- Without the turns that are refused a run is the same. -/
theorem takeAll_passed (tidy : desk.Tidy) (turns : List Turn) :
    Turn.takeAll (((Turn.takeAll turns desk).1.filter fun entry => !entry.refused).map Turn.Entry.turn) desk =
      ((Turn.takeAll turns desk).1.filter fun entry => !entry.refused, (Turn.takeAll turns desk).2) := by
  induction turns generalizing desk with
  | nil => rfl
  | cons turn turns ih =>
    rw [Turn.takeAll]
    dsimp only
    cases refused : desk.held && turn.writes desk with
    | true =>
      obtain ⟨held, wrote⟩ := Bool.and_eq_true_iff.1 refused
      have stays := congrArg Prod.snd (take_refused tidy held wrote)
      rw [stays, List.filter_cons_of_neg (by simp)]
      exact ih tidy
    | false =>
      rw [List.filter_cons_of_pos (by simp), List.map_cons, Turn.takeAll, ih (take_tidy tidy turn).1, refused]

/-- Without the turns that are refused, and with the lock free all the time, it is the same but for the lock. -/
theorem takeAll_calm (tidy : desk.Tidy) (turns : List Turn) :
    Turn.takeAll (((Turn.takeAll turns desk).1.filter fun entry => !entry.refused && entry.turn.isAct).map
        Turn.Entry.turn) desk.freed =
      ((Turn.takeAll turns desk).1.filter fun entry => !entry.refused && entry.turn.isAct,
        (Turn.takeAll turns desk).2.freed) := by
  induction turns generalizing desk with
  | nil => rfl
  | cons turn turns ih =>
    have rest := ih (take_tidy tidy turn).1
    rw [Turn.takeAll]
    dsimp only
    cases turn with
    | lock =>
      rw [List.filter_cons_of_neg (by simp [Turn.isAct])]
      rwa [(take_lock tidy).2.2] at rest
    | unlock =>
      have free : (Turn.unlock.take desk).2.freed = desk.freed := by
        rw [(take_unlock tidy).2.2]
        rfl
      rw [List.filter_cons_of_neg (by simp [Turn.isAct])]
      rwa [free] at rest
    | act action =>
      cases refused : desk.held && (Turn.act action).writes desk with
      | true =>
        obtain ⟨held, wrote⟩ := Bool.and_eq_true_iff.1 refused
        have stays := congrArg Prod.snd (take_refused tidy held wrote)
        rw [stays] at rest ⊢
        rw [List.filter_cons_of_neg (by simp)]
        exact rest
      | false =>
        obtain ⟨-, -, alike⟩ := take_act tidy refused
        have free : desk.freed.held = false := rfl
        rw [List.filter_cons_of_pos (by simp [Turn.isAct]), List.map_cons, Turn.takeAll, alike]
        dsimp only
        rw [rest, free, Bool.false_and]

theorem take_commitChanges_congr {other : FileDesk} {number : Nat} (file : desk.file = other.file)
    (handle : desk.handle = other.handle) (client : desk.users.clients number = other.users.clients number)
    (id : CommitId) (now : UInt64) :
    ((Turn.act (.commitChanges number id now)).take desk).1 = ((Turn.act (.commitChanges number id now)).take other).1 ∧
      ((Turn.act (.commitChanges number id now)).take desk).2.file =
        ((Turn.act (.commitChanges number id now)).take other).2.file ∧
      ((Turn.act (.commitChanges number id now)).take desk).2.handle =
        ((Turn.act (.commitChanges number id now)).take other).2.handle ∧
      ((Turn.act (.commitChanges number id now)).take desk).2.users.clients number =
        ((Turn.act (.commitChanges number id now)).take other).2.users.clients number := by
  obtain ⟨file', handle', users⟩ := desk
  obtain ⟨_, _, others⟩ := other
  cases file
  cases handle
  obtain ⟨answer, store, after⟩ := @Action.run_commitChanges_congr users ⟨file'.db, handle'⟩ number id now others client
  refine ⟨answer, ?_, congrArg DatabaseStore.handle store, after⟩
  exact congrArg (fun store => { file' with db := store.db }) store

/-- While others have the lock, what spares a client leaves to it what it needs to try again. -/
theorem takeAll_spares (tidy : desk.Tidy) (held : desk.held = true) {number : Nat} {turns : List Turn}
    (spares : ∀ turn ∈ turns, turn.Spares number) :
    (Turn.takeAll turns desk).2.file = desk.file ∧ (Turn.takeAll turns desk).2.handle = desk.handle ∧
      (Turn.takeAll turns desk).2.users.clients number = desk.users.clients number := by
  induction turns generalizing desk with
  | nil => exact ⟨rfl, rfl, rfl⟩
  | cons turn turns ih =>
    have one : (turn.take desk).2.file = desk.file ∧ (turn.take desk).2.handle = desk.handle ∧
        (turn.take desk).2.users.clients number = desk.users.clients number := by
      have spared := spares turn (by simp)
      cases turn with
      | lock =>
        rw [take_lock_of_held held]
        exact ⟨rfl, rfl, rfl⟩
      | unlock => exact spared.elim
      | act action =>
        have locked : desk.store.db.writeLocked = true := tidy.locked.trans held
        obtain ⟨stays, same⟩ := @Action.run_spares action desk.users desk.store locked number spared
        refine ⟨?_, congrArg DatabaseStore.handle stays, same⟩
        show { desk.file with db := (action.run desk.users desk.store).2.2.db } = desk.file
        rw [stays]
        rfl
    obtain ⟨kept, still⟩ := take_tidy tidy turn
    have taken : (turn.take desk).2.held = true := by
      rw [FileDesk.held, one.1]
      exact held
    obtain ⟨file, handle, client⟩ := ih kept taken fun other member => spares other (by simp [member])
    exact ⟨file.trans one.1, handle.trans one.2.1, client.trans one.2.2⟩

/-- What holds of turns on a file whose lock others take and give back in between. -/
structure Traceless (desk : FileDesk) (turns : List Turn) : Prop where
  /-- A turn is refused exactly if others have the lock and it writes. It fails, and leaves all as it found it. -/
  refused : ∀ before entry later, (Turn.takeAll turns desk).1 = before ++ entry :: later →
    (entry.refused = true ↔ (before.map Turn.Entry.turn).foldl Turn.grip false = true ∧
      entry.turn.writes (Turn.takeAll (before.map Turn.Entry.turn) desk).2 = true) ∧
    (entry.refused = true → entry.answer = .error (.storageUnavailable .locked) ∧
      (entry.turn.take (Turn.takeAll (before.map Turn.Entry.turn) desk).2).2 =
        (Turn.takeAll (before.map Turn.Entry.turn) desk).2)
  /-- Without the turns that are refused, all others have the same answers and lead to the same state. -/
  passed : Turn.takeAll (((Turn.takeAll turns desk).1.filter fun entry => !entry.refused).map Turn.Entry.turn) desk =
    ((Turn.takeAll turns desk).1.filter fun entry => !entry.refused, (Turn.takeAll turns desk).2)
  /-- So they do if the lock is never taken. -/
  calm : Turn.takeAll (((Turn.takeAll turns desk).1.filter fun entry => !entry.refused && entry.turn.isAct).map
      Turn.Entry.turn) desk =
    ((Turn.takeAll turns desk).1.filter fun entry => !entry.refused && entry.turn.isAct,
      (Turn.takeAll turns desk).2.freed)
  /-- A client that finds the lock taken can try again once it is given back, and it has the answer, and the client
  and the database are left, as if the lock had been free at first. -/
  repeated : (Turn.takeAll turns desk).2.held = true → ∀ number id now between,
    (∀ turn ∈ between, turn.Spares number) →
      let changes := Turn.act (.commitChanges number id now)
      let found := (Turn.takeAll turns desk).2
      let again := changes.take (Turn.takeAll (changes :: between ++ [.unlock]) found).2
      again.1 = (changes.take found.freed).1 ∧ again.2.file = (changes.take found.freed).2.file ∧
        again.2.handle = (changes.take found.freed).2.handle ∧
        again.2.users.clients number = (changes.take found.freed).2.users.clients number

end FileDesk

open FileDesk

/-- On a file on which a store is open and whose write lock is free, and however others take it and give it back
between the turns, the writes that find it taken are refused and leave no trace. -/
theorem refused_writes_traceless {desk : FileDesk} (inUse : desk.file.inUse = true) (free : desk.file.pending = none)
    (unlocked : desk.file.db.writeLocked = false) (turns : List Turn) : desk.Traceless turns := by
  have none_held : desk.held = false := by rw [held, free]; rfl
  have tidy : desk.Tidy := ⟨inUse, unlocked.trans none_held.symm⟩
  obtain ⟨kept, -⟩ := takeAll_tidy tidy turns
  constructor
  · intro before entry later split
    -- The entry is that of its turn, in the state to which the turns before it lead.
    have all := Turn.takeAll_turns turns desk
    rw [split, List.map_append, List.map_cons] at all
    have parts := Turn.takeAll_append (before.map Turn.Entry.turn) (entry.turn :: later.map Turn.Entry.turn) desk
    rw [all] at parts
    have entries := (congrArg Prod.fst parts).symm.trans split
    have length : (Turn.takeAll (before.map Turn.Entry.turn) desk).1.length = before.length := by
      have same := congrArg List.length (Turn.takeAll_turns (before.map Turn.Entry.turn) desk)
      simpa using same
    obtain ⟨-, rest⟩ := List.append_inj entries length
    obtain ⟨reached, grip⟩ := takeAll_tidy tidy (before.map Turn.Entry.turn)
    rw [none_held] at grip
    have this := (List.cons.inj rest).1
    have refused : entry.refused = ((Turn.takeAll (before.map Turn.Entry.turn) desk).2.held &&
        entry.turn.writes (Turn.takeAll (before.map Turn.Entry.turn) desk).2) := by
      rw [← this]
    have answer : entry.answer = (entry.turn.take (Turn.takeAll (before.map Turn.Entry.turn) desk).2).1 := by
      rw [← this]
    rw [refused, answer, Bool.and_eq_true, grip]
    refine ⟨Iff.rfl, fun ⟨held, wrote⟩ => ?_⟩
    rw [take_refused reached (grip.trans held) wrote]
    exact ⟨rfl, rfl⟩
  · exact takeAll_passed tidy turns
  · have calm := takeAll_calm tidy turns
    rwa [freed_of_free tidy none_held] at calm
  · intro held number id now between spares changes found again
    have spared : ∀ turn ∈ changes :: between, turn.Spares number := by
      intro turn member
      rcases List.mem_cons.1 member with rfl | other
      · trivial
      · exact spares turn other
    obtain ⟨file, handle, client⟩ := takeAll_spares kept held spared
    obtain ⟨still, -⟩ := takeAll_tidy kept (changes :: between)
    have unlocked := (take_unlock still).2.2
    have before : (Turn.takeAll (changes :: between ++ [.unlock]) found).2 =
        (Turn.takeAll (changes :: between) found).2.freed := by
      rw [Turn.takeAll_append]
      exact unlocked
    generalize (Turn.takeAll (changes :: between) found).2 = middle at file handle client before
    have sameFile : middle.freed.file = found.freed.file := by
      rw [freed, file]
      rfl
    have again' : again = changes.take middle.freed := congrArg changes.take before
    rw [again']
    exact take_commitChanges_congr sameFile handle client id now

/-- A store on a new file. While others have the lock, a commit, a removal and a client's changes are refused and a read
is answered; afterwards the client tries again. -/
theorem refused_writes_traceless_around_lock :
    let opened := Database.File.open? {} {}
    let key : StreamKey := ⟨⟨"orders"⟩, ⟨"7"⟩⟩
    let attempt (name : String) (revision : UInt64) : Attempt :=
      ⟨key.bucket, key.stream, revision, ⟨name⟩, revision, 0, [], [{ body := [1] }]⟩
    let client : EventStream := { EventStream.create key with revision := 1, sequence := 1, uncommitted := [{ body := [2] }] }
    let desk : FileDesk := ⟨opened.2, Handle.create {}, { clients := fun _ => some client }⟩
    let turns : List Turn := [.act (.call (.commit (attempt "placed" 1))), .lock, .act (.call (.commit (attempt "paid" 2))),
      .act (.call (.commit (attempt "placed" 1))), .act (.call .purge), .act (.call (.head key)),
      .act (.commitChanges 0 ⟨"sent"⟩ 0), .unlock, .act (.commitChanges 0 ⟨"sent"⟩ 0)]
    let ran := Turn.takeAll turns desk
    opened.1.isOk = true ∧ desk.file.inUse = true ∧ desk.file.pending = none ∧ desk.file.db.writeLocked = false ∧
      desk.Traceless turns ∧
      ran.1.map Turn.Entry.refused = [false, false, true, false, true, false, true, false, false] ∧
      ran.2.file.db.rows.map Row.id = [⟨"placed"⟩, ⟨"sent"⟩] := by
  intro opened key attempt client desk turns ran
  have inUse : desk.file.inUse = true := by decide
  have free : desk.file.pending = none := by with_unfolding_all rfl
  have unlocked : desk.file.db.writeLocked = false := by decide
  exact ⟨by decide, inUse, free, unlocked, refused_writes_traceless inUse free unlocked turns, by decide +kernel,
    by decide +kernel⟩

end CommitLog
