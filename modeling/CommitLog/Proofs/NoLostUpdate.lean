import CommitLog.Proofs.Clients

/-!
Any number of clients of one stream, and other writers, who all commit to one engine. Nothing is locked in
between, and yet no update is lost (`no_update_lost`): a client adds to the log only when its view is the
whole of it, and whatever was accepted stays in the log.
-/

namespace CommitLog

/-- An engine and the clients of a stream, each known by a number. -/
structure Desk where
  engine : Engine
  clients : Nat → Option EventStream := fun _ => none

/-- An accepted attempt: the events that were proposed and the commit that was answered. -/
structure Accepted where
  proposed : List Event
  commit : Commit

namespace Desk

inductive Move where
  /-- A client without history, in place of the one that had the number. -/
  | create (number : Nat)
  /-- A client that is opened with all that is in the stream. -/
  | openWhole (number : Nat)
  | add (number : Nat) (event : Event)
  | addHeader (number : Nat) (name : String) (value : Json)
  | removeHeader (number : Nat) (name : String)
  | clearChanges (number : Nat)
  /-- A client commits its changes; after a conflict the refresh may fail. -/
  | commitChanges (number : Nat) (id : CommitId) (now : UInt64) (readFails : Bool)
  /-- Another writer commits, to any stream. -/
  | commit (attempt : Attempt)

/-- Lets a client work on what it has not committed yet. -/
def edit (number : Nat) (change : EventStream → EventStream) (desk : Desk) : Desk :=
  { desk with clients := Function.update desk.clients number ((desk.clients number).map change) }

/-- A move of one of the clients of a stream or of another writer, and the attempt that was accepted if
one was. -/
def act (key : StreamKey) (move : Move) (desk : Desk) : Option Accepted × Desk :=
  match move with
  | .create number =>
    (none, { desk with clients := Function.update desk.clients number (some (EventStream.create key)) })
  | .openWhole number =>
    match EventStream.openWindow key 0 maxRevision desk.engine with
    | (.ok client, engine) => (none, ⟨engine, Function.update desk.clients number (some client)⟩)
    | (.error _, engine) => (none, { desk with engine })
  | .add number event => (none, desk.edit number (EventStream.add event))
  | .addHeader number name value => (none, desk.edit number (EventStream.addHeader name value))
  | .removeHeader number name => (none, desk.edit number fun client => (client.removeHeader name).2)
  | .clearChanges number => (none, desk.edit number EventStream.clearChanges)
  | .commitChanges number id now readFails =>
    match desk.clients number with
    | none => (none, desk)
    | some client =>
      let (answer, after, store) := client.commitChanges id now (desk.engine.reach readFails)
      let desk : Desk := ⟨store.inner, Function.update desk.clients number (some after)⟩
      match answer with
      | .ok (some commit) => (some ⟨client.uncommitted, commit⟩, desk)
      | _ => (none, desk)
  | .commit attempt =>
    match CommitStore.commit attempt desk.engine with
    | (.ok commit, engine) => (some ⟨attempt.events, commit⟩, { desk with engine })
    | (.error _, engine) => (none, { desk with engine })

/-- Moves one after another, and the attempts that were accepted. -/
def actAll (key : StreamKey) : List Move → Desk → List Accepted × Desk
  | [], desk => ([], desk)
  | move :: moves, desk =>
    let (taken, desk) := desk.act key move
    let (others, desk) := actAll key moves desk
    (taken.toList ++ others, desk)

/-- If one client is replaced, what holds of all clients still does if it holds of the new one. -/
theorem forall_update {p : EventStream → Prop} {clients : Nat → Option EventStream}
    (all : ∀ number client, clients number = some client → p client) (number : Nat) {seat : Option EventStream}
    (here : ∀ client, seat = some client → p client) :
    ∀ other client, Function.update clients number seat other = some client → p client := by
  intro other client found
  by_cases same : other = number
  · subst same
    rw [Function.update_self] at found
    exact here client found
  · rw [Function.update_of_ne same] at found
    exact all other client found

/-! ### What every move keeps -/

/-- The engine holds a journal of all accepted attempts, and the clients follow its stream. -/
structure Keeps (readable : Commit → Prop) (key : StreamKey) (desk : Desk) (journal : Journal)
    (accepted : List Accepted) : Prop where
  holds : desk.engine.Holds readable journal
  sound : journal.Sound (accepted.map Accepted.commit)
  whole : journal.commits = accepted.map Accepted.commit
  proposed : ∀ taken ∈ accepted, taken.commit.events = taken.proposed
  clients : ∀ number client, desk.clients number = some client → client.Follows key (journal.stream key)

variable {readable : Commit → Prop} {key : StreamKey} {desk : Desk} {journal : Journal} {accepted : List Accepted}

theorem Keeps.known (keeps : desk.Keeps readable key journal accepted)
    (read : ∀ taken ∈ accepted, taken.commit.key = key → readable taken.commit) :
    ∀ commit ∈ journal.stream key, readable commit := by
  intro commit member
  obtain ⟨inJournal, same⟩ := List.mem_filter.1 member
  rw [keeps.whole] at inJournal
  obtain ⟨taken, inAccepted, rfl⟩ := List.mem_map.1 inJournal
  exact read taken inAccepted (of_decide_eq_true same)

theorem Keeps.withEngine (keeps : desk.Keeps readable key journal accepted) {engine : Engine}
    (holds : engine.Holds readable journal) : Keeps readable key { desk with engine } journal accepted :=
  ⟨holds, keeps.sound, keeps.whole, keeps.proposed, keeps.clients⟩

/-- A client in another state, or a new one, that follows the stream. -/
theorem Keeps.seat (keeps : desk.Keeps readable key journal accepted) (number : Nat) {seat : Option EventStream}
    (follows : ∀ client, seat = some client → client.Follows key (journal.stream key)) :
    Keeps readable key { desk with clients := Function.update desk.clients number seat } journal accepted :=
  ⟨keeps.holds, keeps.sound, keeps.whole, keeps.proposed, forall_update keeps.clients number follows⟩

theorem Keeps.seated (keeps : desk.Keeps readable key journal accepted) (number : Nat) {client : EventStream}
    (follows : client.Follows key (journal.stream key)) :
    Keeps readable key { desk with clients := Function.update desk.clients number (some client) } journal accepted := by
  refine keeps.seat number fun other found => ?_
  cases found
  exact follows

theorem Keeps.edit (keeps : desk.Keeps readable key journal accepted) (number : Nat)
    {change : EventStream → EventStream}
    (still : ∀ client, client.Follows key (journal.stream key) → (change client).Follows key (journal.stream key)) :
    (desk.edit number change).Keeps readable key journal accepted := by
  refine keeps.seat number fun client found => ?_
  obtain ⟨before, seated, rfl⟩ := Option.map_eq_some_iff.1 found
  exact still before (keeps.clients number before seated)

/-- An attempt that is taken joins the log, which every client still follows. -/
theorem Keeps.grow (keeps : desk.Keeps readable key journal accepted) {attempt : Attempt} {checkpoint : Checkpoint}
    (taken : attempt.refusal (journal.postings attempt.key) = none) (next : journal.last.next = .ok checkpoint)
    {engine : Engine} (holds : engine.Holds readable (journal.accept attempt checkpoint)) :
    Keeps readable key { desk with engine } (journal.accept attempt checkpoint)
      (accepted ++ [⟨attempt.events, attempt.toCommit checkpoint⟩]) := by
  constructor
  · exact holds
  · rw [List.map_append]
    exact keeps.sound.accept taken next
  · rw [Journal.commits_accept, keeps.whole, List.map_append]
    rfl
  · intro one member
    rcases List.mem_append.1 member with earlier | last
    · exact keeps.proposed one earlier
    · cases List.mem_singleton.1 last
      rfl
  · intro number client found
    have follows := keeps.clients number client found
    rw [Journal.stream_accept]
    split
    · exact follows.append _
    · exact follows

/-- A move that accepts nothing and leaves the log as it is. -/
theorem Keeps.quiet (keeps : desk.Keeps readable key journal accepted) :
    ∃ journal, desk.Keeps readable key journal (accepted ++ (none : Option Accepted).toList) := by
  rw [Option.toList_none, List.append_nil]
  exact ⟨journal, keeps⟩

theorem commitChanges_keeps (keeps : desk.Keeps readable key journal accepted)
    (known : ∀ commit ∈ journal.stream key, readable commit) {number : Nat} {client : EventStream}
    (seated : desk.clients number = some client) (id : CommitId) (now : UInt64) (readFails : Bool) :
    ∃ after, (desk.act key (.commitChanges number id now readFails)).2.Keeps readable key after
      (accepted ++ (desk.act key (.commitChanges number id now readFails)).1.toList) := by
  obtain ⟨answer, after, engine, answered, outcome⟩ :=
    (keeps.clients number client seated).commitChanges keeps.holds keeps.sound known id now readFails
  rw [act, seated]
  dsimp only
  rw [answered]
  cases outcome with
  | refused nothing followsAfter holds =>
    have seat := (keeps.withEngine holds).seated number followsAfter
    rcases answer with error | _ | commit
    · exact seat.quiet
    · exact seat.quiet
    · exact absurd rfl (nothing commit)
  | @committed attempt checkpoint _ _ same proposed taken next entire followsAfter holds =>
    refine ⟨journal.accept attempt checkpoint, ?_⟩
    have grown := keeps.grow taken next holds
    rw [proposed] at grown
    exact grown.seated number followsAfter

/-- One move: whatever it is, the log loses nothing and the clients still follow it. -/
theorem act_keeps (keeps : desk.Keeps readable key journal accepted)
    (read : ∀ taken ∈ accepted, taken.commit.key = key → readable taken.commit) (move : Move) :
    ∃ after, (desk.act key move).2.Keeps readable key after (accepted ++ (desk.act key move).1.toList) := by
  have known := keeps.known read
  cases move with
  | create number => exact (keeps.seated number (.create key _)).quiet
  | openWhole number =>
    obtain ⟨client, opened, follows⟩ := EventStream.Follows.opened keeps.holds keeps.sound known
    rw [act, opened]
    exact (keeps.seated number follows).quiet
  | add number event => exact (keeps.edit number fun client follows => follows.add event).quiet
  | addHeader number name value =>
    exact Keeps.quiet (keeps.edit number fun client follows => follows.of_view rfl rfl rfl rfl)
  | removeHeader number name =>
    exact Keeps.quiet (keeps.edit number fun client follows => follows.of_view rfl rfl rfl rfl)
  | clearChanges number =>
    exact Keeps.quiet (keeps.edit number fun client follows => follows.of_view rfl rfl rfl rfl)
  | commitChanges number id now readFails =>
    cases seated : desk.clients number with
    | none =>
      rw [act, seated]
      exact keeps.quiet
    | some client => exact commitChanges_keeps keeps known seated id now readFails
  | commit attempt =>
    rcases keeps.holds.commit keeps.sound attempt with
      ⟨error, engine, answered, holds⟩ | ⟨checkpoint, engine, answered, taken, next, holds⟩
    · rw [act, answered]
      exact (keeps.withEngine holds).quiet
    · refine ⟨journal.accept attempt checkpoint, ?_⟩
      rw [act, answered]
      exact keeps.grow taken next holds

/-- All moves of a run. -/
theorem actAll_keeps (keeps : desk.Keeps readable key journal accepted) (moves : List Move)
    (read : ∀ taken ∈ accepted ++ (actAll key moves desk).1, taken.commit.key = key → readable taken.commit) :
    ∃ after, (actAll key moves desk).2.Keeps readable key after (accepted ++ (actAll key moves desk).1) := by
  induction moves generalizing desk journal accepted with
  | nil => exact ⟨journal, by simpa [actAll] using keeps⟩
  | cons move moves ih =>
    obtain ⟨middle, kept⟩ := act_keeps keeps (fun taken member => read taken (by simp [member])) move
    rw [actAll] at read ⊢
    dsimp only at read ⊢
    rw [← List.append_assoc] at read ⊢
    exact ih kept read

end Desk

/-! ### Nothing is lost -/

/-- What holds at every moment of the log of a stream, of its clients and of the attempts that have been
accepted. -/
structure NothingLost (key : StreamKey) (desk : Desk) (accepted : List Accepted) (log : List Commit) : Prop where
  /-- This is the log that the engine shows. -/
  stored : CommitStore.getFrom key 0 maxRevision desk.engine = (.ok log, desk.engine)
  /-- The log has the events of each accepted attempt once, under the checkpoint that was answered. -/
  complete : log.map (fun commit => (commit.checkpoint, commit.events)) =
    (accepted.filter fun taken => taken.commit.key = key).map fun taken => (taken.commit.checkpoint, taken.proposed)
  ascending : log.Pairwise fun a b => a.checkpoint.toInt < b.checkpoint.toInt
  /-- A client shows the events up to its revision and no others. -/
  revisions : ∀ number client, desk.clients number = some client →
    client.revision.toNat ≤ (Commit.eventsOf log).length ∧
      client.committed = (Commit.eventsOf log).take client.revision.toNat
  /-- Its sequence is the number of commits that have these events. -/
  sequences : ∀ number client, desk.clients number = some client →
    client.sequence.toNat ≤ log.length ∧ client.committed = Commit.eventsOf (log.take client.sequence.toNat)
  /-- If its changes can be committed now, it shows the whole log. -/
  entire : ∀ number client, desk.clients number = some client → ∀ id now readFails commit,
    (client.commitChanges id now (desk.engine.reach readFails)).1 = .ok (some commit) →
      client.committed = Commit.eventsOf log ∧ client.sequence.toNat = log.length

theorem Desk.Keeps.nothingLost {readable : Commit → Prop} {key : StreamKey} {desk : Desk} {journal : Journal}
    {accepted : List Accepted} (keeps : desk.Keeps readable key journal accepted)
    (read : ∀ taken ∈ accepted, taken.commit.key = key → readable taken.commit) :
    NothingLost key desk accepted ((journal.stream key).map desk.engine.shows) := by
  have known := keeps.known read
  have orderly := keeps.sound.orderly key
  constructor
  · obtain ⟨least, early, found⟩ := keeps.holds.getFrom keeps.sound known 0
    rw [orderly.window_all early] at found
    exact found
  · rw [List.map_map, Journal.stream, keeps.whole, List.filter_map, List.map_map]
    refine List.map_congr_left fun taken member => ?_
    have proposed := keeps.proposed taken (List.mem_filter.1 member).1
    simp only [Function.comp_apply, Engine.events_shows, Engine.checkpoint_shows, proposed]
  · rw [List.pairwise_map]
    refine (keeps.sound.ascending.sublist List.filter_sublist).imp fun less => ?_
    rw [Engine.checkpoint_shows, Engine.checkpoint_shows]
    exact less
  · intro number client seated
    obtain ⟨-, seen, new, split, shows⟩ := keeps.clients number client seated
    rw [Engine.eventsOf_shows, split, Commit.eventsOf_append, shows.revision, shows.committed, List.take_left,
      List.length_append]
    exact ⟨Nat.le_add_right _ _, rfl⟩
  · intro number client seated
    obtain ⟨-, seen, new, split, shows⟩ := keeps.clients number client seated
    rw [← List.map_take, Engine.eventsOf_shows, List.length_map, split, shows.sequence, shows.committed,
      List.take_left, List.length_append]
    exact ⟨Nat.le_add_right _ _, rfl⟩
  · intro number client seated id now readFails commit made
    obtain ⟨answer, after, engine, answered, outcome⟩ :=
      (keeps.clients number client seated).commitChanges keeps.holds keeps.sound known id now readFails
    rw [answered] at made
    cases outcome with
    | refused nothing => exact absurd made (nothing commit)
    | committed _ _ _ _ entire =>
      rw [Engine.eventsOf_shows, List.length_map]
      exact ⟨entire.committed, entire.sequence⟩

/-- Whatever the clients of a stream and other writers do, and in whatever order, no update is lost: on a
store in memory, and on a database if what is committed to the stream can be read back. -/
theorem no_update_lost (key : StreamKey) :
    (∀ (config : MemoryConfig) (moves : List Desk.Move),
      let run := Desk.actAll key moves { engine := .memory (MemoryStore.create config) }
      ∃ log, NothingLost key run.2 run.1 log) ∧
    (∀ (config : DatabaseConfig) (moves : List Desk.Move),
      let run := Desk.actAll key moves { engine := .database (DatabaseStore.fresh config) }
      (∀ taken ∈ run.1, taken.commit.key = key → taken.commit.Storable) →
        ∃ log, NothingLost key run.2 run.1 log) := by
  constructor
  · intro config moves run
    have holds : Engine.Holds (fun _ => True) (.memory (MemoryStore.create config)) ({} : Ledger).toJournal :=
      .memory (.create config) rfl
    have start : Desk.Keeps (fun _ => True) key { engine := .memory (MemoryStore.create config) } {} [] :=
      ⟨holds, .empty, rfl, by simp, by simp⟩
    obtain ⟨journal, keeps⟩ := Desk.actAll_keeps start moves fun _ _ _ => trivial
    exact ⟨_, keeps.nothingLost fun _ _ _ => trivial⟩
  · intro config moves run storable
    have holds : Engine.Holds (fun commit => commit.Storable) (.database (DatabaseStore.fresh config)) {} :=
      .database (.fresh config) rfl fun _ readable => readable
    have start : Desk.Keeps (fun commit => commit.Storable) key { engine := .database (DatabaseStore.fresh config) }
        {} [] := ⟨holds, .empty, rfl, by simp, by simp⟩
    obtain ⟨journal, keeps⟩ := Desk.actAll_keeps start moves storable
    exact ⟨_, keeps.nothingLost storable⟩

/-- Two clients of a stream in a database, of whom the second comes too late, learns of the first one's
event and then commits its own. -/
theorem no_update_lost_after_conflict :
    let key : StreamKey := ⟨⟨"orders"⟩, ⟨"7"⟩⟩
    let moves : List Desk.Move :=
      [.create 0, .openWhole 1, .add 0 { body := [1] }, .add 1 { body := [2] }, .commitChanges 0 ⟨"placed"⟩ 0 false,
        .commitChanges 1 ⟨"paid"⟩ 0 false, .commitChanges 1 ⟨"paid"⟩ 0 false]
    let run := Desk.actAll key moves { engine := .database (DatabaseStore.fresh {}) }
    (run.1.map fun taken => (taken.commit.checkpoint.toInt, taken.proposed.map Event.body)) =
        [(1, [[1]]), (2, [[2]])] ∧
      (∀ taken ∈ run.1, taken.commit.key = key → taken.commit.Storable) ∧
      ∃ log, NothingLost key run.2 run.1 log := by
  intro key moves run
  have made : (run.1.map fun taken => (taken.commit.checkpoint.toInt, taken.proposed.map Event.body)) =
      [(1, [[1]]), (2, [[2]])] := by decide +kernel
  have bare : (run.1.all fun taken =>
      taken.commit.headers.isEmpty && taken.commit.events.all fun event => event.headers.isEmpty) = true := by
    decide +kernel
  have storable : ∀ taken ∈ run.1, taken.commit.key = key → taken.commit.Storable := by
    intro taken member _
    have found := List.all_eq_true.1 bare taken member
    rw [Bool.and_eq_true, List.isEmpty_iff] at found
    exact .of_bare found.1 fun event inside => List.isEmpty_iff.1 (List.all_eq_true.1 found.2 event inside)
  exact ⟨made, storable, (no_update_lost key).2 {} moves storable⟩

end CommitLog
