import CommitLog.Hooked
import CommitLog.Proofs.Clients
import CommitLog.Proofs.Resume

/-!
The changes of a client are committed as a whole or not at all, on whatever store (`changes_whole`). A store can fail
in many ways, and its hooks may change what a client reads, but two things it cannot do: it takes only an attempt of
the right form, and answers with the commit that it has made of it (`LawfulStore`). Nothing that a client takes in
touches its changes or makes it forget an id (`TakesIn`).
-/

namespace CommitLog

/-! ### Stores -/

/-- A store that takes only attempts of the right form, and answers with the commit that it has made. -/
class LawfulStore (σ : Type) [CommitStore σ] : Prop where
  made : ∀ {attempt : Attempt} {commit : Commit} {store : σ}, (CommitStore.commit attempt store).1 = .ok commit →
    attempt.validate = .ok () ∧ ∃ checkpoint, commit = attempt.toCommit checkpoint

/-- What ends well has gone well at each of its steps. -/
theorem Except.bind_eq_ok {ε α β : Type} {first : Except ε α} {next : α → Except ε β} {value : β} :
    (first >>= next) = .ok value ↔ ∃ middle, first = .ok middle ∧ next middle = .ok value := by
  cases first with
  | error error => simp [bind, Except.bind]
  | ok middle => simp [bind, Except.bind]

instance : LawfulStore MemoryStore where
  made {attempt commit store} answered := by
    replace answered : (store.commit attempt).1 = .ok commit := answered
    unfold MemoryStore.commit at answered
    split at answered
    · cases answered
    next checked =>
    obtain ⟨⟨⟩, -, rest⟩ := Except.bind_eq_ok.1 checked
    obtain ⟨⟨⟩, valid, -⟩ := Except.bind_eq_ok.1 rest
    split at answered
    · cases answered
    next checkpoint next =>
    cases answered
    exact ⟨valid, checkpoint, rfl⟩

instance : LawfulStore DatabaseStore where
  made {attempt commit store} answered := by
    replace answered : (store.commit attempt).1 = .ok commit := answered
    unfold DatabaseStore.commit at answered
    split at answered
    · cases answered
    next checked =>
    obtain ⟨⟨⟩, -, rest⟩ := Except.bind_eq_ok.1 checked
    obtain ⟨⟨⟩, valid, -⟩ := Except.bind_eq_ok.1 rest
    dsimp only at answered
    split at answered
    · next checkpoint grown written =>
      cases answered
      exact ⟨valid, checkpoint, rfl⟩
    · cases answered

instance : LawfulStore Engine where
  made {attempt commit engine} answered := by
    cases engine with
    | memory store => exact LawfulStore.made (show (CommitStore.commit attempt store).1 = .ok commit from answered)
    | database store => exact LawfulStore.made (show (CommitStore.commit attempt store).1 = .ok commit from answered)

section Layers

variable {σ ρ : Type} [CommitStore σ] [LawfulStore σ]

/-- Hooks can keep an attempt away, but change neither the attempt nor the answer. -/
instance : LawfulStore (Hooked σ ρ) where
  made {attempt commit store} answered := by
    replace answered : (store.commit attempt).1 = .ok commit := answered
    unfold Hooked.commit Hooked.announced at answered
    split at answered
    · cases answered
    dsimp only at answered
    split at answered
    · cases answered
    next made inner beneath =>
    cases answered
    exact LawfulStore.made (congrArg Prod.fst beneath)

instance : LawfulStore (Drill.Faulty σ) where
  made {attempt commit store} answered :=
    LawfulStore.made (show (CommitStore.commit attempt store.inner).1 = .ok commit from answered)

end Layers

namespace EventStream

variable {client next after other : EventStream}

/-! ### Taking in commits -/

/-- What a client is once it has taken in some commits: its changes are as they were, and the ids that it knows are
those it knew and ids of the commits. -/
structure TakesIn (commits : List Commit) (client after : EventStream) : Prop where
  key : after.key = client.key
  events : after.uncommitted = client.uncommitted
  headers : after.uncommittedHeaders = client.uncommittedHeaders
  ids : client.ids ⊆ after.ids
  learnt : ∀ id ∈ after.ids, id ∈ client.ids ∨ ∃ commit ∈ commits, commit.id = id

variable {commit : Commit} {commits : List Commit}

theorem TakesIn.nothing (client : EventStream) : TakesIn [] client client :=
  ⟨rfl, rfl, rfl, fun _ known => known, fun _ known => .inl known⟩

/-- A client that has the id of the first commit, and then takes in others. -/
theorem TakesIn.cons (key : next.key = client.key) (events : next.uncommitted = client.uncommitted)
    (headers : next.uncommittedHeaders = client.uncommittedHeaders) (ids : next.ids = client.ids.insert commit.id)
    (others : TakesIn commits next after) : TakesIn (commit :: commits) client after := by
  refine ⟨others.key.trans key, others.events.trans events, others.headers.trans headers, fun id known => ?_,
    fun id member => ?_⟩
  · refine others.ids ?_
    rw [ids]
    exact List.mem_insert_of_mem known
  · rcases others.learnt id member with earlier | ⟨other, inside, same⟩
    · rw [ids] at earlier
      rcases List.mem_insert_iff.1 earlier with rfl | known
      · exact .inr ⟨commit, by simp, rfl⟩
      · exact .inl known
    · exact .inr ⟨other, by simp [inside], same⟩

/-- Commits that are not looked at add nothing. -/
theorem TakesIn.append (takes : TakesIn commits client after) (more : List Commit) :
    TakesIn (commits ++ more) client after := by
  refine { takes with learnt := fun id member => ?_ }
  rcases takes.learnt id member with known | ⟨commit, inside, same⟩
  · exact .inl known
  · exact .inr ⟨commit, by simp [inside], same⟩

/-- Events that are taken in add to the view. -/
theorem absorb_view (least most revision : UInt64) (events : List Event) (client : EventStream) :
    ∃ committed reached, (absorb least most revision events client).2 =
      { client with committed := committed, revision := reached } := by
  induction events generalizing client revision with
  | nil => exact ⟨_, _, rfl⟩
  | cons event events ih =>
    rw [absorb]
    split
    · exact ⟨_, _, rfl⟩
    dsimp only
    generalize wanted : (if least ≤ revision ∧ client.revision < revision then
      { client with committed := client.committed ++ [event], revision } else client) = view
    obtain ⟨committed, reached, rfl⟩ : ∃ committed reached, view =
        { client with committed := committed, revision := reached } := by
      rw [← wanted]
      split <;> exact ⟨_, _, rfl⟩
    cases Overflow.sum revision 1 with
    | error overflow => exact ⟨_, _, rfl⟩
    | ok following =>
      obtain ⟨more, further, same⟩ := ih following { client with committed := committed, revision := reached }
      exact ⟨more, further, same⟩

/-- However far it comes, a client takes in commits. -/
theorem populate_takesIn (least most : UInt64) (commits : List Commit) (client : EventStream) :
    TakesIn commits client (populate least most commits client).2 := by
  induction commits generalizing client with
  | nil => exact .nothing client
  | cons commit commits ih =>
    have stops : ∀ {view : EventStream}, view.key = client.key → view.uncommitted = client.uncommitted →
        view.uncommittedHeaders = client.uncommittedHeaders → view.ids = client.ids.insert commit.id →
          TakesIn (commit :: commits) client view := fun key events headers ids =>
      .append (.cons key events headers ids (.nothing _)) commits
    rw [populate]
    dsimp only
    split
    · exact stops rfl rfl rfl rfl
    split
    · exact stops rfl rfl rfl rfl
    next first _ _ =>
    generalize started : ({ client with
      ids := client.ids.insert commit.id
      sequence := max client.sequence commit.sequence
      committedHeaders := client.committedHeaders.merge commit.headers } : EventStream) = view
    obtain ⟨committed, reached, absorbed⟩ := absorb_view least most first commit.events view
    subst started
    split
    · next taken found =>
      rw [found] at absorbed
      cases absorbed
      exact stops rfl rfl rfl rfl
    · next taken found =>
      rw [found] at absorbed
      cases absorbed
      refine .cons ?_ ?_ ?_ ?_ (ih _) <;> rfl

theorem follow_takesIn (commits : List Commit) (client : EventStream) :
    TakesIn commits client (client.follow commits).2 := by
  rw [follow]
  split
  · exact .append (.nothing client) commits
  · exact populate_takesIn _ _ _ _

section Store

variable {σ : Type} [CommitStore σ] {store refused : σ} {id : CommitId} {now : UInt64}

theorem refresh_takesIn (client : EventStream) (store : σ) :
    ∃ commits, TakesIn commits client (client.refresh store).2.1 := by
  rw [refresh]
  split
  · exact ⟨[], .nothing client⟩
  split
  · exact ⟨[], .nothing client⟩
  · exact ⟨[], .nothing client⟩
  · exact ⟨_, populate_takesIn _ _ _ _⟩

/-! ### What comes of the changes of a client -/

/-- The ways in which committing the changes of a client may end. -/
inductive Ending (client : EventStream) (id : CommitId) (now : UInt64) (store : σ) :
    Except Error (Option Commit) × EventStream × σ → Prop where
  | nothing (clean : client.uncommitted = []) : Ending client id now store (.ok none, client, store)
  | known (member : id ∈ client.ids) :
    Ending client id now store (.error (.duplicateCommit client.key id), client, store)
  | unmade {overflow : Overflow} (made : client.attempt id now = .error overflow) :
    Ending client id now store (.error (.overflow overflow), client, store)
  | refused {attempt : Attempt} {error : Error} {refused : σ} (made : client.attempt id now = .ok attempt)
    (answered : CommitStore.commit attempt store = (.error error, refused))
    (calm : ∀ key sequence, error ≠ .concurrency key sequence) :
    Ending client id now store (.error error, client, refused)
  | conflict {attempt : Attempt} {key : StreamKey} {sequence : UInt64} {refused after : σ} {view : EventStream}
    (made : client.attempt id now = .ok attempt)
    (answered : CommitStore.commit attempt store = (.error (.concurrency key sequence), refused))
    (refreshed : client.refresh refused = (.ok (), view, after)) :
    Ending client id now store (.error (.concurrency key sequence), view, after)
  | stranded {attempt : Attempt} {key : StreamKey} {sequence : UInt64} {overflow : Overflow} {refused after : σ}
    {view : EventStream} (made : client.attempt id now = .ok attempt)
    (answered : CommitStore.commit attempt store = (.error (.concurrency key sequence), refused))
    (refreshed : client.refresh refused = (.error overflow, view, after)) :
    Ending client id now store (.error (.overflow overflow), view, after)
  | taken {attempt : Attempt} {commit : Commit} {after : σ} {view : EventStream} (dirty : client.uncommitted ≠ [])
    (made : client.attempt id now = .ok attempt) (answered : CommitStore.commit attempt store = (.ok commit, after))
    (followed : client.follow [commit] = (.ok (), view)) :
    Ending client id now store (.ok (some commit), view.clearChanges, after)
  | lost {attempt : Attempt} {commit : Commit} {overflow : Overflow} {after : σ} {view : EventStream}
    (dirty : client.uncommitted ≠ []) (made : client.attempt id now = .ok attempt)
    (answered : CommitStore.commit attempt store = (.ok commit, after))
    (followed : client.follow [commit] = (.error overflow, view)) :
    Ending client id now store (.error (.overflow overflow), view, after)

/-- There is no other way. -/
theorem ending (client : EventStream) (id : CommitId) (now : UInt64) (store : σ) :
    Ending client id now store (client.commitChanges id now store) := by
  rw [commitChanges]
  split
  · next clean => exact .nothing (List.isEmpty_iff.1 clean)
  next dirty =>
  rw [List.isEmpty_iff] at dirty
  split
  · next member => exact .known (List.contains_iff_mem.1 member)
  split
  · next overflow made => exact .unmade made
  next attempt made =>
  split
  · next commit after answered =>
    split
    · next overflow view followed => exact .lost dirty made answered followed
    · next view followed => exact .taken dirty made answered followed
  · next key sequence refused answered =>
    split
    · next overflow view after refreshed => exact .stranded made answered refreshed
    · next view after refreshed => exact .conflict made answered refreshed
  · next error refused other answered =>
    refine .refused made answered fun key sequence same => ?_
    subst same
    exact other key sequence rfl

/-- A client that knows an id makes no other commit of it, and does not ask the store. -/
theorem commitChanges_known (dirty : client.uncommitted ≠ []) (member : id ∈ client.ids) :
    client.commitChanges id now store = (.error (.duplicateCommit client.key id), client, store) := by
  rw [commitChanges, if_neg (by simpa using dirty), if_pos (List.contains_iff_mem.2 member)]

/-- What a client reads again after its attempt was refused. -/
def rereads (client : EventStream) (id : CommitId) (now : UInt64) (store : σ) : Except Error (List Commit) := do
  let attempt ← client.attempt id now
  let least ← Overflow.sum client.revision 1
  (CommitStore.getFrom client.key least maxRevision (CommitStore.commit attempt store).2).1

/-- A refresh that cannot read leaves the client as it was. -/
theorem refresh_of_failed {attempt : Attempt} (made : client.attempt id now = .ok attempt)
    (answered : (CommitStore.commit attempt store).2 = refused) {error : Error}
    (failed : client.rereads id now store = .error error) : (client.refresh refused).2.1 = client := by
  rw [refresh]
  cases sum : Overflow.sum client.revision 1 with
  | error overflow => rfl
  | ok least =>
    rw [rereads, made, sum] at failed
    replace failed : (CommitStore.getFrom client.key least maxRevision (CommitStore.commit attempt store).2).1 =
        .error error := failed
    rw [answered] at failed
    dsimp only
    split
    · rfl
    · rfl
    · next commits after read =>
      rw [read] at failed
      cases failed

end Store

/-! ### Afterwards -/

/-- What may become of a client, whatever is done with it and on whatever stores. -/
inductive Later (client : EventStream) : EventStream → Prop where
  | now : Later client client
  | add {other : EventStream} (event : Event) (later : Later client other) : Later client (other.add event)
  | setHeaders {other : EventStream} (headers : Headers) (later : Later client other) :
    Later client { other with uncommittedHeaders := headers }
  | clearChanges {other : EventStream} (later : Later client other) : Later client other.clearChanges
  | commitChanges {other : EventStream} {σ : Type} [CommitStore σ] (id : CommitId) (moment : UInt64) (store : σ)
    (later : Later client other) : Later client (other.commitChanges id moment store).2.1

/-- A client forgets no id. -/
theorem Later.knows (later : Later client other) : other.key = client.key ∧ client.ids ⊆ other.ids := by
  induction later with
  | now => exact ⟨rfl, fun _ known => known⟩
  | add event _ ih =>
    rw [EventStream.add]
    split
    · exact ih
    · exact ih
  | setHeaders headers _ ih => exact ih
  | clearChanges _ ih => exact ih
  | @commitChanges current σ _ id moment store _ ih =>
    obtain ⟨same, known⟩ := ih
    have more : ∀ {commits view}, TakesIn commits current view → view.key = client.key ∧ client.ids ⊆ view.ids :=
      fun takes => ⟨takes.key.trans same, fun id member => takes.ids (known member)⟩
    have ended := current.ending id moment store
    generalize current.commitChanges id moment store = outcome at ended
    cases ended with
    | nothing | known | unmade | refused => exact ⟨same, known⟩
    | @conflict _ _ _ refused _ _ _ _ refreshed | @stranded _ _ _ _ refused _ _ _ _ refreshed =>
      obtain ⟨commits, takes⟩ := current.refresh_takesIn refused
      rw [refreshed] at takes
      exact more takes
    | @taken _ commit _ _ _ _ _ followed | @lost _ commit _ _ _ _ _ _ followed =>
      have takes := current.follow_takesIn [commit]
      rw [followed] at takes
      have kept := more takes
      exact kept

/-! ### The whole -/

/-- The changes of a client have become a commit, which the client has taken in. -/
structure Committed (client after : EventStream) (id : CommitId) (commit : Commit) : Prop where
  key : commit.key = client.key
  id : commit.id = id
  events : commit.events = client.uncommitted
  headers : commit.headers = client.uncommittedHeaders
  committed : after.committed = client.committed ++ client.uncommitted
  revision : after.revision.toNat = client.revision.toNat + client.uncommitted.length
  sequence : after.sequence.toNat = client.sequence.toNat + 1
  clean : after.uncommitted = [] ∧ after.uncommittedHeaders = []

/-- A client takes in the whole of its own commit, without an overflow, if the attempt was of the right form. -/
theorem follow_own {id : CommitId} {now : UInt64} {attempt : Attempt} (dirty : client.uncommitted ≠ [])
    (made : client.attempt id now = .ok attempt) (valid : attempt.validate = .ok ()) (checkpoint : Checkpoint) :
    client.follow [attempt.toCommit checkpoint] = (.ok (), { client with
      committed := client.committed ++ attempt.events
      revision := UInt64.ofNat (client.revision.toNat + attempt.events.length)
      sequence := max client.sequence attempt.sequence
      committedHeaders := client.committedHeaders.merge attempt.headers
      ids := client.ids.insert attempt.id }) := by
  have limit : maxRevision.toNat = 9223372036854775807 := rfl
  have size : UInt64.size = 18446744073709551616 := rfl
  obtain ⟨-, events, revision, -⟩ := attempt_eq_ok made
  obtain ⟨covers, small⟩ := Attempt.bounds_of_valid valid
  have some := List.length_pos_iff.2 dirty
  have within : client.revision.toNat ≤ maxRevision.toNat := by omega
  obtain ⟨least, sum, next⟩ := Overflow.exists_sum_one within
  rw [← events] at dirty revision
  have first : (UInt64.ofNat (attempt.revision.toNat - attempt.events.length + 1)).toNat = client.revision.toNat + 1 := by
    rw [UInt64.toNat_ofNat_of_lt' (by omega)]
    omega
  rw [follow, sum]
  refine populate_cons dirty covers small least [] (absorb_new ?_ ?_ ?_)
  · exact first
  · exact Nat.le_of_eq (by rw [next]; exact first.symm)
  · show client.revision.toNat + attempt.events.length ≤ maxRevision.toNat
    omega

/-- A client has then taken in its changes. -/
theorem committed_taken {id : CommitId} {now : UInt64} {attempt : Attempt} (dirty : client.uncommitted ≠ [])
    (made : client.attempt id now = .ok attempt) (valid : attempt.validate = .ok ()) (checkpoint : Checkpoint) :
    ∃ view, client.follow [attempt.toCommit checkpoint] = (.ok (), view) ∧ id ∈ view.ids ∧
      client.Committed view.clearChanges id (attempt.toCommit checkpoint) := by
  obtain ⟨key, events, revision, sequence⟩ := attempt_eq_ok made
  obtain ⟨named, headers⟩ := attempt_named made
  have small := attempt.revision.toNat_lt
  refine ⟨_, follow_own dirty made valid checkpoint, ?_, ⟨key, named, events, headers, ?_, ?_, ?_, rfl, rfl⟩⟩
  · exact List.mem_insert_iff.2 (.inl named.symm)
  · exact congrArg (client.committed ++ ·) events
  · rw [← revision, ← UInt64.toNat_ofNat_of_lt' small, revision, ← events]
    rfl
  · show (max client.sequence attempt.sequence).toNat = _
    rw [toNat_max]
    omega

/-- On every store, and in every state, the changes of a client are committed as a whole or not at all. Once they are,
the id stays known to the client. If they are not, they are left as they were, and so is the rest of the client,
unless there was a conflict and the client has read what others have committed. -/
theorem changes_whole {σ : Type} [CommitStore σ] [LawfulStore σ] (client : EventStream) (id : CommitId) (now : UInt64)
    (store : σ) :
    let outcome := client.commitChanges id now store
    let after := outcome.2.1
    match outcome.1 with
    | .ok (some commit) =>
      client.Committed after id commit ∧
        ∀ other, Later after other → other.uncommitted ≠ [] →
          ∀ (τ : Type) [CommitStore τ] (moment : UInt64) (elsewhere : τ), other.commitChanges id moment elsewhere =
            (.error (.duplicateCommit client.key id), other, elsewhere)
    | .ok none => client.uncommitted = [] ∧ after = client
    | .error (.concurrency _ _) =>
      after.uncommitted = client.uncommitted ∧ after.uncommittedHeaders = client.uncommittedHeaders ∧
        ∀ error, client.rereads id now store = .error error → after = client
    | .error (.overflow _) =>
      after.uncommitted = client.uncommitted ∧ after.uncommittedHeaders = client.uncommittedHeaders
    | .error _ => after = client := by
  intro outcome after
  have ended : Ending client id now store outcome := client.ending id now store
  clear_value outcome
  cases ended with
  | nothing clean => exact ⟨clean, rfl⟩
  | known member => exact rfl
  | unmade made => exact ⟨rfl, rfl⟩
  | @refused _ error _ made answered calm =>
    cases error with
    | concurrency key sequence => exact absurd rfl (calm key sequence)
    | overflow overflow => exact ⟨rfl, rfl⟩
    | _ => exact rfl
  | @conflict attempt _ _ refused _ _ made answered refreshed =>
    obtain ⟨commits, takes⟩ := client.refresh_takesIn refused
    rw [refreshed] at takes
    refine ⟨takes.events, takes.headers, fun error failed => ?_⟩
    have left := refresh_of_failed made (congrArg Prod.snd answered) failed
    rwa [refreshed] at left
  | @stranded _ _ _ _ refused _ _ made answered refreshed =>
    obtain ⟨commits, takes⟩ := client.refresh_takesIn refused
    rw [refreshed] at takes
    exact ⟨takes.events, takes.headers⟩
  | @taken attempt commit _ view dirty made answered followed =>
    obtain ⟨valid, checkpoint, rfl⟩ := LawfulStore.made (congrArg Prod.fst answered)
    obtain ⟨own, taken, known, committed⟩ := committed_taken dirty made valid checkpoint
    rw [followed] at taken
    cases taken
    refine ⟨committed, fun other later changed τ _ moment elsewhere => ?_⟩
    obtain ⟨same, knows⟩ := later.knows
    have key := (client.follow_takesIn [attempt.toCommit checkpoint]).key
    rw [followed] at key
    rw [commitChanges_known changed (knows known), same.trans key]
  | @lost attempt commit _ _ _ dirty made answered followed =>
    obtain ⟨valid, checkpoint, rfl⟩ := LawfulStore.made (congrArg Prod.fst answered)
    obtain ⟨own, taken, -⟩ := committed_taken dirty made valid checkpoint
    rw [followed] at taken
    cases taken

/-- While a store cannot be read, a client that another writer has overtaken gets a conflict and is left as it was.
The other writer commits all the same, and is refused the id when it has changes again. -/
theorem changes_whole_during_outage :
    let key : StreamKey := ⟨⟨"orders"⟩, ⟨"7"⟩⟩
    let placed : Attempt := ⟨key.bucket, key.stream, 1, ⟨"placed"⟩, 1, 0, [], [{ body := [1] }]⟩
    let engine : Engine := .memory (Call.serveAll [.commit placed] (MemoryStore.create {})).2
    let store : Hooked (Drill.Faulty Engine) (List Hook.Record) :=
      ⟨{ inner := engine, down := true }, [Hook.record "audit"], []⟩
    let client := (create key).add { body := [2] }
    let outcome := client.commitChanges ⟨"paid"⟩ 0 store
    let writer := (((create key).add { body := [1] }).commitChanges ⟨"placed"⟩ 0 (MemoryStore.create {})).2.1
    let current := writer.add { body := [2] }
    let paid : Commit := ⟨⟨key.bucket, key.stream, 2, ⟨"paid"⟩, 2, 0, [], [{ body := [2] }]⟩, ⟨2⟩⟩
    let accepted := current.commitChanges ⟨"paid"⟩ 0 store
    let again := accepted.2.1.add { body := [3] }
    LawfulStore (Hooked (Drill.Faulty Engine) (List Hook.Record)) ∧ outcome.1 = .error (.concurrency key 1) ∧
      client.rereads ⟨"paid"⟩ 0 store = .error Drill.Faulty.outage ∧ outcome.2.1 = client ∧
      accepted.1 = .ok (some paid) ∧ current.Committed accepted.2.1 ⟨"paid"⟩ paid ∧
      again.commitChanges ⟨"paid"⟩ 1 accepted.2.2 = (.error (.duplicateCommit key ⟨"paid"⟩), again, accepted.2.2) := by
  intro key placed engine store client outcome writer current paid accepted again
  have conflict : (client.commitChanges ⟨"paid"⟩ 0 store).1 = .error (.concurrency key 1) := rfl
  have failed : client.rereads ⟨"paid"⟩ 0 store = .error Drill.Faulty.outage := rfl
  have kept : outcome.2.1 = client := by
    have whole := changes_whole client ⟨"paid"⟩ 0 store
    dsimp only at whole
    rw [conflict] at whole
    exact whole.2.2 _ failed
  have view : current =
      { key, revision := 1, sequence := 1, committed := [{ body := [1] }], uncommitted := [{ body := [2] }],
        ids := [⟨"placed"⟩] } := rfl
  have answered : (current.commitChanges ⟨"paid"⟩ 0 store).1 = .ok (some paid) := by
    rw [view]
    rfl
  -- Only the answer counts from here; with its value, each mention of the client would be evaluated again.
  clear_value current
  have whole := changes_whole current ⟨"paid"⟩ 0 store
  dsimp only at whole
  rw [answered] at whole
  obtain ⟨committed, refused⟩ := whole
  have changed : again.uncommitted ≠ [] := List.append_ne_nil_of_right_ne_nil accepted.2.1.uncommitted (by simp)
  have known := refused again (.add _ .now) changed _ 1 accepted.2.2
  rw [← committed.key] at known
  exact ⟨inferInstance, conflict, failed, kept, answered, committed, known⟩

end EventStream
end CommitLog
