import CommitLog.Proofs.EngineCalls
import CommitLog.Proofs.Memory.HeadWorker
import Mathlib.Logic.Relation

/-!
Nobody sees that head updates are applied later. Whatever a caller calls and whenever the worker of the heads takes its
steps, every answer is that of a store that applies each head update at once; the caller never waits for a worker that
has nothing to do; and a stream that is removed stays without a head until it is committed to again
(`head_updates_unseen`).
-/

namespace CommitLog

variable {key : StreamKey}

/-- The stream has been removed, and no commit to it has been accepted since. -/
def History.Gone (key : StreamKey) (history : History) : Prop :=
  ∃ (before after : History) (call : Call), history = before ++ (call, .ok .done) :: after ∧ call.removes key = true ∧
    ∀ commit ∈ after.accepted, commit.key ≠ key

theorem History.Gone.concat {history : History} {call : Call} {answer : Call.Answer}
    (gone : Gone key (history ++ [(call, answer)])) :
    call.removes key = true ∧ answer = .ok .done ∨
      Gone key history ∧ ∀ commit, answer.accepted = some commit → commit.key ≠ key := by
  obtain ⟨before, after, removal, parts, removes, since⟩ := gone
  rcases List.eq_nil_or_concat' after with rfl | ⟨between, last, rfl⟩
  · obtain ⟨-, same⟩ := List.append_inj' parts rfl
    cases same
    exact .inl ⟨removes, rfl⟩
  · rw [← List.cons_append, ← List.append_assoc] at parts
    obtain ⟨rfl, same⟩ := List.append_inj' parts rfl
    cases same
    rw [accepted_concat] at since
    refine .inr ⟨⟨before, between, removal, rfl, removes, fun commit member => ?_⟩, fun commit made => ?_⟩
    · exact since commit (List.mem_append_left _ member)
    · exact since commit (List.mem_append_right _ (by simp [made]))

namespace Memory

/-! ### Head updates at once -/

/-- A history of a store that applies head updates at once and is not disposed, and the store after it. -/
inductive Prompt (config : MemoryConfig) : History → MemoryStore → Prop where
  | start : Prompt config [] (.create config)
  | call {history : History} {now : MemoryStore} (prompt : Prompt config history now) (call : Call)
    (stays : call ≠ .dispose) : Prompt config (history ++ [(call, (call.serveNow now).1)]) (call.serveNow now).2

section

variable {config : MemoryConfig} {history : History} {store now : MemoryStore} {call : Call}

theorem serveNow_plain (plain : ∀ attempt, call ≠ .commit attempt) : call.serveNow store = call.serve store := by
  cases call with
  | commit attempt => exact absurd rfl (plain attempt)
  | _ => rfl

theorem own_serveNow (own : Own store) (call : Call) : Own (call.serveNow store).2 := by
  rw [serveNow_eq own]
  rfl

/-- A removal that succeeds leaves the stream without a head. -/
theorem headless_of_removes (removes : call.removes key = true) (done : (call.serveNow store).1 = .ok .done) :
    Headless key (call.serveNow store).2 := by
  have removed : ∀ gone : StreamKey → Bool, gone key = true →
      (Call.answering (fun _ => .done) (store.remove gone)).1 = .ok .done → Headless key (store.remove gone).2 := by
    intro gone here answered
    rw [MemoryStore.remove] at answered ⊢
    cases opened : store.ensureOpen with
    | error error => rw [opened] at answered; cases answered
    | ok =>
      intro found
      obtain ⟨head, kept, rfl⟩ := List.mem_map.1 found
      simp [MemoryStore.removeWhere, here] at kept
  cases call with
  | deleteStream other => exact removed (fun key => key = other) removes done
  | purgeBucket bucket => exact removed (fun key => key.bucket = bucket) removes done
  | purge => exact removed (fun _ => true) removes done
  | _ => cases removes

/-- A stream has no head before a commit to it is accepted. -/
theorem headless_serveNow (own : Own store) (headless : Headless key store)
    (other : ∀ commit, (call.serveNow store).1.accepted = some commit → commit.key ≠ key) :
    Headless key (call.serveNow store).2 := by
  cases call with
  | commit attempt =>
    revert other
    show (∀ commit, (Call.answering .commit (store.commitNow attempt)).1.accepted = some commit → _) →
      Headless key (store.commitNow attempt).2
    rw [MemoryStore.commitNow]
    cases store.place attempt with
    | error error => exact fun _ => headless
    | ok checkpoint =>
      intro other found
      rcases mem_keys_apply.1 found with known | rfl
      · exact headless known
      · exact other _ rfl rfl
  | _ =>
    rw [serveNow_plain (by simp)]
    exact (tame_serve own (by simp)).2 key headless

namespace Prompt

theorem own (prompt : Prompt config history now) : Own now := by
  induction prompt with
  | start => rfl
  | call _ call _ ih => exact own_serveNow ih call

theorem headless (prompt : Prompt config history now) (gone : history.Gone key) : Headless key now := by
  induction prompt with
  | start =>
    obtain ⟨before, after, call, parts, -⟩ := gone
    cases before <;> cases parts
  | call prompt call _ ih =>
    rcases gone.concat with ⟨removes, done⟩ | ⟨earlier, other⟩
    · exact headless_of_removes removes done
    · exact headless_serveNow prompt.own (ih earlier) other

theorem keeps (prompt : Prompt config history now) :
    ∃ (ledger : Ledger) (accepted : List Commit),
      now.Keeps ledger ∧ ledger.Sound accepted ∧ ledger.disposed = false := by
  induction prompt with
  | start => exact ⟨{}, [], .create config, .empty, rfl⟩
  | call prompt call stays ih =>
    obtain ⟨ledger, accepted, keeps, sound, isOpen⟩ := ih
    rw [serveNow_eq prompt.own]
    exact ⟨_, _, (MemoryStore.serve_agrees keeps sound call).2.settled, sound.step (ledger.answer_step call),
      Ledger.disposed_answer isOpen stays⟩

theorem serveAllNow_concat (calls : List Call) (call : Call) (store : MemoryStore) :
    Call.serveAllNow (calls ++ [call]) store =
      ((Call.serveAllNow calls store).1 ++ [(call.serveNow (Call.serveAllNow calls store).2).1],
        (call.serveNow (Call.serveAllNow calls store).2).2) := by
  induction calls generalizing store with
  | nil => rfl
  | cons first calls ih => simp [Call.serveAllNow, ih]

theorem run (prompt : Prompt config history now) :
    Call.serveAllNow (history.map Prod.fst) (.create config) = (history.map Prod.snd, now) := by
  induction prompt with
  | start => rfl
  | call _ call _ ih => rw [List.map_append, List.map_append, List.map_singleton, serveAllNow_concat, ih]; rfl

/-- A stream that has been removed is answered to have no head. -/
theorem unseen (prompt : Prompt config history now) {before after : History} {answer : Call.Answer}
    (parts : history = before ++ (.head key, answer) :: after) (gone : before.Gone key) :
    answer = .ok (.head none) := by
  induction prompt generalizing after with
  | start => cases before <;> cases parts
  | @call history now prompt call _ ih =>
    rcases List.eq_nil_or_concat' after with rfl | ⟨between, last, rfl⟩
    · obtain ⟨rfl, same⟩ := List.append_inj' parts rfl
      cases same
      obtain ⟨ledger, accepted, keeps, -, isOpen⟩ := prompt.keeps
      have headless := prompt.headless gone
      have none : now.headQueue.find? key = none := by
        refine List.find?_eq_none.2 fun head member same => headless ?_
        rw [← of_decide_eq_true same]
        exact List.mem_map_of_mem member
      show Except.map Call.Reply.head (now.head key).1 = _
      rw [MemoryStore.head, MemoryStore.ensureOpen_of_open (keeps.disposed.trans isOpen)]
      dsimp only
      rw [prompt.own.settled, none]
      rfl
    · rw [← List.cons_append, ← List.append_assoc] at parts
      exact ih (List.append_inj' parts rfl).1

end Prompt

/-- At once or later, the answers are the same. -/
theorem serveAllNow_agrees {ledger : Ledger} {accepted : List Commit} (own : Own store) (keeps : store.Keeps ledger)
    (sound : ledger.Sound accepted) (calls : List Call) :
    (Call.serveAllNow calls store).1 = (ledger.answerAll calls).1 := by
  induction calls generalizing store ledger accepted with
  | nil => rfl
  | cons call calls ih =>
    obtain ⟨same, kept⟩ := MemoryStore.serve_agrees keeps sound call
    rw [Call.serveAllNow, Ledger.answerAll, serveNow_eq own, same]
    have waited : Own (call.serve store).2.settled := rfl
    exact congrArg (List.cons _) (ih waited kept.settled (sound.step (ledger.answer_step call)))

end

/-! ### The worker -/

/-- Does to the heads what is asked for, the first first. -/
def Request.applyAll : List Request → List StreamHead → List StreamHead
  | [], heads => heads
  | .raise update :: rest, heads => applyAll rest (update.apply heads)
  | .flush :: rest, heads => applyAll rest heads

theorem applyAll_append (asked more : List Request) (heads : List StreamHead) :
    Request.applyAll (asked ++ more) heads = Request.applyAll more (Request.applyAll asked heads) := by
  induction asked generalizing heads with
  | nil => rfl
  | cons request rest ih => cases request <;> exact ih _

theorem mem_keys_applyAll {asked : List Request} {heads : List StreamHead} :
    key ∈ (Request.applyAll asked heads).map StreamHead.key ↔
      key ∈ heads.map StreamHead.key ∨ ∃ update, .raise update ∈ asked ∧ key = update.key := by
  induction asked generalizing heads with
  | nil => simp [Request.applyAll]
  | cons request rest ih =>
    cases request with
    | raise update => simp [Request.applyAll, ih, mem_keys_apply, or_assoc]
    | flush => simp [Request.applyAll, ih]

namespace Scene

variable {config : MemoryConfig} {scene after : Scene} {now : MemoryStore}

/-- The store when all that is asked for has been done. -/
def drained (scene : Scene) : MemoryStore := scene.store.withHeads (Request.applyAll scene.requests)

theorem headless_drained : Headless key scene.drained ↔
    Headless key scene.store ∧ ∀ update, .raise update ∈ scene.requests → update.key ≠ key := by
  have found := @mem_keys_applyAll key scene.requests scene.store.headQueue.heads
  rw [Headless, drained, Headless]
  refine (not_congr found).trans ⟨fun neither => ?_, fun ⟨absent, others⟩ => ?_⟩
  · exact ⟨fun known => neither (.inl known), fun update asked same => neither (.inr ⟨update, asked, same.symm⟩)⟩
  · rintro (known | ⟨update, asked, same⟩)
    · exact absent known
    · exact others update asked same.symm

/-- What a step of the worker does to the requests. -/
inductive Serves (scene after : Scene) : Prop where
  | taken (same : after.requests = scene.requests) (heard : after.acknowledged = scene.acknowledged)
  | raised {update : HeadUpdate} (first : scene.requests = .raise update :: after.requests)
    (heard : after.acknowledged = scene.acknowledged)
  | told (first : scene.requests = .flush :: after.requests) (heard : after.acknowledged = true)

theorem WorkerStep.serves (step : scene.WorkerStep after) : scene.Serves after := by
  cases step with
  | take free queued => exact .taken (by simp [requests, free, queued]) rfl
  | @apply update taken => exact @Serves.raised _ _ update (by simp [requests, taken]) rfl
  | acknowledge taken => exact .told (by simp [requests, taken]) rfl

/-- The worker does nothing that is not asked for, and leaves all else as it is. -/
theorem WorkerStep.same (step : scene.WorkerStep after) : after.drained = scene.drained ∧
    after.caller = scene.caller ∧ after.history = scene.history ∧ (Own scene.store → Own after.store) := by
  cases step with
  | take free queued => exact ⟨by simp [drained, requests, free, queued], rfl, rfl, id⟩
  | apply taken => exact ⟨by simp [drained, requests, taken, MemoryStore.withHeads, Request.applyAll], rfl, rfl, id⟩
  | acknowledge taken => exact ⟨by simp [drained, requests, taken, Request.applyAll], rfl, rfl, id⟩

/-- The worker has a step to take exactly while anything is asked for. -/
theorem worker_step_iff : (∃ after, scene.WorkerStep after) ↔ scene.requests ≠ [] := by
  constructor
  · rintro ⟨after, step⟩
    cases step with
    | take free queued => simp [requests, queued]
    | apply taken | acknowledge taken => simp [requests, taken]
  · intro asked
    cases held : scene.hand with
    | some request =>
      cases request with
      | raise update => exact ⟨_, .apply held⟩
      | flush => exact ⟨_, .acknowledge held⟩
    | none =>
      cases queued : scene.queue with
      | nil => exact absurd (by simp [requests, held, queued]) asked
      | cons request rest => exact ⟨_, .take held queued⟩

/-- How many steps the worker has left. -/
def toil (scene : Scene) : Nat := 2 * scene.queue.length + scene.hand.toList.length

theorem WorkerStep.toil (step : scene.WorkerStep after) : after.toil + 1 = scene.toil := by
  cases step with
  | take free queued => simp [Scene.toil, free, queued]; omega
  | apply taken => simp [Scene.toil, taken]
  | acknowledge taken => simp [Scene.toil, taken]

/-- Nobody waits for the worker. -/
structure Quiet (scene : Scene) : Prop where
  unasked : .flush ∉ scene.requests
  unheard : scene.acknowledged = false

/-- The caller waits for the worker, who comes to its request last, or has come to it. -/
inductive Flushing (scene : Scene) : Prop where
  | ahead {ahead : List Request} (asked : scene.requests = ahead ++ [.flush]) (unasked : .flush ∉ ahead)
    (unheard : scene.acknowledged = false)
  | told (done : scene.requests = []) (heard : scene.acknowledged = true)

theorem Quiet.worker (quiet : scene.Quiet) (step : scene.WorkerStep after) : after.Quiet := by
  obtain ⟨unasked, unheard⟩ := quiet
  cases step.serves with
  | taken same heard => exact ⟨same ▸ unasked, heard.trans unheard⟩
  | raised first heard => exact ⟨fun asked => unasked (first ▸ List.mem_cons_of_mem _ asked), heard.trans unheard⟩
  | told first => exact absurd (first ▸ List.mem_cons_self) unasked

theorem Flushing.worker (flushing : scene.Flushing) (step : scene.WorkerStep after) : after.Flushing := by
  cases flushing with
  | told done => exact absurd done (worker_step_iff.1 ⟨after, step⟩)
  | @ahead ahead asked unasked unheard =>
    cases step.serves with
    | taken same heard => exact .ahead (same.trans asked) unasked (heard.trans unheard)
    | raised first heard =>
      rw [first] at asked
      cases ahead with
      | nil => cases asked
      | cons request ahead =>
        exact .ahead (List.cons.inj asked).2 (fun later => unasked (List.mem_cons_of_mem _ later)) (heard.trans unheard)
    | told first heard =>
      rw [first] at asked
      cases ahead with
      | nil => exact .told (List.cons.inj asked).2 heard
      | cons request ahead =>
        obtain ⟨rfl, -⟩ := List.cons.inj asked
        exact absurd List.mem_cons_self unasked

/-! ### The caller -/

/-- What is left of a call comes to what the call comes to in a store that applies head updates at once. -/
structure Leads (now drained : MemoryStore) (call : Call) (rest : Program) : Prop where
  outcome : rest.outcome drained = call.serveNow now
  spares : ∀ key, Headless key now → (∀ attempt, call = .commit attempt → attempt.key ≠ key) →
    Headless key drained ∧ rest.Spares key

/-- How far the caller is, next to a store that applies head updates at once and has made the calls that are over. -/
def Phase (now : MemoryStore) (scene : Scene) : Prop :=
  match scene.caller with
  | .idle => scene.drained = now ∧ scene.Quiet
  | .running call rest => Leads now scene.drained call rest ∧
    (∃ still, rest.Careful still ∧ (still = true → scene.requests = [])) ∧ scene.Quiet
  | .waiting call rest => Leads now scene.drained call rest ∧ rest.Careful true ∧ scene.Flushing

theorem Phase.worker (phase : Phase now scene) (step : scene.WorkerStep after) : Phase now after := by
  obtain ⟨drained, caller, -, -⟩ := step.same
  rw [Phase] at phase ⊢
  rw [drained, caller]
  cases held : scene.caller with
  | idle =>
    rw [held] at phase
    obtain ⟨same, quiet⟩ := phase
    exact ⟨same, quiet.worker step⟩
  | running call rest =>
    rw [held] at phase
    obtain ⟨leads, ⟨still, careful, done⟩, quiet⟩ := phase
    exact ⟨leads, ⟨still, careful, fun calm => absurd (done calm) (worker_step_iff.1 ⟨after, step⟩)⟩, quiet.worker step⟩
  | waiting call rest =>
    rw [held] at phase
    obtain ⟨leads, careful, flushing⟩ := phase
    exact ⟨leads, careful, flushing.worker step⟩

/-- The calls that are over have been answered as by a store that applies head updates at once, and the caller is on the
way to the answer of the one that is not. -/
structure Sound (config : MemoryConfig) (scene : Scene) (now : MemoryStore) : Prop where
  prompt : Prompt config scene.history now
  own : Own scene.store
  stays : ∀ call, scene.caller.call? = some call → call ≠ .dispose
  phase : Phase now scene

theorem Sound.worker (sound : Sound config scene now) (step : scene.WorkerStep after) : Sound config after now := by
  obtain ⟨drained, caller, history, own⟩ := step.same
  exact ⟨history ▸ sound.prompt, own sound.own, caller ▸ sound.stays, sound.phase.worker step⟩

/-- A critical section sees and does the same when all that is asked for has been done. -/
theorem drained_within {change : MemoryStore → MemoryStore} {next : MemoryStore → Program} {still : Bool}
    (careful : Program.Careful still (.within change next)) (done : still = true → scene.requests = []) :
    change scene.drained = ({ scene with store := change scene.store } : Scene).drained ∧
      next scene.drained = next scene.store := by
  rcases careful.2.1 with rfl | blind
  · have requests := done rfl
    have same : ∀ store, ({ scene with store := store } : Scene).drained = store := by
      intro store
      have requests' : ({ scene with store := store } : Scene).requests = [] := requests
      rw [drained, requests']
      rfl
    have before : scene.drained = scene.store := same scene.store
    rw [before]
    exact ⟨(same (change scene.store)).symm, rfl⟩
  · exact blind _ scene.store

/-- A request that is put into the queue comes last. -/
theorem requests_push (request : Request) (caller : Caller) :
    ({ scene with queue := scene.queue ++ [request], caller } : Scene).requests = scene.requests ++ [request] :=
  (List.append_assoc ..).symm

theorem drained_push (request : Request) (caller : Caller) :
    ({ scene with queue := scene.queue ++ [request], caller } : Scene).drained =
      scene.drained.withHeads (Request.applyAll [request]) := by
  rw [drained, requests_push, drained, MemoryStore.withHeads, applyAll_append]
  rfl

theorem Leads.within {change : MemoryStore → MemoryStore} {next : MemoryStore → Program} {drained : MemoryStore}
    {call : Call} (leads : Leads now drained call (.within change next)) (own : Own drained) :
    Leads now (change drained) call (next drained) := by
  refine ⟨leads.outcome, fun key headless other => ?_⟩
  obtain ⟨absent, kept, spares⟩ := leads.spares key headless other
  exact ⟨kept drained own absent, spares drained⟩

theorem Leads.record {update : HeadUpdate} {next : Program} {drained : MemoryStore} {call : Call}
    (leads : Leads now drained call (.record update next)) : Leads now (drained.withHeads update.apply) call next := by
  refine ⟨leads.outcome, fun key headless other => ?_⟩
  obtain ⟨absent, another, spares⟩ := leads.spares key headless other
  refine ⟨fun found => ?_, spares⟩
  rcases mem_keys_apply.1 found with known | same
  · exact absent known
  · exact another same.symm

theorem Leads.flush {next : Program} {drained : MemoryStore} {call : Call}
    (leads : Leads now drained call (.flush next)) : Leads now drained call next := ⟨leads.outcome, leads.spares⟩

theorem Sound.caller (sound : Sound config scene now) (step : scene.CallerStep after) :
    ∃ later, Sound config after later := by
  obtain ⟨prompt, own, stays, phase⟩ := sound
  rw [Phase] at phase
  cases step with
  | ask idle call stays =>
    rw [idle] at phase
    obtain ⟨same, quiet⟩ := phase
    refine ⟨now, prompt, own, fun _ asked => Option.some.inj asked ▸ stays, ⟨?_, fun key headless other => ?_⟩,
      ⟨false, Program.careful_ofCall stays, nofun⟩, quiet.unasked, quiet.unheard⟩
    · exact (congrArg _ same).trans (Program.outcome_ofCall prompt.own call)
    · exact ⟨same.symm ▸ headless, Program.spares_ofCall other⟩
  | @within call change next running =>
    rw [running] at phase stays
    obtain ⟨leads, ⟨still, careful, done⟩, quiet⟩ := phase
    -- What the section sees and does now is what it would see and do once all requests are done.
    obtain ⟨changed, seen⟩ := drained_within careful done
    have onward := leads.within own
    rw [changed, seen] at onward
    exact ⟨now, prompt, careful.1 scene.store own, stays, onward, ⟨still, careful.2.2 scene.store, done⟩, quiet.unasked,
      quiet.unheard⟩
  | @record call update next running room =>
    rw [running] at phase stays
    obtain ⟨leads, ⟨still, careful, done⟩, quiet⟩ := phase
    refine ⟨now, prompt, own, stays, ?_, ⟨false, careful, nofun⟩, ?_, quiet.unheard⟩
    · rw [drained_push]
      exact leads.record
    · rw [requests_push]
      simpa using quiet.unasked
  | @flush call next running room =>
    rw [running] at phase stays
    obtain ⟨leads, ⟨still, careful, done⟩, quiet⟩ := phase
    refine ⟨now, prompt, own, stays, ?_, careful, .ahead (requests_push _ _) quiet.unasked quiet.unheard⟩
    rw [drained_push]
    exact leads.flush
  | @hear call next waiting told =>
    rw [waiting] at phase stays
    obtain ⟨leads, careful, flushing⟩ := phase
    cases flushing with
    | ahead _ _ unheard => cases unheard.symm.trans told
    | told done =>
      -- The caller has been told, so nothing it has asked for is left and it may look at heads.
      have unasked : .flush ∉ scene.requests := done ▸ List.not_mem_nil
      exact ⟨now, prompt, own, stays, leads, ⟨true, careful, fun _ => done⟩, unasked, rfl⟩
  | @answer call answer running =>
    rw [running] at phase stays
    obtain ⟨leads, -, quiet⟩ := phase
    -- The prompt store makes the call only now, in one step with the end of it here.
    have called := prompt.call call (stays call rfl)
    rw [← leads.outcome] at called
    exact ⟨scene.drained, called, own, nofun, rfl, quiet.unasked, quiet.unheard⟩

theorem Reached.sound (reached : Reached config scene) : ∃ now, Sound config scene now := by
  induction reached with
  | start => exact ⟨_, .start, rfl, nofun, rfl, List.not_mem_nil, rfl⟩
  | step _ step ih =>
    obtain ⟨now, sound⟩ := ih
    rcases step with worker | caller
    · exact ⟨now, sound.worker worker⟩
    · exact sound.caller caller

/-- An idle caller can make a commit that the store takes; then its head update is left to be queued. -/
theorem Reached.posted {attempt : Attempt} {checkpoint : Checkpoint} (reached : Reached config scene)
    (idle : scene.caller = .idle) (placed : scene.store.place attempt = .ok checkpoint) :
    Reached config { scene with
      store := scene.store.post (attempt.toCommit checkpoint)
      caller := .running (.commit attempt)
        (.record ⟨attempt.key, attempt.revision⟩ (.done (.ok (.commit (attempt.toCommit checkpoint))))) } := by
  have made := (reached.step (.inr (.ask idle (.commit attempt) nofun))).step (.inr (.within rfl))
  dsimp only at made
  rwa [placed] at made

/-! ### What nobody sees -/

/-- A caller that is in a call and can do nothing has asked for something that is not done yet. -/
theorem Blocked.asked (blocked : scene.Blocked) (phase : Phase now scene) : scene.requests ≠ [] := by
  intro nothing
  obtain ⟨busy, stuck⟩ := blocked
  have room : scene.HasRoom := by
    have empty : scene.queue = [] := (List.append_eq_nil_iff.1 nothing).2
    rw [HasRoom, empty, List.length_nil]
    omega
  rw [Phase] at phase
  cases held : scene.caller with
  | idle => exact busy held
  | running call rest =>
    cases rest with
    | done answer => exact stuck _ (.answer held)
    | within change next => exact stuck _ (.within held)
    | record update next => exact stuck _ (.record held room)
    | flush next => exact stuck _ (.flush held room)
  | waiting call rest =>
    rw [held] at phase
    cases phase.2.2 with
    | ahead asked => simp [nothing] at asked
    | told _ heard => exact stuck _ (.hear held heard)

/-- A stream without a head gets one by no other call than a commit to it. -/
theorem Phase.headless (phase : Phase now scene) (absent : Headless key now)
    (other : ∀ attempt, scene.caller.call? = some (.commit attempt) → attempt.key ≠ key) :
    Headless key scene.drained := by
  rw [Phase] at phase
  cases held : scene.caller with
  | idle =>
    rw [held] at phase
    exact phase.1.symm ▸ absent
  | running call rest | waiting call rest =>
    rw [held] at phase other
    exact (phase.1.spares key absent fun attempt same => other attempt (congrArg some same)).1

/-- What is the same whenever the worker takes its steps. -/
structure Unseen (config : MemoryConfig) (scene : Scene) : Prop where
  /-- Every answer is that of a store that applies each head update at once. -/
  prompt : scene.history.map Prod.snd = (Call.serveAllNow (scene.history.map Prod.fst) (.create config)).1
  /-- So it is that of a store in memory whose queue is worked off as late as can be. -/
  late : scene.history.map Prod.snd = (Call.serveAll (scene.history.map Prod.fst) (MemoryStore.create config)).1
  /-- While the caller is held up, the worker has a step to take. -/
  works : scene.Blocked → ∃ after, scene.WorkerStep after
  /-- The worker's steps, which come to an end, let the caller go on. -/
  frees : scene.Blocked → ∃ after, Relation.ReflTransGen WorkerStep scene after ∧ ¬ after.Blocked
  ends : ∀ after, scene.WorkerStep after → after.toil < scene.toil
  /-- A stream that has been removed has no head, and none is on its way, until it is committed to again. -/
  gone : ∀ key, scene.history.Gone key → (∀ attempt, scene.caller.call? = some (.commit attempt) → attempt.key ≠ key) →
    Headless key scene.store ∧ ∀ update, .raise update ∈ scene.requests → update.key ≠ key
  /-- Whoever asks for the head of such a stream is told that there is none. -/
  told : ∀ key before after answer, scene.history = before ++ (.head key, answer) :: after → History.Gone key before →
    answer = .ok (.head none)

theorem Reached.works (reached : Reached config scene) (blocked : scene.Blocked) : ∃ after, scene.WorkerStep after := by
  obtain ⟨now, sound⟩ := reached.sound
  exact worker_step_iff.2 (blocked.asked sound.phase)

theorem Reached.frees (reached : Reached config scene) (blocked : scene.Blocked) :
    ∃ after, Relation.ReflTransGen WorkerStep scene after ∧ ¬ after.Blocked := by
  induction left : scene.toil generalizing scene with
  | zero =>
    obtain ⟨after, step⟩ := reached.works blocked
    have fewer := step.toil
    omega
  | succ steps ih =>
    obtain ⟨after, step⟩ := reached.works blocked
    have fewer := step.toil
    by_cases still : after.Blocked
    · obtain ⟨last, others, free⟩ := ih (reached.step (.inl step)) still (by omega)
      exact ⟨last, .head step others, free⟩
    · exact ⟨after, .single step, still⟩

end Scene
end Memory

/-- Whatever is called, and whenever the worker of the heads takes its steps between and during the calls, nobody sees
that head updates are applied later. -/
theorem head_updates_unseen {config : MemoryConfig} {scene : Memory.Scene}
    (reached : Memory.Scene.Reached config scene) : scene.Unseen config := by
  obtain ⟨now, sound⟩ := reached.sound
  have run := sound.prompt.run
  refine ⟨?_, ?_, reached.works, reached.frees, fun after step => ?_, fun key gone other => ?_,
    fun key before after answer parts => ?_⟩
  · rw [run]
  · have none : Memory.Own (MemoryStore.create config) := rfl
    have atOnce := Memory.serveAllNow_agrees none (.create config) .empty (scene.history.map Prod.fst)
    have late := (MemoryStore.serveAll_agrees (.create config) .empty (scene.history.map Prod.fst)).1
    rw [late, ← atOnce, run]
  · have fewer := step.toil
    omega
  · exact Memory.Scene.headless_drained.1 (sound.phase.headless (sound.prompt.headless gone) other)
  · exact sound.prompt.unseen parts

/-- A queue with room for one update, and a worker that does nothing: the second commit is made and cannot queue its
head update. -/
theorem head_updates_unseen_while_queue_full :
    ∃ scene, Memory.Scene.Reached { headQueueBound := 1 } scene ∧ scene.Blocked ∧ scene.history.accepted.length = 1 ∧
      scene.store.feed.length = 2 ∧ scene.Unseen { headQueueBound := 1 } := by
  let first : Attempt := ⟨⟨"shop"⟩, ⟨"order"⟩, 1, ⟨"placed"⟩, 1, 0, [], [{ body := [1] }]⟩
  let second : Attempt := ⟨⟨"shop"⟩, ⟨"order"⟩, 2, ⟨"paid"⟩, 2, 0, [], [{ body := [2] }]⟩
  have placed : (MemoryStore.create { headQueueBound := 1 }).place first = .ok ⟨1⟩ := by with_unfolding_all rfl
  have another : ((MemoryStore.create { headQueueBound := 1 }).post (first.toCommit ⟨1⟩)).place second = .ok ⟨2⟩ := by
    with_unfolding_all rfl
  have posted := Memory.Scene.Reached.start.posted rfl placed
  have recorded := posted.step (.inr (.record rfl Nat.one_pos))
  have reached := (recorded.step (.inr (.answer rfl))).posted rfl another
  refine ⟨_, reached, ⟨nofun, ?_⟩, rfl, rfl, head_updates_unseen reached⟩
  intro after step
  cases step with
  | record running room => exact absurd room (Nat.lt_irrefl 1)
  | ask idle => cases idle
  | within running | flush running | hear running | answer running => cases running

end CommitLog
