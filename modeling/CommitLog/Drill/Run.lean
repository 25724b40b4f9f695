import CommitLog.Drill.Faults
import CommitLog.Hooked
import CommitLog.Poller.Worker

/-!
Drills: a poller is run on a store with the course of every fetch and every answer of the handler
given beforehand. The clock stands still. The report says what each fetch began with and what was
delivered in it, and how the poller ended.
-/

namespace CommitLog

namespace Drill

open Poller

/-- What the handler does with a commit. All but the first and `breakOff` move to the next. -/
inductive Action where
  | reply (reply : Reply)
  /-- Tells the poller to stop. -/
  | stopPoller
  /-- Asks for a poll at once, of which nothing comes while one is in progress. -/
  | pollNow
  /-- Others commit meanwhile, behind the hooks. -/
  | commit (attempts : List Attempt)
  /-- The handler breaks off, and the worker with it. -/
  | breakOff
  /-- Stays until the poller has given up waiting to be disposed. -/
  | block

structure FetchReport where
  start : Checkpoint
  /-- What the poller showed when the fetch began. -/
  status : Status
  calls : List (Checkpoint × Action)

inductive Ending where
  /-- Nothing is left of the plan. -/
  | exhausted
  | stopped
  | blocked
  | broken
  deriving DecidableEq, Repr

structure Report where
  fetches : List FetchReport
  ending : Ending
  /-- What the poller showed before it was disposed, or after if it broke off. -/
  status : Status
  dispose : Except Error Unit
  disposeAgain : Except Error Unit := .ok ()
  after : Status
  logged : List LogEntry

/-! ## A fetch -/

/-- What a drill is run on: a store with planned faults, behind hooks. -/
abbrev Subject (σ ρ : Type) : Type := Hooked (Faulty σ) ρ

/-- What is left of the feed. -/
inductive Supply (σ ρ : Type) [CommitStore σ] where
  | refused (error : Error)
  | flowing (feed : CommitStore.Feed (Subject σ ρ))
  | over

/-- A fetch in progress. -/
structure Stage (σ ρ : Type) [CommitStore σ] where
  supply : Supply σ ρ
  store : Subject σ ρ
  answers : List Action
  calls : List (Checkpoint × Action) := []
  stopRequested : Bool := false
  /-- What the poller showed while the handler blocked it. -/
  blocked : Option Status := none

namespace Stage

variable {σ ρ : Type} [CommitStore σ]

def next (stage : Stage σ ρ) : Option FeedItem × Stage σ ρ :=
  match stage.supply with
  | .refused error => (some (.error error), { stage with supply := .over })
  | .flowing feed =>
    let (item, feed, store) := CommitStore.next feed stage.store
    (item, { stage with supply := .flowing feed, store })
  | .over => (none, stage)

/-- What becomes of a commit that is delivered. -/
def act (action : Action) (status : Status) (stage : Stage σ ρ) : Option Reply × Stage σ ρ :=
  match action with
  | .reply reply => (some reply, stage)
  | .stopPoller => (some .moveToNext, { stage with stopRequested := true })
  | .pollNow => (some .moveToNext, stage)
  | .commit attempts =>
    (some .moveToNext,
      { stage with store := stage.store.beneath (CommitStore.commitAll attempts) })
  | .breakOff => (none, stage)
  | .block => (some .moveToNext, { stage with stopRequested := true, blocked := some status })

def handle (commit : Commit) (status : Status) (stage : Stage σ ρ) : Option Reply × Stage σ ρ :=
  match stage.answers with
  | [] =>
    (some .moveToNext,
      { stage with calls := stage.calls ++ [(commit.checkpoint, .reply .moveToNext)] })
  | action :: answers =>
    act action status
      { stage with answers, calls := stage.calls ++ [(commit.checkpoint, action)] }

/-- Answers that are left, and what is left of the feed. -/
def size (stage : Stage σ ρ) : Nat × (Nat × Nat) :=
  (stage.answers.length,
    match stage.supply with
    | .refused _ => (0, 1)
    | .flowing feed => CommitStore.remaining feed stage.store
    | .over => (0, 0))

abbrev Below : Nat × (Nat × Nat) → Nat × (Nat × Nat) → Prop := Prod.Lex (· < ·) Remaining.Below

theorem size_next {stage rest : Stage σ ρ} {item : FeedItem} (h : next stage = (some item, rest)) :
    rest.answers = stage.answers ∧ Remaining.Below rest.size.2 stage.size.2 := by
  unfold next at h
  split at h
  · next refused =>
    cases h
    simp only [size, refused, true_and]
    exact .right _ Nat.zero_lt_one
  · next flowing =>
    simp only [Prod.mk.injEq] at h
    obtain ⟨found, rfl⟩ := h
    simp only [size, flowing, true_and]
    exact CommitStore.remaining_next (Prod.ext found rfl)
  · simp at h

theorem answers_act (action : Action) (status : Status) (stage : Stage σ ρ) :
    (act action status stage).2.answers = stage.answers := by
  cases action <;> rfl

theorem size_handle {stage after : Stage σ ρ} {commit : Commit} {status : Status}
    {reply : Option Reply} (h : handle commit status stage = (reply, after)) :
    after.answers.length < stage.answers.length ∨ after.size = stage.size := by
  unfold handle at h
  split at h
  · cases h
    exact .inr rfl
  · next action answers found =>
    refine .inl ?_
    have kept := congrArg (fun out => out.2.answers) h
    simp only [answers_act] at kept
    simp [← kept, found]

end Stage

instance {σ ρ : Type} [CommitStore σ] : Intake (Stage σ ρ) where
  rel a b := Stage.Below a.size b.size
  wf := InvImage.wf Stage.size (Prod.lex Nat.lt_wfRel (Prod.lex Nat.lt_wfRel Nat.lt_wfRel)).wf
  clock _ := 0
  next := Stage.next
  stopRequested stage := stage.stopRequested
  handle := Stage.handle
  rel_next := by
    intro stage item rest h
    obtain ⟨same, less⟩ := Stage.size_next h
    exact Prod.lex_def.2 (.inr ⟨by simp [Stage.size, same], less⟩)
  rel_handle := by
    intro stage item rest commit status reply after h handled
    obtain ⟨same, less⟩ := Stage.size_next h
    rcases Stage.size_handle handled with fewer | unchanged
    · exact .left _ _ (same ▸ fewer)
    · rw [unchanged]
      exact Prod.lex_def.2 (.inr ⟨by simp [Stage.size, same], less⟩)

/-! ## The whole drill -/

/-- A drill between two fetches. -/
structure Progress (σ ρ : Type) where
  worker : Worker
  store : Subject σ ρ
  answers : List Action
  stopRequested : Bool := false
  blocked : Option Status := none
  fetches : List FetchReport := []

namespace Progress

variable {σ ρ : Type} [CommitStore σ]

/-- What a fetch would report now. -/
def report (progress : Progress σ ρ) (calls : List (Checkpoint × Action)) :
    FetchReport :=
  ⟨progress.worker.sequencer.lastRead, progress.worker.touch.status, calls⟩

/-- Opens the feed under a plan. -/
def supply (fetch : Fetch) (progress : Progress σ ρ) :
    Supply σ ρ × Subject σ ρ :=
  let planned := progress.store.beneath fun store => { store with plan := some fetch }
  match CommitStore.openFeed .all progress.worker.sequencer.lastRead planned with
  | (.error error, store) => (.refused error, store)
  | (.ok feed, store) => (.flowing feed, store)

/-- Polls once. -/
def fetch (fetch : Fetch) (progress : Progress σ ρ) :
    Outcome × Progress σ ρ :=
  let (supply, store) := progress.supply fetch
  let (outcome, worker, stage) := progress.worker.poll
    ({ supply, store, answers := progress.answers } : Stage σ ρ)
  (outcome, {
    worker
    store := stage.store.beneath fun store => { store with plan := none }
    answers := stage.answers
    stopRequested := stage.stopRequested
    blocked := stage.blocked
    fetches := progress.fetches ++ [progress.report stage.calls] })

/-- Polls until the plan is through or the worker has come to an end. -/
def follow (config : PollerConfig) :
    List Fetch → Progress σ ρ → Report × Subject σ ρ
  | [], progress =>
    let idle := progress.worker.touch
    ({ fetches := progress.fetches ++ [progress.report []]
       ending := .exhausted
       status := idle.status
       dispose := dispose config false
       after := idle.clearError.finish.status
       logged := idle.log }, progress.store)
  | fetch :: fetches, progress =>
    match progress.fetch fetch with
    | (.broken, progress) =>
      ({ fetches := progress.fetches
         ending := .broken
         status := progress.worker.status
         dispose := dispose config false
         after := progress.worker.status
         logged := progress.worker.log }, progress.store)
    | (outcome, progress) =>
      if outcome = .stopped ∨ progress.stopRequested then
        let ended := progress.worker.finish.status
        ({ fetches := progress.fetches
           ending := if progress.blocked.isSome then .blocked else .stopped
           status := progress.blocked.getD ended
           dispose := dispose config progress.blocked.isSome
           after := ended
           logged := progress.worker.log }, progress.store)
      else follow config fetches progress

end Progress

end Drill

/-- A poller and the course it is run on. -/
structure Drill where
  start : Checkpoint
  config : PollerConfig
  fetches : List Drill.Fetch
  /-- Answers in the order of the deliveries; after the last, all are moves. -/
  answers : List Drill.Action

namespace Drill

/-- Runs the poller as planned. -/
def run {σ ρ : Type} [CommitStore σ] (drill : Drill) (store : Subject σ ρ) :
    Report × Subject σ ρ :=
  Progress.follow drill.config drill.fetches
    { worker := Poller.Worker.create drill.start drill.config, store, answers := drill.answers }

end Drill
end CommitLog
