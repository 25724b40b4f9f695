import CommitLog.Drill.Run
import CommitLog.Proofs.Poller.Course

/-!
Polls one after another, as they are seen from outside (`PollReport`). Each poll works on what its fetch makes
of the checkpoint that the worker has reached (`Worker.pollAll`). A drill is such a run
(`Drill.Progress.follow_polls`).
-/

namespace CommitLog.Poller

/-- A poll as it was watched. -/
structure PollReport where
  /-- The checkpoint after which the feed was opened. -/
  start : Checkpoint
  shown : List FeedItem
  visits : List Visit
  outcome : Outcome
  /-- What the poller showed when the poll was over. -/
  status : Status

namespace PollReport

/-- The commits that the feed showed. -/
def offered (report : PollReport) : List Checkpoint := Poller.offered report.shown

/-- The commits that the handler moved on from. -/
def accepted (report : PollReport) : List Checkpoint := Poller.accepted report.visits

/-- The feed ascended from where it was opened. -/
def Ascending (report : PollReport) : Prop := (report.start :: report.offered).Pairwise (· < ·)

instance (report : PollReport) : Decidable report.Ascending :=
  inferInstanceAs (Decidable (List.Pairwise _ _))

end PollReport

variable {φ : Type} [Intake φ]

namespace Worker

/-- Polls what a fetch makes of the checkpoint that the sequencer has reached. -/
def observe (fetch : Checkpoint → φ) (worker : Worker) : PollReport × Worker :=
  let start := worker.sequencer.lastRead
  let (outcome, onward, recorded) := worker.poll ({ intake := fetch start } : Recorded φ)
  (⟨start, recorded.shown, recorded.visits, outcome, onward.status⟩, onward)

/-- Polls with one fetch after another, until the worker comes to its end. -/
def pollAll : List (Checkpoint → φ) → Worker → List PollReport
  | [], _ => []
  | fetch :: fetches, worker =>
    let (report, onward) := worker.observe fetch
    report :: if report.outcome.isFinal then [] else pollAll fetches onward

/-- A poll is a course from the worker's place, and shows where it has ended. -/
theorem observe_course (fetch : Checkpoint → φ) {worker : Worker} (inStep : worker.InStep) :
    let (report, onward) := worker.observe fetch
    Course report.start report.shown report.visits report.outcome report.status.checkpoint ∧
      report.start = worker.sequencer.lastRead ∧ onward.InStep ∧
      onward.sequencer.lastRead = report.status.checkpoint := by
  have touched : worker.touch.InStep := inStep
  obtain ⟨kept, items, visits, shown, called, course⟩ :=
    drain_course worker.touch ({ intake := fetch worker.sequencer.lastRead } : Recorded φ) touched
  refine ⟨?_, rfl, kept, kept.symm⟩
  show Course worker.sequencer.lastRead _ _ _ (worker.touch.drain _).2.1.status.checkpoint
  rw [kept]
  dsimp only [observe, poll]
  rw [shown, called]
  exact course

/-- Evaluates polls of which each meets fewer than so many commits. -/
def pollAllWithin (fuel : Nat) : List (Checkpoint → φ) → Worker → Option (List PollReport)
  | [], _ => some []
  | fetch :: fetches, worker =>
    let start := worker.sequencer.lastRead
    match worker.touch.drainWithin fuel ({ intake := fetch start } : Recorded φ) with
    | none => none
    | some (outcome, onward, recorded) =>
      let report : PollReport := ⟨start, recorded.shown, recorded.visits, outcome, onward.status⟩
      if outcome.isFinal then some [report] else (pollAllWithin fuel fetches onward).map (report :: ·)

theorem pollAll_of_within {fuel : Nat} {fetches : List (Checkpoint → φ)} {worker : Worker} {reports : List PollReport}
    (evaluated : worker.pollAllWithin fuel fetches = some reports) : worker.pollAll fetches = reports := by
  induction fetches generalizing worker reports with
  | nil => exact Option.some.inj evaluated
  | cons fetch fetches ih =>
    rw [pollAllWithin] at evaluated
    split at evaluated
    · cases evaluated
    next outcome onward recorded drained =>
    rw [pollAll, observe, poll, drain_of_within drained]
    dsimp only at evaluated ⊢
    split at evaluated
    · next final =>
      rw [if_pos final]
      exact Option.some.inj evaluated
    · next goes =>
      obtain ⟨later, polled, rfl⟩ := Option.map_eq_some_iff.1 evaluated
      rw [if_neg goes, ih polled]

end Worker

end CommitLog.Poller

/-! ### Drills -/

namespace CommitLog.Drill

open Poller

variable {σ ρ : Type} [CommitStore σ]

/-- The handler's reply that an action comes to. -/
def Action.toReply : Action → Option Reply
  | .reply answer => some answer
  | .stopPoller | .pollNow | .commit _ | .block => some .moveToNext
  | .breakOff => none

/-- The calls of the handler in a fetch. -/
def visits (calls : List (Checkpoint × Action)) : List Visit :=
  calls.map fun (checkpoint, action) => ⟨checkpoint, action.toReply⟩

/-- A fetch that a plan opens after a checkpoint. -/
def Stage.opened (fetch : Fetch) (store : Subject σ ρ) (answers : List Action) (place : Checkpoint) : Stage σ ρ :=
  let planned := store.beneath fun store => { store with plan := some fetch }
  match CommitStore.openFeed .all place planned with
  | (.error error, store) => { supply := .refused error, store, answers }
  | (.ok feed, store) => { supply := .flowing feed, store, answers }

theorem Stage.calls_opened (fetch : Fetch) (store : Subject σ ρ) (answers : List Action) (place : Checkpoint) :
    (Stage.opened fetch store answers place).calls = [] := by
  unfold Stage.opened
  dsimp only
  split <;> rfl

/-- What is seen of a fetch and of a poll: where it began, and the calls of the handler. -/
def FetchReport.watched (report : FetchReport) : Checkpoint × List Visit := (report.start, visits report.calls)

/-- A fetch polls what its plan opens. -/
theorem Progress.fetch_eq (fetch : Fetch) (progress : Progress σ ρ) :
    let polled := progress.worker.poll
      (Stage.opened fetch progress.store progress.answers progress.worker.sequencer.lastRead)
    (progress.fetch fetch).1 = polled.1 ∧ (progress.fetch fetch).2.worker = polled.2.1 ∧
      (progress.fetch fetch).2.fetches = progress.fetches ++ [progress.report polled.2.2.calls] := by
  cases opened : CommitStore.openFeed .all progress.worker.sequencer.lastRead
      (progress.store.beneath fun store => { store with plan := some fetch }) with
  | mk feed store => cases feed <;> simp [Progress.fetch, Progress.supply, Stage.opened, opened]

/-- The calls that a fetch reports are those that are recorded. -/
theorem Stage.calls_drain (worker : Worker) (recorded : Recorded (Stage σ ρ))
    (same : visits recorded.intake.calls = recorded.visits) :
    visits (worker.drain recorded).2.2.intake.calls = (worker.drain recorded).2.2.visits := by
  refine Worker.drain_keeps (motive := fun recorded : Recorded (Stage σ ρ) =>
    visits recorded.intake.calls = recorded.visits) ?_ ?_ worker recorded same
  · intro recorded same
    have kept : (Stage.next recorded.intake).2.calls = recorded.intake.calls := by
      unfold Stage.next
      split <;> rfl
    show visits (Stage.next recorded.intake).2.calls = recorded.visits
    rw [kept, same]
  · intro commit status recorded same
    have called : visits (Stage.handle commit status recorded.intake).2.calls = visits recorded.intake.calls ++
        [⟨commit.checkpoint, (Stage.handle commit status recorded.intake).1⟩] := by
      unfold Stage.handle
      split
      · simp [visits, Action.toReply]
      · next action answers _ => cases action <;> simp [visits, Stage.act, Action.toReply]
    show visits (Stage.handle commit status recorded.intake).2.calls = recorded.visits ++ _
    rw [called, same]
    rfl

theorem Progress.fetch_observe (fetch : Fetch) (progress : Progress σ ρ) :
    let observed := progress.worker.observe (Stage.opened fetch progress.store progress.answers)
    (progress.fetch fetch).1 = observed.1.outcome ∧ (progress.fetch fetch).2.worker = observed.2 ∧
      (progress.fetch fetch).2.fetches.map FetchReport.watched =
        progress.fetches.map FetchReport.watched ++ [(observed.1.start, observed.1.visits)] := by
  obtain ⟨outcome, worker, fetches⟩ := progress.fetch_eq fetch
  generalize opens : Stage.opened fetch progress.store progress.answers progress.worker.sequencer.lastRead = stage
  rw [opens] at outcome worker fetches
  have none : stage.calls = [] := by rw [← opens, Stage.calls_opened]
  have same := drain_recorded progress.worker.touch ({ intake := stage } : Recorded (Stage σ ρ))
  have calls := Stage.calls_drain progress.worker.touch ({ intake := stage } : Recorded (Stage σ ρ)) (by rw [none]; rfl)
  rw [Worker.poll, same] at outcome worker fetches
  dsimp only [Worker.observe, Worker.poll]
  rw [opens]
  refine ⟨outcome, worker, ?_⟩
  rw [fetches, List.map_append]
  simp only [List.map_cons, List.map_nil, FetchReport.watched, Progress.report]
  rw [calls]

/-- A drill is a run of polls, after which the worker may be waiting for one more of which nothing comes. -/
theorem Progress.follow_polls (config : PollerConfig) (fetches : List Fetch) (progress : Progress σ ρ) :
    ∃ (polls : List (Checkpoint → Stage σ ρ)) (idle : List (Checkpoint × List Visit)),
      (∀ seen ∈ idle, seen.2 = []) ∧
      (progress.follow config fetches).1.fetches.map FetchReport.watched =
        progress.fetches.map FetchReport.watched ++
          ((progress.worker.pollAll polls).map fun report => (report.start, report.visits)) ++ idle := by
  induction fetches generalizing progress with
  | nil => exact ⟨[], [(progress.worker.sequencer.lastRead, [])], by simp, by simp [follow, Worker.pollAll,
      FetchReport.watched, visits, Progress.report]⟩
  | cons fetch fetches ih =>
    obtain ⟨outcome, worker, watched⟩ := progress.fetch_observe fetch
    -- A fetch that is the last.
    have ends : ∃ (polls : List (Checkpoint → Stage σ ρ)) (idle : List (Checkpoint × List Visit)),
        (∀ seen ∈ idle, seen.2 = []) ∧ (progress.fetch fetch).2.fetches.map FetchReport.watched =
          progress.fetches.map FetchReport.watched ++
            ((progress.worker.pollAll polls).map fun report => (report.start, report.visits)) ++ idle := by
      refine ⟨[Stage.opened fetch progress.store progress.answers], [], by simp, ?_⟩
      rw [watched, List.append_nil, Worker.pollAll]
      simp [Worker.pollAll]
    rw [follow]
    split
    · next broken =>
      rw [broken] at ends
      exact ends
    next result after notBroken fetched =>
    rw [fetched] at ends outcome worker watched
    split
    · exact ends
    next goes =>
    obtain ⟨polls, idle, nothing, rest⟩ := ih after
    refine ⟨Stage.opened fetch progress.store progress.answers :: polls, idle, nothing, ?_⟩
    have onward : ¬ (progress.worker.observe (Stage.opened fetch progress.store progress.answers)).1.outcome.isFinal := by
      rw [← outcome]
      cases result with
      | broken => exact absurd rfl notBroken
      | stopped => simp at goes
      | drained | retry | failed => simp [Outcome.isFinal]
    rw [rest, watched, Worker.pollAll, worker]
    dsimp only
    rw [if_neg onward, List.map_cons, List.append_assoc (progress.fetches.map FetchReport.watched)]
    rfl

end CommitLog.Drill
