import CommitLog.Poller.Worker

/-!
How a poll goes. A poll is watched by giving it an intake that keeps a record (`Recorded`), which makes no
difference to it (`drain_recorded`). The record of every poll is a `Course`: the worker goes through the
items it is shown one by one, and its place in the feed moves with each commit that is accepted.
-/

namespace CommitLog

/-! ### Offers -/

namespace Sequencer

/-- An offer leaves the place alone, and is skipped exactly if the place is at or beyond it. -/
theorem offer_cases {sequencer after : Sequencer} {checkpoint : Checkpoint} {now : Nat} {decision : Decision}
    (offered : sequencer.offer checkpoint now = .ok (decision, after)) :
    after.lastRead = sequencer.lastRead ∧ (decision = .skip ↔ checkpoint ≤ sequencer.lastRead) := by
  unfold offer at offered
  simp only [bind, Except.bind, pure, Except.pure] at offered
  split at offered
  · next behind =>
    cases offered
    exact ⟨rfl, iff_of_true rfl behind⟩
  next ahead =>
  repeat' split at offered
  all_goals first | contradiction | skip
  all_goals
    cases offered
    exact ⟨rfl, iff_of_false (by simp) ahead⟩

/-- A commit that is moved on from is the new place, if it lies ahead. -/
theorem lastRead_settle {sequencer : Sequencer} {checkpoint : Checkpoint} (ahead : sequencer.lastRead < checkpoint) :
    (sequencer.settle checkpoint .moveToNext).lastRead = checkpoint :=
  if_pos (Checkpoint.le_of_lt ahead)

theorem settle_of_stay {reply : Reply} (stays : reply ≠ .moveToNext) (checkpoint : Checkpoint) (sequencer : Sequencer) :
    sequencer.settle checkpoint reply = sequencer := by
  cases reply with
  | moveToNext => exact absurd rfl stays
  | retry | stop => rfl

end Sequencer

namespace Poller

variable {φ : Type} [Intake φ]

/-! ### One commit after another -/

namespace Worker

/-- What becomes of one commit: the way in which the poll ends there, if it does. -/
def meet (commit : Commit) (worker : Worker) (rest : φ) : Option Outcome × Worker × φ :=
  let worker := worker.clearError
  if Intake.stopRequested rest then (some .stopped, worker, rest)
  else
    match worker.sequencer.offer commit.checkpoint (Intake.clock rest) with
    | .error _ => (some .broken, worker, rest)
    | .ok (.skip, sequencer) => (none, { worker with sequencer }.advance, rest)
    | .ok (.hold, sequencer) => (some .retry, { worker with sequencer }, rest)
    | .ok (.deliver, sequencer) =>
      match Intake.handle commit worker.status rest with
      | (none, after) => (some .broken, { worker with sequencer }, after)
      | (some reply, after) =>
        let worker := { worker with sequencer := sequencer.settle commit.checkpoint reply }
        match reply with
        | .moveToNext => (none, worker.advance, after)
        | .retry => (some .retry, worker, after)
        | .stop => (some .stopped, worker, after)

/-- A poll meets one commit after another. -/
theorem drain_eq (worker : Worker) (intake : φ) :
    worker.drain intake =
      match Intake.next intake with
      | (none, rest) => (.drained, worker.clearError, rest)
      | (some (.error error), rest) => (.failed, worker.fail error (Intake.clock rest), rest)
      | (some (.ok commit), rest) =>
        match worker.meet commit rest with
        | (some outcome, worker, after) => (outcome, worker, after)
        | (none, worker, after) => worker.drain after := by
  rw [drain]
  split
  · next found => rw [found]
  · next found => rw [found]
  next commit rest found =>
  rw [found]
  dsimp only
  split
  · next stop => simp [meet, stop]
  next go =>
  split
  · next offered => simp [meet, go, offered]
  · next offered => simp [meet, go, offered]
  · next offered => simp [meet, go, offered]
  next offered =>
  split
  · next handled => simp [meet, go, offered, handled]
  · next reply after handled => cases reply <;> simp [meet, go, offered, handled]

/-- A commit that the poll goes on from leaves less to be taken in. -/
theorem meet_rel {worker onward : Worker} {intake rest after : φ} {commit : Commit}
    (found : Intake.next intake = (some (.ok commit), rest)) (met : worker.meet commit rest = (none, onward, after)) :
    WellFoundedRelation.rel after intake := by
  dsimp only [meet] at met
  repeat' split at met
  all_goals cases met
  · exact Intake.rel_next found
  · exact Intake.rel_handle found ‹_›

/-- What holds of a poll if it holds of the polls that begin after its first commit holds of every poll. -/
theorem drain_induct {motive : Worker → φ → Prop}
    (step : ∀ worker intake, (∀ commit rest onward after, Intake.next intake = (some (.ok commit), rest) →
      worker.meet commit rest = (none, onward, after) → motive onward after) → motive worker intake)
    (worker : Worker) (intake : φ) : motive worker intake := by
  have founded : WellFounded (WellFoundedRelation.rel (α := φ)) := WellFoundedRelation.wf
  induction intake using founded.induction generalizing worker with
  | h intake ih => exact step worker intake fun commit rest onward after found met => ih after (meet_rel found met) onward

/-- A poll keeps what every step of its intake keeps. -/
theorem drain_keeps {motive : φ → Prop} (next : ∀ intake, motive intake → motive (Intake.next intake).2)
    (handle : ∀ commit status intake, motive intake → motive (Intake.handle commit status intake).2)
    (worker : Worker) (intake : φ) (kept : motive intake) : motive (worker.drain intake).2.2 := by
  have meets : ∀ commit (worker : Worker) intake, motive intake → motive (worker.meet commit intake).2.2 := by
    intro commit worker intake kept
    have handled := handle commit worker.clearError.status intake kept
    dsimp only [meet]
    repeat' split
    all_goals first
      | exact kept
      | rwa [‹Intake.handle commit _ intake = _›] at handled
  induction worker, intake using drain_induct with
  | step worker intake ih =>
    have taken := next intake kept
    rw [drain_eq]
    cases found : Intake.next intake with
    | mk item rest =>
      rw [found] at taken
      rcases item with _ | error | commit
      · exact taken
      · exact taken
      · have onward := meets commit worker rest taken
        dsimp only
        cases met : worker.meet commit rest with
        | mk ended after =>
          rw [met] at onward
          cases ended with
          | some => exact onward
          | none => exact ih commit rest after.1 after.2 found met onward

/-- Evaluates a poll that meets fewer than so many commits. -/
def drainWithin : Nat → Worker → φ → Option (Outcome × Worker × φ)
  | 0, _, _ => none
  | fuel + 1, worker, intake =>
    match Intake.next intake with
    | (none, rest) => some (.drained, worker.clearError, rest)
    | (some (.error error), rest) => some (.failed, worker.fail error (Intake.clock rest), rest)
    | (some (.ok commit), rest) =>
      match worker.meet commit rest with
      | (some outcome, worker, after) => some (outcome, worker, after)
      | (none, worker, after) => drainWithin fuel worker after

theorem drain_of_within {fuel : Nat} {worker : Worker} {intake : φ} {result : Outcome × Worker × φ}
    (evaluated : worker.drainWithin fuel intake = some result) : worker.drain intake = result := by
  induction fuel generalizing worker intake with
  | zero => cases evaluated
  | succ fuel ih =>
    rw [drain_eq]
    rw [drainWithin] at evaluated
    split at evaluated
    · exact Option.some.inj evaluated
    · exact Option.some.inj evaluated
    split at evaluated
    · exact Option.some.inj evaluated
    · exact ih evaluated

end Worker

/-! ### Records -/

/-- A call of the handler. -/
structure Visit where
  checkpoint : Checkpoint
  /-- None if the handler broke off. -/
  reply : Option Reply
  deriving DecidableEq

/-- An intake that keeps a record of what was taken from it and of the calls of its handler. -/
structure Recorded (φ : Type) where
  intake : φ
  shown : List FeedItem := []
  visits : List Visit := []

namespace Recorded

def next (recorded : Recorded φ) : Option FeedItem × Recorded φ :=
  let (item, intake) := Intake.next recorded.intake
  (item, { recorded with intake, shown := recorded.shown ++ item.toList })

def handle (commit : Commit) (status : Status) (recorded : Recorded φ) : Option Reply × Recorded φ :=
  let (reply, intake) := Intake.handle commit status recorded.intake
  (reply, { recorded with intake, visits := recorded.visits ++ [⟨commit.checkpoint, reply⟩] })

theorem next_eq {recorded after : Recorded φ} {item : Option FeedItem} (taken : recorded.next = (item, after)) :
    Intake.next recorded.intake = (item, after.intake) ∧ after.shown = recorded.shown ++ item.toList ∧
      after.visits = recorded.visits := by
  cases taken
  exact ⟨rfl, rfl, rfl⟩

theorem handle_eq {recorded after : Recorded φ} {commit : Commit} {status : Status} {reply : Option Reply}
    (handled : recorded.handle commit status = (reply, after)) :
    Intake.handle commit status recorded.intake = (reply, after.intake) ∧ after.shown = recorded.shown ∧
      after.visits = recorded.visits ++ [⟨commit.checkpoint, reply⟩] := by
  cases handled
  exact ⟨rfl, rfl, rfl⟩

end Recorded

instance : Intake (Recorded φ) where
  rel a b := WellFoundedRelation.rel a.intake b.intake
  wf := InvImage.wf Recorded.intake WellFoundedRelation.wf
  clock recorded := Intake.clock recorded.intake
  next := Recorded.next
  stopRequested recorded := Intake.stopRequested recorded.intake
  handle := Recorded.handle
  rel_next taken := Intake.rel_next (Recorded.next_eq taken).1
  rel_handle := by
    intro recorded item rest commit status reply after taken handled
    exact Intake.rel_handle (Recorded.next_eq taken).1 (Recorded.handle_eq handled).1

theorem meet_recorded (commit : Commit) (worker : Worker) (recorded : Recorded φ) :
    worker.meet commit recorded.intake =
      ((worker.meet commit recorded).1, (worker.meet commit recorded).2.1, (worker.meet commit recorded).2.2.intake) := by
  have stops : Intake.stopRequested recorded = Intake.stopRequested recorded.intake := rfl
  have clocks : Intake.clock recorded = Intake.clock recorded.intake := rfl
  have handles : ∀ status, Intake.handle commit status recorded = recorded.handle commit status := fun _ => rfl
  simp only [Worker.meet, stops, clocks, handles]
  split
  · rfl
  split
  · rfl
  · rfl
  · rfl
  rw [Recorded.handle]
  generalize Intake.handle commit worker.clearError.status recorded.intake = handled
  obtain ⟨reply, after⟩ := handled
  cases reply with
  | none => rfl
  | some reply => cases reply <;> rfl

/-- It makes no difference to a poll that it is recorded. -/
theorem drain_recorded (worker : Worker) (recorded : Recorded φ) :
    worker.drain recorded.intake =
      ((worker.drain recorded).1, (worker.drain recorded).2.1, (worker.drain recorded).2.2.intake) := by
  induction worker, recorded using Worker.drain_induct with
  | step worker recorded ih =>
    rw [Worker.drain_eq worker recorded.intake, Worker.drain_eq worker recorded]
    cases taken : Intake.next recorded with
    | mk item rest =>
      rw [(Recorded.next_eq taken).1]
      cases item with
      | none => rfl
      | some item =>
        cases item with
        | error => rfl
        | ok commit =>
          dsimp only
          rw [meet_recorded]
          cases met : worker.meet commit rest with
          | mk ended onward =>
            cases ended with
            | some => rfl
            | none => exact ih commit rest onward.1 onward.2 taken met

/-! ### Courses -/

/-- The checkpoints of the commits among the items of a feed. -/
def offered (items : List FeedItem) : List Checkpoint :=
  items.filterMap fun item => item.toOption.map Commit.checkpoint

/-- The checkpoints of the commits that the handler has moved on from. -/
def accepted (visits : List Visit) : List Checkpoint :=
  (visits.filter fun visit => visit.reply = some .moveToNext).map Visit.checkpoint

/-- How a poll goes from a place in the feed: the items it is shown, the calls of the handler, how it ends,
and the place where it ends. -/
inductive Course : Checkpoint → List FeedItem → List Visit → Outcome → Checkpoint → Prop where
  | drained (place : Checkpoint) : Course place [] [] .drained place
  | failed (place : Checkpoint) (error : Error) : Course place [.error error] [] .failed place
  /-- A commit at or behind the place is passed over. -/
  | passed {place last : Checkpoint} {commit : Commit} {items : List FeedItem} {visits : List Visit} {outcome : Outcome}
    (behind : commit.checkpoint ≤ place) (rest : Course place items visits outcome last) :
    Course place (.ok commit :: items) visits outcome last
  /-- A commit that the handler moves on from is the next place. -/
  | accepted {place last : Checkpoint} {commit : Commit} {items : List FeedItem} {visits : List Visit}
    {outcome : Outcome} (ahead : place < commit.checkpoint)
    (rest : Course commit.checkpoint items visits outcome last) :
    Course place (.ok commit :: items) (⟨commit.checkpoint, some .moveToNext⟩ :: visits) outcome last
  /-- The poll ends before the handler is called. -/
  | withheld {place : Checkpoint} {commit : Commit} {outcome : Outcome}
    (early : outcome ≠ .drained ∧ outcome ≠ .failed) : Course place [.ok commit] [] outcome place
  /-- The handler does not let the poll go on. -/
  | refused {place : Checkpoint} {commit : Commit} {reply : Option Reply} {outcome : Outcome}
    (ahead : place < commit.checkpoint) (stays : reply ≠ some .moveToNext)
    (early : outcome ≠ .drained ∧ outcome ≠ .failed) (again : outcome = .retry ↔ reply = some .retry) :
    Course place [.ok commit] [⟨commit.checkpoint, reply⟩] outcome place

theorem Course.onward {place onward last : Checkpoint} {items : List FeedItem} {visits : List Visit} {outcome : Outcome}
    (course : Course place items visits outcome last) (same : place = onward) :
    Course onward items visits outcome last := by
  rwa [← same]

theorem Course.ends {place last ending : Checkpoint} {items : List FeedItem} {visits : List Visit} {outcome : Outcome}
    (same : ending = last) (course : Course place items visits outcome last) :
    Course place items visits outcome ending := by
  rwa [same]

/-- A worker shows the place that its sequencer has reached. -/
def Worker.InStep (worker : Worker) : Prop := worker.status.checkpoint = worker.sequencer.lastRead

/-- What a poll makes of a commit: it goes on from a further place or the same, or the commit is its last. -/
theorem meet_course {worker onward : Worker} {recorded after : Recorded φ} {commit : Commit} {ended : Option Outcome}
    (inStep : worker.InStep) (met : worker.meet commit recorded = (ended, onward, after)) :
    onward.InStep ∧ after.shown = recorded.shown ∧ ∃ visits, after.visits = recorded.visits ++ visits ∧
      match ended with
      | some outcome => Course worker.sequencer.lastRead [.ok commit] visits outcome onward.sequencer.lastRead
      | none => ∀ items later outcome last, Course onward.sequencer.lastRead items later outcome last →
          Course worker.sequencer.lastRead (.ok commit :: items) (visits ++ later) outcome last := by
  dsimp only [Worker.meet] at met
  have kept : worker.clearError.InStep := inStep
  split at met
  · cases met
    exact ⟨kept, rfl, [], by simp, .withheld (by decide)⟩
  split at met
  · cases met
    exact ⟨kept, rfl, [], by simp, .withheld (by decide)⟩
  · next sequencer skipped =>
    obtain ⟨same, behind⟩ := Sequencer.offer_cases skipped
    cases met
    exact ⟨rfl, rfl, [], by simp, fun items later outcome last rest => .passed (behind.1 rfl) (rest.onward same)⟩
  · next sequencer held =>
    obtain ⟨same, -⟩ := Sequencer.offer_cases held
    cases met
    exact ⟨kept.trans same.symm, rfl, [], by simp, Course.ends same (.withheld (by decide))⟩
  next sequencer delivered =>
  obtain ⟨same, skips⟩ := Sequencer.offer_cases delivered
  have ahead : worker.sequencer.lastRead < commit.checkpoint :=
    Checkpoint.not_le.1 fun behind => by simpa using skips.2 behind
  split at met
  · next broken handled =>
    obtain ⟨-, shown, visits⟩ := Recorded.handle_eq handled
    cases met
    exact ⟨kept.trans same.symm, shown, _, visits, Course.ends same (.refused ahead (by simp) (by decide) (by decide))⟩
  next reply answered handled =>
  obtain ⟨-, shown, visits⟩ := Recorded.handle_eq handled
  have settled : reply ≠ .moveToNext → (sequencer.settle commit.checkpoint reply).lastRead = worker.sequencer.lastRead :=
    fun other => (congrArg Sequencer.lastRead (Sequencer.settle_of_stay other _ _)).trans same
  split at met
  · cases met
    have place : (sequencer.settle commit.checkpoint .moveToNext).lastRead = commit.checkpoint :=
      Sequencer.lastRead_settle (Checkpoint.lt_of_le_of_lt (Int.le_of_eq (congrArg Checkpoint.toInt same)) ahead)
    exact ⟨rfl, shown, _, visits, fun items later outcome last rest => .accepted ahead (rest.onward place)⟩
  · have place := settled (by decide)
    cases met
    exact ⟨kept.trans place.symm, shown, _, visits, Course.ends place (.refused ahead (by simp) (by decide) (by decide))⟩
  · have place := settled (by decide)
    cases met
    exact ⟨kept.trans place.symm, shown, _, visits, Course.ends place (.refused ahead (by simp) (by decide) (by decide))⟩

/-- The record of a poll is a course. -/
theorem drain_course (worker : Worker) (recorded : Recorded φ) (inStep : worker.InStep) :
    (worker.drain recorded).2.1.InStep ∧ ∃ items visits,
      (worker.drain recorded).2.2.shown = recorded.shown ++ items ∧
      (worker.drain recorded).2.2.visits = recorded.visits ++ visits ∧
      Course worker.sequencer.lastRead items visits (worker.drain recorded).1
        (worker.drain recorded).2.1.sequencer.lastRead := by
  induction worker, recorded using Worker.drain_induct with
  | step worker recorded ih =>
    rw [Worker.drain_eq worker recorded]
    cases taken : Intake.next recorded with
    | mk item rest =>
      obtain ⟨-, shown, visits⟩ := Recorded.next_eq taken
      cases item with
      | none => exact ⟨inStep, [], [], shown, by simp [visits], .drained _⟩
      | some item =>
        cases item with
        | error error => exact ⟨inStep, [.error error], [], shown, by simp [visits], .failed _ error⟩
        | ok commit =>
          dsimp only
          cases met : worker.meet commit rest with
          | mk ended onward =>
            obtain ⟨kept, sameShown, called, calls, course⟩ := meet_course inStep met
            cases ended with
            | some outcome =>
              refine ⟨kept, [.ok commit], called, by rw [sameShown, shown]; rfl, by rw [calls, visits], course⟩
            | none =>
              obtain ⟨last, items, later, laterShown, laterCalls, rest⟩ :=
                ih commit rest onward.1 onward.2 taken met kept
              refine ⟨last, .ok commit :: items, called ++ later, ?_, ?_, course items later _ _ rest⟩
              · rw [laterShown, sameShown, shown]
                simp
              · rw [laterCalls, calls, visits, List.append_assoc]

/-! ### What follows from a course -/

/-- After these a worker does not poll again. -/
def Outcome.isFinal : Outcome → Bool
  | .stopped | .broken => true
  | .drained | .retry | .failed => false

namespace Course

variable {place last : Checkpoint} {items : List FeedItem} {visits : List Visit} {outcome : Outcome}

theorem le_last (course : Course place items visits outcome last) : place ≤ last := by
  simp only [Checkpoint.le_iff]
  induction course with
  | drained | failed | withheld | refused => exact Int.le_refl _
  | passed _ _ ih => exact ih
  | accepted ahead _ ih =>
    rw [Checkpoint.lt_iff] at ahead
    omega

/-- The place where a poll ends is the last that was accepted. -/
theorem last_eq (course : Course place items visits outcome last) : last = (Poller.accepted visits).getLastD place := by
  induction course with
  | drained | failed | withheld => rfl
  | passed _ _ ih => exact ih
  | @accepted place last commit _ visits _ _ _ ih =>
    show last = (commit.checkpoint :: Poller.accepted visits).getLastD place
    rw [List.getLastD_cons]
    exact ih
  | refused _ stays _ _ => simp [Poller.accepted, stays]

/-- The handler is called for one commit after another, all of them ahead. -/
theorem visits_ascend (course : Course place items visits outcome last) :
    (place :: visits.map Visit.checkpoint).Pairwise (· < ·) := by
  induction course with
  | drained | failed | withheld => simp
  | passed _ _ ih => exact ih
  | accepted ahead _ ih =>
    rw [List.map_cons, List.pairwise_cons]
    refine ⟨fun checkpoint member => ?_, ih⟩
    rcases List.mem_cons.1 member with rfl | later
    · exact ahead
    · exact Checkpoint.lt_trans ahead ((List.pairwise_cons.1 ih).1 checkpoint later)
  | refused ahead _ _ _ => simpa using ahead

/-- The poll ends at or beyond each commit that the handler has moved on from. A reply of another kind asks
for the commit again, or is the end of the worker. -/
theorem visit_cases (course : Course place items visits outcome last) {visit : Visit} (called : visit ∈ visits) :
    visit.checkpoint ≤ last ∨
      visit.reply ≠ some .moveToNext ∧ (visit.reply = some .retry ∨ outcome.isFinal = true) := by
  induction course with
  | drained | failed | withheld => simp at called
  | passed _ _ ih => exact ih called
  | accepted _ rest ih =>
    rcases List.mem_cons.1 called with rfl | later
    · exact .inl rest.le_last
    · exact ih later
  | @refused _ _ _ outcome _ stays early again =>
    cases List.mem_singleton.1 called
    refine .inr ⟨stays, ?_⟩
    cases outcome with
    | drained => exact absurd rfl early.1
    | failed => exact absurd rfl early.2
    | retry => exact .inl (again.1 rfl)
    | stopped | broken => exact .inr rfl

/-- Of a feed that ascends from the place, what is accepted is the beginning of what is shown, and all of it
if the poll has got to the end or to an error. -/
theorem accepted_prefix (course : Course place items visits outcome last)
    (ascending : (place :: offered items).Pairwise (· < ·)) :
    Poller.accepted visits <+: offered items ∧
      (outcome = .drained ∨ outcome = .failed → Poller.accepted visits = offered items) := by
  induction course with
  | drained | failed => exact ⟨List.prefix_refl _, fun _ => rfl⟩
  | passed behind _ _ =>
    have ahead := (List.pairwise_cons.1 ascending).1 _ List.mem_cons_self
    exact absurd (Checkpoint.lt_of_le_of_lt behind ahead) (Checkpoint.lt_irrefl _)
  | accepted _ _ ih =>
    obtain ⟨begins, all⟩ := ih (List.pairwise_cons.1 ascending).2
    refine ⟨List.cons_prefix_cons.2 ⟨rfl, begins⟩, fun whole => ?_⟩
    exact congrArg _ (all whole)
  | withheld early => exact ⟨List.nil_prefix, fun whole => absurd whole (by simp [early])⟩
  | refused _ stays early _ =>
    refine ⟨?_, fun whole => absurd whole (by simp [early])⟩
    simp [Poller.accepted, stays]

end Course

end Poller
end CommitLog
