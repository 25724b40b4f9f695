import CommitLog.Proofs.Poller.Delivery
import Mathlib.Algebra.GroupWithZero.Nat

/-!
What a poller tells of feeds that fail. A poll that ends in an error leaves the error in the status, any other
clears it, and of the errors the throttle lets some into the log (`Tells`). Over a run the log and the throttle
account for each of them (`Books`): an error is logged if it is the first or comes an interval after the last that
was, and else counted with those that the next entry reports (`outages_told`).
-/

namespace CommitLog.Poller

/-- The error that the items of a feed end in. -/
def fault (items : List FeedItem) : Option Error :=
  match items.getLast? with
  | some (.error error) => some error
  | _ => none

theorem fault_cons_ok (commit : Commit) (items : List FeedItem) : fault (.ok commit :: items) = fault items := by
  cases items with
  | nil => rfl
  | cons item items => rw [fault, fault, List.getLast?_cons_cons]

/-! ### One poll -/

/-- What a poll that is over at a time tells: how it ended, the worker that it leaves, the error it met. -/
inductive Tells (worker : Worker) (now : Nat) : Outcome → Worker → Option Error → Prop where
  | well {outcome : Outcome} {after : Worker} (ended : outcome ≠ .failed) (status : after.status.lastError = none)
    (throttle : after.throttle = worker.throttle) (log : after.log = worker.log) : Tells worker now outcome after none
  | logged {after : Worker} {error : Error} (due : worker.throttle.isDue now = true)
    (status : after.status.lastError = some error)
    (throttle : after.throttle = { worker.throttle with lastLogged := some now, suppressed := 0 })
    (log : after.log = worker.log ++ [⟨error, worker.throttle.suppressed⟩]) :
    Tells worker now .failed after (some error)
  | suppressed {after : Worker} {error : Error} (early : worker.throttle.isDue now = false)
    (status : after.status.lastError = some error)
    (throttle : after.throttle = { worker.throttle with suppressed := worker.throttle.suppressed + 1 })
    (log : after.log = worker.log) : Tells worker now .failed after (some error)

theorem tells_fail (error : Error) (now : Nat) (worker : Worker) :
    Tells worker now .failed (worker.fail error now) (some error) := by
  unfold Worker.fail Throttle.letThrough
  by_cases due : worker.throttle.isDue now = true
  · rw [if_pos due]
    exact .logged due rfl rfl rfl
  · rw [if_neg due]
    exact .suppressed (by simpa using due) rfl rfl (List.append_nil _)

/-- What a poll tells depends on no more of the worker than its throttle and its log. -/
theorem Tells.of_same {worker onward after : Worker} {now : Nat} {outcome : Outcome} {error : Option Error}
    (tells : Tells onward now outcome after error) (throttle : onward.throttle = worker.throttle)
    (log : onward.log = worker.log) : Tells worker now outcome after error := by
  cases tells with
  | well ended status kept same => exact .well ended status (kept.trans throttle) (same.trans log)
  | logged due status kept same =>
    rw [throttle] at due kept same
    rw [log] at same
    exact .logged due status kept same
  | suppressed early status kept same =>
    rw [throttle] at early kept
    exact .suppressed early status kept (same.trans log)

variable {φ : Type} [Intake φ]

/-- A commit clears the error and leaves the throttle and the log alone. -/
theorem meet_quiet {worker onward : Worker} {recorded after : Recorded φ} {commit : Commit} {ended : Option Outcome}
    (met : worker.meet commit recorded = (ended, onward, after)) :
    ended ≠ some .failed ∧ onward.status.lastError = none ∧ onward.throttle = worker.throttle ∧
      onward.log = worker.log ∧ after.shown = recorded.shown := by
  dsimp only [Worker.meet] at met
  repeat' split at met
  all_goals cases met
  all_goals refine ⟨by simp, rfl, rfl, rfl, ?_⟩
  all_goals first
    | rfl
    | exact (Recorded.handle_eq ‹_›).2.1

theorem drain_tells (worker : Worker) (recorded : Recorded φ) :
    let (outcome, onward, after) := worker.drain recorded
    ∃ items, after.shown = recorded.shown ++ items ∧ Tells worker (Intake.clock after) outcome onward (fault items) := by
  induction worker, recorded using Worker.drain_induct with
  | step worker recorded ih =>
    rw [Worker.drain_eq]
    cases taken : Intake.next recorded with
    | mk item rest =>
      have shown := (Recorded.next_eq taken).2.1
      rcases item with _ | error | commit
      · exact ⟨[], shown, .well (by simp) rfl rfl rfl⟩
      · exact ⟨[.error error], shown, tells_fail error _ worker⟩
      dsimp only
      cases met : worker.meet commit rest with
      | mk ended onward =>
        obtain ⟨outcome, status, throttle, log, same⟩ := meet_quiet met
        cases ended with
        | some ending =>
          refine ⟨[.ok commit], same.trans shown, ?_⟩
          rw [fault_cons_ok]
          exact .well (by simpa using outcome) status throttle log
        | none =>
          obtain ⟨items, later, tells⟩ := ih commit rest onward.1 onward.2 taken met
          refine ⟨.ok commit :: items, ?_, ?_⟩
          · rw [later, same, shown, List.append_assoc]
            rfl
          · rw [fault_cons_ok]
            exact tells.of_same throttle log

/-! ### Polls one after another -/

/-- A poll, what it found and what it left. -/
structure Watch where
  before : Worker
  report : PollReport
  after : Worker
  /-- Milliseconds, when the poll was over. -/
  clock : Nat

namespace Watch

/-- The error in which the poll has ended. -/
def fault (watch : Watch) : Option Error := Poller.fault watch.report.shown

def failed (watch : Watch) : Bool := watch.fault.isSome

/-- The poll has added to the log. -/
def logged (watch : Watch) : Bool := watch.before.log.length < watch.after.log.length

/-- The poll tells of its error, and shows the status that it leaves. -/
structure Tells (watch : Watch) : Prop where
  shows : watch.report.status = watch.after.status
  told : Poller.Tells watch.before watch.clock watch.report.outcome watch.after watch.fault

end Watch

namespace Worker

def watch (fetch : Checkpoint → φ) (worker : Worker) : Watch :=
  let start := worker.sequencer.lastRead
  let (outcome, onward, recorded) := worker.poll ({ intake := fetch start } : Recorded φ)
  ⟨worker, ⟨start, recorded.shown, recorded.visits, outcome, onward.status⟩, onward, Intake.clock recorded⟩

/-- The polls of `pollAll`, with what each has found and left. -/
def watchAll : List (Checkpoint → φ) → Worker → List Watch
  | [], _ => []
  | fetch :: fetches, worker =>
    let watch := worker.watch fetch
    watch :: if watch.report.outcome.isFinal then [] else watchAll fetches watch.after

theorem watchAll_reports (fetches : List (Checkpoint → φ)) (worker : Worker) :
    (worker.watchAll fetches).map Watch.report = worker.pollAll fetches := by
  induction fetches generalizing worker with
  | nil => rfl
  | cons fetch fetches ih =>
    rw [watchAll, pollAll, List.map_cons, apply_ite (List.map Watch.report), ih]
    rfl

theorem watch_tells (fetch : Checkpoint → φ) (worker : Worker) : (worker.watch fetch).Tells := by
  obtain ⟨items, shown, tells⟩ :=
    drain_tells worker.touch ({ intake := fetch worker.sequencer.lastRead } : Recorded φ)
  rw [List.nil_append] at shown
  rw [← shown] at tells
  exact ⟨rfl, tells.of_same rfl rfl⟩

end Worker

/-- Evaluates polls of which each meets fewer than so many commits. -/
def Worker.watchAllWithin (fuel : Nat) : List (Checkpoint → φ) → Worker → Option (List Watch)
  | [], _ => some []
  | fetch :: fetches, worker =>
    let start := worker.sequencer.lastRead
    match worker.touch.drainWithin fuel ({ intake := fetch start } : Recorded φ) with
    | none => none
    | some (outcome, onward, recorded) =>
      let watch : Watch :=
        ⟨worker, ⟨start, recorded.shown, recorded.visits, outcome, onward.status⟩, onward, Intake.clock recorded⟩
      if outcome.isFinal then some [watch] else (watchAllWithin fuel fetches onward).map (watch :: ·)

theorem Worker.watchAll_of_within {fuel : Nat} {fetches : List (Checkpoint → φ)} {worker : Worker} {watches : List Watch}
    (evaluated : worker.watchAllWithin fuel fetches = some watches) : worker.watchAll fetches = watches := by
  induction fetches generalizing worker watches with
  | nil => exact Option.some.inj evaluated
  | cons fetch fetches ih =>
    rw [watchAllWithin] at evaluated
    split at evaluated
    · cases evaluated
    next outcome onward recorded drained =>
    rw [watchAll, watch, poll, drain_of_within drained]
    dsimp only at evaluated ⊢
    split at evaluated
    · next final =>
      rw [if_pos final]
      exact Option.some.inj evaluated
    · next goes =>
      obtain ⟨later, polled, rfl⟩ := Option.map_eq_some_iff.1 evaluated
      rw [if_neg goes, ih polled]

/-! ### The books -/

/-- The clock as it was read for each error. -/
def readings (watches : List Watch) : List Nat := (watches.filter Watch.failed).map Watch.clock

/-- How the throttle and the log of a worker account for the errors of its polls. -/
structure Books (interval : Nat) (history : List Watch) (worker : Worker) : Prop where
  interval : worker.throttle.interval = interval
  last : worker.throttle.lastLogged = ((history.filter Watch.logged).getLast?).map Watch.clock
  counted : history.countP Watch.failed =
    worker.log.length + (worker.log.map LogEntry.suppressed).sum + worker.throttle.suppressed

theorem Books.nil (start : Checkpoint) (config : PollerConfig) :
    Books config.errorLogInterval [] (Worker.create start config) where
  interval := rfl
  last := rfl
  counted := rfl

variable {interval : Nat} {history : List Watch} {worker : Worker} {watch : Watch}

/-- An entry is added exactly for an error that is due. -/
theorem Watch.Tells.logged_iff (tells : watch.Tells) :
    watch.logged = true ↔ watch.failed = true ∧ watch.before.throttle.isDue watch.clock = true := by
  obtain ⟨-, tells⟩ := tells
  unfold Watch.logged Watch.failed
  generalize watch.report.outcome = outcome, watch.fault = error at tells ⊢
  cases tells with
  | well _ _ _ log => simp [log]
  | logged due _ _ log => simp [due, log]
  | suppressed early _ _ log => simp [early, log]

theorem Books.step (books : Books interval history watch.before) (tells : watch.Tells) :
    Books interval (history ++ [watch]) watch.after := by
  have logged := tells.logged_iff
  obtain ⟨kept, last, counted⟩ := books
  obtain ⟨-, tells⟩ := tells
  unfold Watch.failed at logged
  generalize watch.report.outcome = outcome at tells
  generalize fails : watch.fault = error at tells logged
  cases tells with
  | well _ _ throttle log =>
    have quiet : watch.logged = false := by simpa using logged
    have none : [watch].countP Watch.failed = 0 := by simp [Watch.failed, fails]
    constructor
    · rw [throttle]
      exact kept
    · simp [throttle, last, List.filter_append, quiet]
    · rw [List.countP_append, none, counted, throttle, log]
      rfl
  | logged due _ throttle log =>
    have noted : watch.logged = true := logged.2 ⟨rfl, due⟩
    have one : [watch].countP Watch.failed = 1 := by simp [Watch.failed, fails]
    constructor
    · rw [throttle]
      exact kept
    · simp [throttle, List.filter_append, noted]
    · rw [List.countP_append, one, counted, throttle, log, List.length_append, List.map_append, List.sum_append]
      simp only [List.length_singleton, List.map_cons, List.map_nil, List.sum_cons, List.sum_nil]
      omega
  | suppressed early _ throttle log =>
    have quiet : watch.logged = false := by simpa [early] using logged
    have one : [watch].countP Watch.failed = 1 := by simp [Watch.failed, fails]
    constructor
    · rw [throttle]
      exact kept
    · simp [throttle, last, List.filter_append, quiet]
    · rw [List.countP_append, one, counted, throttle, log]
      exact Nat.add_assoc ..

/-- At every poll of a run the books are kept. -/
theorem watchAll_books (fetches : List (Checkpoint → φ)) (books : Books interval history worker)
    {before after : List Watch} (split : worker.watchAll fetches = before ++ watch :: after) :
    Books interval (history ++ before) watch.before ∧ watch.Tells := by
  induction fetches generalizing history worker before with
  | nil => simp [Worker.watchAll] at split
  | cons fetch fetches ih =>
    have tells := worker.watch_tells fetch
    rw [Worker.watchAll] at split
    rcases List.cons_eq_append_iff.1 split with ⟨rfl, same⟩ | ⟨rest, rfl, same⟩
    · cases same
      rw [List.append_nil]
      exact ⟨books, tells⟩
    · split at same
      · simp at same
      · have later := ih (books.step tells) same
        rwa [List.append_assoc] at later

/-- An error is due if none has been logged or the last that was is an interval ago. -/
theorem Books.isDue_iff (books : Books interval history worker) (now : Nat) :
    worker.throttle.isDue now = true ↔
      ∀ last ∈ (history.filter Watch.logged).getLast?, interval ≤ now - last.clock := by
  unfold Throttle.isDue
  rw [books.last, books.interval]
  cases (history.filter Watch.logged).getLast? <;> simp

/-- An error that is due comes an interval after all that were logged, if the clock has not gone back. -/
theorem Books.apart (books : Books interval history worker) {now : Nat}
    (due : worker.throttle.isDue now = true)
    (ascending : (history.filter Watch.logged).Pairwise fun a b => a.clock ≤ b.clock)
    (behind : ∀ earlier ∈ history.filter Watch.logged, earlier.clock ≤ now) :
    ∀ earlier ∈ history.filter Watch.logged, earlier.clock + interval ≤ now := by
  intro earlier member
  rw [books.isDue_iff] at due
  obtain nothing | ⟨others, last, shape⟩ := List.eq_nil_or_concat (history.filter Watch.logged)
  · rw [nothing] at member
    contradiction
  rw [List.concat_eq_append] at shape
  have away : interval ≤ now - last.clock := due last (by simp [shape])
  have lastBehind := behind last (by simp [shape])
  have upToLast : earlier.clock ≤ last.clock := by
    rw [shape, List.pairwise_append] at ascending
    rw [shape, List.mem_append, List.mem_singleton] at member
    rcases member with among | rfl
    · exact ascending.2.2 earlier among last (by simp)
    · exact Nat.le_refl _
  omega

/-! ### A run -/

/-- How a run of polls tells of the errors in which they end, with the interval at which they are logged. -/
structure OutagesTold (interval : Nat) (polls : List Watch) : Prop where
  /-- After each poll the status has the error in which the poll has ended, and none if it has not. -/
  status : ∀ poll ∈ polls, poll.report.status.lastError = poll.fault ∧
    (poll.report.outcome = .failed ↔ poll.failed = true)
  /-- What is logged is such an error, with the number of those before it that were not. -/
  entry : ∀ poll ∈ polls, poll.after.log = poll.before.log ++
    if poll.logged then poll.fault.toList.map fun error => ⟨error, poll.before.throttle.suppressed⟩ else []
  first : ∀ before poll after, polls = before ++ poll :: after → poll.failed = true →
    (∀ earlier ∈ before, earlier.failed = false) → poll.logged = true
  apart : ∀ before poll after, polls = before ++ poll :: after → poll.logged = true →
    ∀ earlier ∈ before, earlier.logged = true → earlier.clock + interval ≤ poll.clock
  /-- An error is logged if it comes the interval after the last that was. -/
  due : ∀ before last between poll after, polls = before ++ last :: between ++ poll :: after → last.logged = true →
    (∀ other ∈ between, other.logged = false) → poll.failed = true → last.clock + interval ≤ poll.clock →
    poll.logged = true
  /-- No error is lost and none counted twice. -/
  counted : ∀ before poll after, polls = before ++ poll :: after → (before ++ [poll]).countP Watch.failed =
    poll.after.log.length + (poll.after.log.map LogEntry.suppressed).sum + poll.after.throttle.suppressed

theorem Watch.Tells.status (tells : watch.Tells) :
    watch.report.status.lastError = watch.fault ∧ (watch.report.outcome = .failed ↔ watch.failed = true) := by
  obtain ⟨shows, tells⟩ := tells
  rw [shows]
  unfold Watch.failed
  generalize watch.report.outcome = outcome, watch.fault = error at tells ⊢
  cases tells with
  | well ended status _ _ => exact ⟨status, by simpa using ended⟩
  | logged _ status _ _ => exact ⟨status, by simp⟩
  | suppressed _ status _ _ => exact ⟨status, by simp⟩

theorem Watch.Tells.entry (tells : watch.Tells) :
    watch.after.log = watch.before.log ++
      if watch.logged then watch.fault.toList.map fun error => ⟨error, watch.before.throttle.suppressed⟩ else [] := by
  have logged := tells.logged_iff
  obtain ⟨-, tells⟩ := tells
  unfold Watch.failed at logged
  generalize watch.report.outcome = outcome, watch.fault = error at tells logged ⊢
  cases tells with
  | well _ _ _ log => simp [log]
  | logged due _ _ log => simp [log, logged.2 ⟨rfl, due⟩]
  | suppressed early _ _ log =>
    have quiet : watch.logged = false := by simpa [early] using logged
    simp [log, quiet]

/-- A script that runs at one time. -/
structure Timed where
  now : Nat
  script : Script

instance : Intake Timed where
  rel a b := WellFoundedRelation.rel a.script b.script
  wf := InvImage.wf Timed.script WellFoundedRelation.wf
  clock timed := timed.now
  next timed := ((Intake.next timed.script).1, { timed with script := (Intake.next timed.script).2 })
  stopRequested timed := Intake.stopRequested timed.script
  handle commit status timed := ((Intake.handle commit status timed.script).1,
    { timed with script := (Intake.handle commit status timed.script).2 })
  rel_next taken := Intake.rel_next (Prod.ext (Prod.mk.inj taken).1 (congrArg Timed.script (Prod.mk.inj taken).2))
  rel_handle taken handled :=
    Intake.rel_handle (Prod.ext (Prod.mk.inj taken).1 (congrArg Timed.script (Prod.mk.inj taken).2))
      (Prod.ext (Prod.mk.inj handled).1 (congrArg Timed.script (Prod.mk.inj handled).2))

/-- Whatever the feeds, the handler and the interval: the status shows the error of the last poll, and every error is
logged or counted in the log, if the clock does not go back from one error to the next. -/
theorem outages_told (start : Checkpoint) (config : PollerConfig) (fetches : List (Checkpoint → φ))
    (forward : (readings ((Worker.create start config).watchAll fetches)).Pairwise (· ≤ ·)) :
    OutagesTold config.errorLogInterval ((Worker.create start config).watchAll fetches) := by
  generalize run : (Worker.create start config).watchAll fetches = polls at forward ⊢
  have kept : ∀ before poll after, polls = before ++ poll :: after →
      Books config.errorLogInterval before poll.before ∧ poll.Tells := fun before poll after split =>
    watchAll_books fetches (.nil start config) (run.trans split)
  have tells : ∀ poll ∈ polls, poll.Tells := by
    intro poll member
    obtain ⟨before, after, split⟩ := List.append_of_mem member
    exact (kept before poll after split).2
  rw [readings, List.pairwise_map, List.pairwise_filter] at forward
  refine ⟨fun poll member => (tells poll member).status, fun poll member => (tells poll member).entry, ?_, ?_, ?_, ?_⟩
  · intro before poll after split failed none
    obtain ⟨books, told⟩ := kept before poll after split
    have unlogged : before.filter Watch.logged = [] := by
      refine List.filter_eq_nil_iff.2 fun earlier member logged => ?_
      have failed := ((tells earlier (by simp [split, member])).logged_iff.1 logged).1
      rw [none earlier member] at failed
      contradiction
    rw [told.logged_iff, books.isDue_iff, unlogged]
    exact ⟨failed, by simp⟩
  · intro before poll after split logged earlier member noted
    obtain ⟨books, told⟩ := kept before poll after split
    obtain ⟨failed, due⟩ := told.logged_iff.1 logged
    have failure : ∀ other ∈ polls, other.logged = true → other.failed = true := fun other member noted =>
      ((tells other member).logged_iff.1 noted).1
    rw [split, List.pairwise_append] at forward
    obtain ⟨ascending, -, ahead⟩ := forward
    refine books.apart due ?_ ?_ earlier (List.mem_filter.2 ⟨member, noted⟩)
    · refine List.pairwise_filter.2 (ascending.imp_of_mem fun first second less one two => ?_)
      exact less (failure _ (by simp [split, first]) one) (failure _ (by simp [split, second]) two)
    · intro other among
      obtain ⟨known, one⟩ := List.mem_filter.1 among
      exact ahead other known poll (by simp) (failure other (by simp [split, known]) one) failed
  · intro before last between poll after split logged quiet failed far
    obtain ⟨books, told⟩ := kept _ poll after split
    have unlogged : between.filter Watch.logged = [] := List.filter_eq_nil_iff.2 fun other member => by
      simp [quiet other member]
    rw [told.logged_iff, books.isDue_iff, List.filter_append, List.filter_cons_of_pos logged, unlogged]
    refine ⟨failed, ?_⟩
    simp only [List.getLast?_concat]
    rintro other ⟨⟩
    omega
  · intro before poll after split
    obtain ⟨books, told⟩ := kept before poll after split
    exact (books.step told).counted

/-- Six polls with ten milliseconds between two entries. The first error is logged and the second is not, though it is
shown; the third poll clears it; the next error is logged and reports the second, the last but one is too early, and
the last poll finds nothing. -/
theorem outages_told_over_six_polls :
    let commit (n : UInt64) (id : String) : Commit :=
      ⟨⟨⟨"orders"⟩, ⟨"7"⟩, n, ⟨id⟩, n, 0, [], [{ body := [1] }]⟩, ⟨n.toInt64⟩⟩
    let fetches : List (Checkpoint → Timed) :=
      [fun _ => ⟨0, { items := [.error .disposed] }⟩,
        fun _ => ⟨3, { items := [.ok (commit 1 "placed"), .error .disposed] }⟩,
        fun _ => ⟨5, { items := [.ok (commit 2 "paid")], replies := [.retry] }⟩,
        fun _ => ⟨10, { items := [.error .disposed] }⟩, fun _ => ⟨19, { items := [.error .disposed] }⟩,
        fun _ => ⟨19, { items := [] }⟩]
    let polls := (Worker.create Checkpoint.start { errorLogInterval := 10 }).watchAll fetches
    readings polls = [0, 3, 10, 19] ∧ (readings polls).Pairwise (· ≤ ·) ∧ OutagesTold 10 polls ∧
      polls.map (fun poll => (poll.after.status.lastError.isSome, poll.after.log.map LogEntry.suppressed,
        poll.after.throttle.suppressed)) =
        [(true, [0], 0), (true, [0], 1), (false, [0], 1), (true, [0, 1], 0), (true, [0, 1], 1), (false, [0, 1], 1)] := by
  intro commit fetches polls
  have evaluated : ((Worker.create Checkpoint.start { errorLogInterval := 10 }).watchAllWithin 4 fetches).map
      (fun polls => (readings polls, polls.map fun poll => (poll.after.status.lastError.isSome,
        poll.after.log.map LogEntry.suppressed, poll.after.throttle.suppressed))) =
      some ([0, 3, 10, 19],
        [(true, [0], 0), (true, [0], 1), (false, [0], 1), (true, [0, 1], 0), (true, [0, 1], 1), (false, [0, 1], 1)]) := by
    decide +kernel
  obtain ⟨_, run, seen⟩ := Option.map_eq_some_iff.1 evaluated
  rw [← Worker.watchAll_of_within run, Prod.mk.injEq] at seen
  obtain ⟨read, watched⟩ := seen
  have forward : (readings polls).Pairwise (· ≤ ·) := by
    rw [read]
    decide
  exact ⟨read, forward, outages_told _ _ fetches forward, watched⟩

end CommitLog.Poller
