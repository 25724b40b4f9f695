import CommitLog.Proofs.Poller.Delivery
import CommitLog.Proofs.Waiting

/-!
How many polls it takes to catch up with a feed that shows gaps and does not change. Under a number of tries each gap
costs a worker that many polls. What it still has to do is measured by the gaps that lie ahead, less the tries it has
made at the one it is at (`left`): every poll that does not get to the end takes one from it (`drain_feeds`), and when
nothing is left the next poll gets to the end (`caught_up`).
-/

namespace CommitLog

/-! ### Tries -/

namespace Sequencer

/-- The tries that have been made at the hole. -/
def tries (sequencer : Sequencer) : Nat := (sequencer.hole.map fun hole => hole.retries.toNat).getD 0

/-- A sequencer that makes a number of tries at each hole, the one that follows the last checkpoint read. -/
structure Counts (limit : UInt32) (sequencer : Sequencer) : Prop where
  policy : sequencer.policy = .retryCount limit
  hole : ∀ hole ∈ sequencer.hole, hole.expected.toInt = sequencer.lastRead.toInt + 1
  few : sequencer.tries ≤ limit.toNat

variable {limit : UInt32} {sequencer : Sequencer}

theorem Counts.holeAt (counts : sequencer.Counts limit) {expected : Checkpoint}
    (follows : expected.toInt = sequencer.lastRead.toInt + 1) (now : Nat) :
    (sequencer.holeAt expected now).expected = expected ∧
      (sequencer.holeAt expected now).retries.toNat = sequencer.tries := by
  unfold Sequencer.holeAt tries
  cases known : sequencer.hole with
  | none => exact ⟨rfl, rfl⟩
  | some hole =>
    have same := Checkpoint.eq_of_toInt ((counts.hole hole known).trans follows.symm)
    simp [same]

theorem Counts.exceeded_eq (counts : sequencer.Counts limit) {expected : Checkpoint}
    (follows : expected.toInt = sequencer.lastRead.toInt + 1) (now : Nat) :
    exceeded sequencer.policy (sequencer.holeAt expected now) now = decide (limit.toNat ≤ sequencer.tries) := by
  simp only [exceeded, counts.policy, UInt32.le_iff_toNat_le, (counts.holeAt follows now).2]

/-- What follows is delivered; what lies beyond a hole is held back until all tries have been made. -/
theorem Counts.offer_cases (counts : sequencer.Counts limit) {checkpoint : Checkpoint}
    (ahead : sequencer.lastRead < checkpoint) (now : Nat) :
    (checkpoint.toInt = sequencer.lastRead.toInt + 1 ∧
        sequencer.offer checkpoint now = .ok (.deliver, sequencer)) ∨
      (sequencer.lastRead.toInt + 1 < checkpoint.toInt ∧ sequencer.tries = limit.toNat ∧
        sequencer.offer checkpoint now = .ok (.deliver, { sequencer with hole := none })) ∨
      (sequencer.lastRead.toInt + 1 < checkpoint.toInt ∧ sequencer.tries < limit.toNat ∧
        ∃ after : Sequencer, sequencer.offer checkpoint now = .ok (.hold, after) ∧ after.Counts limit ∧
          after.lastRead = sequencer.lastRead ∧ after.tries = sequencer.tries + 1) := by
  have few := counts.few
  have outcome := offered checkpoint now sequencer
  generalize sequencer.offer checkpoint now = answer at outcome
  cases outcome with
  | read behind => exact absurd (Checkpoint.lt_of_le_of_lt behind ahead) (Checkpoint.lt_irrefl _)
  | next follows => exact .inl ⟨follows, rfl⟩
  | unordered beyond disabled =>
    rw [counts.policy] at disabled
    contradiction
  | due beyond _ follows waited =>
    rw [counts.exceeded_eq follows, decide_eq_true_eq] at waited
    exact .inr (.inl ⟨beyond, by omega, rfl⟩)
  | @held expected counted beyond _ follows waiting counted_eq =>
    obtain ⟨known, retries⟩ := counts.holeAt follows now
    obtain ⟨sameExpected, -, one⟩ := Hole.countRetry_eq_ok counted_eq
    rw [counts.exceeded_eq follows, decide_eq_false_iff_not] at waiting
    have more : ({ sequencer with hole := some counted } : Sequencer).tries = sequencer.tries + 1 := by
      rw [← retries]
      exact one
    refine .inr (.inr ⟨beyond, by omega, _, rfl, ⟨counts.policy, ?_, by omega⟩, rfl, more⟩)
    rintro _ ⟨⟩
    rw [sameExpected, known, follows]
  | uncounted beyond _ follows waiting full =>
    -- The limit is a word, so that the counter does not fill up.
    obtain ⟨-, retries⟩ := counts.holeAt follows now
    rw [counts.exceeded_eq follows, decide_eq_false_iff_not] at waiting
    have size : UInt32.size = 4294967296 := rfl
    have small := limit.toNat_lt
    have all := Hole.countRetry_eq_error full
    omega

end Sequencer

namespace Poller

/-! ### What is left to do -/

/-- The commits that lie beyond a checkpoint. -/
def beyond (place : Checkpoint) (commits : List Commit) : List Commit :=
  commits.filter fun commit => place < commit.checkpoint

/-- The commits that do not follow at once on the one before, or on the place if they are the first. -/
def gaps : Checkpoint → List Commit → Nat
  | _, [] => 0
  | place, commit :: commits =>
    (if commit.checkpoint.toInt = place.toInt + 1 then 0 else 1) + gaps commit.checkpoint commits

/-- The tries that are left to be made before the end of a feed is reached. -/
def left (limit : UInt32) (sequencer : Sequencer) (commits : List Commit) : Nat :=
  gaps sequencer.lastRead commits * limit.toNat - sequencer.tries

/-- A sequencer at its place before what is left of a feed. It makes tries only where a commit is missing. -/
structure Facing (limit : UInt32) (sequencer : Sequencer) (commits : List Commit) : Prop where
  counts : sequencer.Counts limit
  ascending : (sequencer.lastRead :: commits.map Commit.checkpoint).Pairwise (· < ·)
  tried : sequencer.tries ≠ 0 → ∃ first others, commits = first :: others ∧
    sequencer.lastRead.toInt + 1 < first.checkpoint.toInt

variable {φ : Type} [Intake φ]

/-- An intake shows commits one after the other, and the handler moves on from each. -/
def Feeds : List Commit → φ → Prop
  | [], intake => (Intake.next intake).1 = none
  | commit :: commits, intake =>
    (Intake.next intake).1 = some (.ok commit) ∧ Intake.stopRequested (Intake.next intake).2 = false ∧
      ∀ status, (Intake.handle commit status (Intake.next intake).2).1 = some .moveToNext ∧
        Feeds commits (Intake.handle commit status (Intake.next intake).2).2

/-- The call of the handler for a commit from which it moves on. -/
def moved (commit : Commit) : Visit := ⟨commit.checkpoint, some .moveToNext⟩

theorem beyond_of_ascending {place : Checkpoint} {commits : List Commit}
    (ascending : (place :: commits.map Commit.checkpoint).Pairwise (· < ·)) : beyond place commits = commits := by
  refine List.filter_eq_self.2 fun commit member => ?_
  exact decide_eq_true ((List.pairwise_cons.1 ascending).1 _ (List.mem_map_of_mem member))

theorem beyond_beyond {place further : Checkpoint} (le : place ≤ further) (commits : List Commit) :
    beyond further (beyond place commits) = beyond further commits := by
  rw [beyond, beyond, beyond, List.filter_filter]
  refine List.filter_congr fun commit _ => ?_
  by_cases ahead : further < commit.checkpoint
  · simp [ahead, Checkpoint.lt_of_le_of_lt le ahead]
  · simp [ahead]

/-- A commit that is delivered is the new place, and the tries at it are over. -/
theorem Facing.settle {limit : UInt32} {sequencer opened : Sequencer} {commit : Commit} {commits : List Commit}
    (facing : Facing limit sequencer (commit :: commits)) (policy : opened.policy = sequencer.policy)
    (place : opened.lastRead = sequencer.lastRead) :
    (opened.settle commit.checkpoint .moveToNext).lastRead = commit.checkpoint ∧
      Facing limit (opened.settle commit.checkpoint .moveToNext) commits ∧
      left limit (opened.settle commit.checkpoint .moveToNext) commits = gaps commit.checkpoint commits * limit.toNat := by
  obtain ⟨counts, ascending, -⟩ := facing
  have ahead := (List.pairwise_cons.1 ascending).1 _ List.mem_cons_self
  have reached : (opened.settle commit.checkpoint .moveToNext).lastRead = commit.checkpoint :=
    Sequencer.lastRead_settle (place ▸ ahead)
  have bare : (opened.settle commit.checkpoint .moveToNext).hole = none := rfl
  have none : (opened.settle commit.checkpoint .moveToNext).tries = 0 := rfl
  refine ⟨reached, ⟨⟨policy.trans counts.policy, by simp [bare], by simp [none]⟩, ?_, by simp [none]⟩, ?_⟩
  · rw [reached]
    exact (List.pairwise_cons.1 ascending).2
  · rw [left, reached, none, Nat.sub_zero]

/-! ### One poll -/

/-- A commit that is delivered to a handler that moves on is recorded, and the poll goes on from it. -/
theorem meet_delivered {commit : Commit} {commits : List Commit} {worker : Worker} {recorded : Recorded φ}
    (feeds : Feeds (commit :: commits) recorded.intake) {opened : Sequencer}
    (delivers : worker.sequencer.offer commit.checkpoint (Intake.clock (Intake.next recorded).2) = .ok (.deliver, opened)) :
    ∃ (onward : Worker) (after : Recorded φ),
      worker.meet commit (Intake.next recorded).2 = (none, onward, after) ∧
        onward.sequencer = opened.settle commit.checkpoint .moveToNext ∧
        after.visits = recorded.visits ++ [moved commit] ∧ Feeds commits after.intake := by
  obtain ⟨-, going, handled⟩ := feeds
  obtain ⟨moves, rest⟩ := handled worker.clearError.status
  have stops : Intake.stopRequested (Intake.next recorded).2 = false := going
  have answer : Intake.handle commit worker.clearError.status (Intake.next recorded).2 =
      (some .moveToNext, (Intake.handle commit worker.clearError.status (Intake.next recorded).2).2) :=
    Prod.ext moves rfl
  refine ⟨Worker.advance { worker.clearError with sequencer := opened.settle commit.checkpoint .moveToNext },
    (Intake.handle commit worker.clearError.status (Intake.next recorded).2).2, ?_, rfl, ?_, rest⟩
  · have same : worker.clearError.sequencer = worker.sequencer := rfl
    simp only [Worker.meet, stops, same, delivers]
    rw [answer]
    rfl
  · show recorded.visits ++ [⟨commit.checkpoint, _⟩] = _
    rw [moved]
    exact congrArg (fun reply => recorded.visits ++ [(⟨commit.checkpoint, reply⟩ : Visit)]) moves

/-- What a poll of a feed does to a sequencer. If there are tries left to be made the poll ends with one of them, and
otherwise at the end of the feed. -/
structure Polled (limit : UInt32) (before : Sequencer) (commits : List Commit) (visits : List Visit) (outcome : Outcome)
    (after : Sequencer) (rest : List Commit) : Prop where
  delivered : commits.map moved = visits ++ rest.map moved
  further : before.lastRead ≤ after.lastRead
  beyond : rest = beyond after.lastRead commits
  facing : Facing limit after rest
  ended : left limit before commits = 0 → outcome = .drained ∧ rest = []
  tried : left limit before commits ≠ 0 → outcome = .retry ∧ left limit after rest + 1 = left limit before commits

/-- A poll that delivers a commit and goes on. -/
theorem Polled.cons {limit : UInt32} {before opened after : Sequencer} {commit : Commit} {commits rest : List Commit}
    {visits : List Visit} {outcome : Outcome} (facing : Facing limit before (commit :: commits))
    (reached : opened.lastRead = commit.checkpoint)
    (same : left limit before (commit :: commits) = left limit opened commits)
    (polled : Polled limit opened commits visits outcome after rest) :
    Polled limit before (commit :: commits) (moved commit :: visits) outcome after rest := by
  have ahead := (List.pairwise_cons.1 facing.ascending).1 _ List.mem_cons_self
  have further := polled.further
  rw [reached] at further
  constructor
  · rw [List.map_cons, polled.delivered, List.cons_append]
  · exact Checkpoint.le_of_lt (Int.lt_of_lt_of_le ahead further)
  · have behind : ¬ after.lastRead < commit.checkpoint := fun less =>
      Checkpoint.lt_irrefl _ (Checkpoint.lt_of_le_of_lt further less)
    rw [polled.beyond]
    simp [Poller.beyond, behind]
  · exact polled.facing
  · rw [same]
    exact polled.ended
  · rw [same]
    exact polled.tried

/-- A poll of a feed that does not change. -/
theorem drain_feeds {limit : UInt32} {commits : List Commit} {worker : Worker} {recorded : Recorded φ}
    (feeds : Feeds commits recorded.intake) (facing : Facing limit worker.sequencer commits) :
    ∃ visits rest, (worker.drain recorded).2.2.visits = recorded.visits ++ visits ∧
      Polled limit worker.sequencer commits visits (worker.drain recorded).1 (worker.drain recorded).2.1.sequencer rest := by
  induction commits generalizing worker recorded with
  | nil =>
    have ended : Intake.next recorded = (none, (Intake.next recorded).2) := Prod.ext feeds rfl
    rw [Worker.drain_eq, ended]
    refine ⟨[], [], ?_, rfl, Int.le_refl _, rfl, facing, fun _ => ⟨rfl, rfl⟩, fun more => ?_⟩
    · exact (List.append_nil _).symm
    · simp [left, gaps] at more
  | cons commit commits ih =>
    have shown : Intake.next recorded = (some (.ok commit), (Intake.next recorded).2) := Prod.ext feeds.1 rfl
    have ahead := (List.pairwise_cons.1 facing.ascending).1 _ List.mem_cons_self
    rw [Worker.drain_eq, shown]
    dsimp only
    -- A commit that is delivered leaves the poll of what comes after it.
    have deliver : ∀ opened : Sequencer, opened.policy = worker.sequencer.policy →
        opened.lastRead = worker.sequencer.lastRead →
        worker.sequencer.offer commit.checkpoint (Intake.clock (Intake.next recorded).2) = .ok (.deliver, opened) →
        left limit worker.sequencer (commit :: commits) = gaps commit.checkpoint commits * limit.toNat →
        ∃ visits rest, (worker.drain recorded).2.2.visits = recorded.visits ++ visits ∧
          Polled limit worker.sequencer (commit :: commits) visits (worker.drain recorded).1
            (worker.drain recorded).2.1.sequencer rest := by
      intro opened policy place delivers total
      obtain ⟨onward, after, met, settled, called, rest⟩ := meet_delivered feeds delivers
      obtain ⟨reached, faces, same⟩ := facing.settle policy place
      rw [← settled] at reached faces same
      obtain ⟨visits, later, seen, polled⟩ := ih rest faces
      rw [Worker.drain_eq, shown]
      dsimp only
      rw [met]
      refine ⟨moved commit :: visits, later, ?_, .cons facing reached (total.trans same.symm) polled⟩
      rw [seen, called, List.append_assoc]
      rfl
    rw [Worker.drain_eq, shown] at deliver
    rcases facing.counts.offer_cases ahead (Intake.clock (Intake.next recorded).2) with
      ⟨follows, delivers⟩ | ⟨further, whole, delivers⟩ | ⟨further, short, held, holds, counts, place, more⟩
    · refine deliver worker.sequencer rfl rfl delivers ?_
      have none : worker.sequencer.tries = 0 := by
        by_contra some
        obtain ⟨first, others, split, further⟩ := facing.tried some
        cases split
        omega
      simp [left, gaps, follows, none]
    · refine deliver { worker.sequencer with hole := none } rfl rfl delivers ?_
      have other : commit.checkpoint.toInt ≠ worker.sequencer.lastRead.toInt + 1 := by omega
      simp [left, gaps, other, whole, Nat.add_mul]
    · have other : commit.checkpoint.toInt ≠ worker.sequencer.lastRead.toInt + 1 := by omega
      have met : worker.meet commit (Intake.next recorded).2 =
          (some .retry, { worker.clearError with sequencer := held }, (Intake.next recorded).2) := by
        have going : Intake.stopRequested (Intake.next recorded).2 = false := feeds.2.1
        have same : worker.clearError.sequencer = worker.sequencer := rfl
        simp only [Worker.meet, going, same, holds]
        rfl
      rw [met]
      have faces : Facing limit held (commit :: commits) := by
        refine ⟨counts, ?_, fun _ => ⟨commit, commits, rfl, ?_⟩⟩
        · rw [place]
          exact facing.ascending
        · rw [place]
          exact further
      have total : left limit held (commit :: commits) + 1 = left limit worker.sequencer (commit :: commits) := by
        simp only [left, gaps, place, more, other, if_false, Nat.add_mul]
        omega
      refine ⟨[], commit :: commits, (List.append_nil _).symm, rfl, ?_, ?_, faces, ?_, fun _ => ⟨rfl, total⟩⟩
      · exact Int.le_of_eq (congrArg Checkpoint.toInt place.symm)
      · exact (beyond_of_ascending faces.ascending).symm
      · intro nothing
        omega

/-! ### One poll after another -/

/-- As seen from outside: the poll ends with a try, or with the end of the feed if there are none left. -/
theorem observe_feeds {limit : UInt32} {visible : List Commit} {worker : Worker} {fetch : Checkpoint → φ}
    (feeds : Feeds (beyond worker.sequencer.lastRead visible) (fetch worker.sequencer.lastRead))
    (facing : Facing limit worker.sequencer (beyond worker.sequencer.lastRead visible)) :
    ∃ rest, Polled limit worker.sequencer (beyond worker.sequencer.lastRead visible) (worker.observe fetch).1.visits
      (worker.observe fetch).1.outcome (worker.observe fetch).2.sequencer rest := by
  have intake : Feeds (beyond worker.sequencer.lastRead visible)
      ({ intake := fetch worker.sequencer.lastRead } : Recorded φ).intake := feeds
  obtain ⟨visits, rest, seen, polled⟩ := @drain_feeds _ _ limit _ worker.touch _ intake facing
  refine ⟨rest, ?_⟩
  rw [show (worker.observe fetch).1.visits = visits from seen]
  exact polled

/-- Each poll ends with a try as long as there are any left to be made, and the next gets to the end. By then the
handler has been called once for each commit that lies ahead, in their order. -/
theorem pollAll_feeds {limit : UInt32} {visible : List Commit} {fetches : List (Checkpoint → φ)} {worker : Worker}
    (facing : Facing limit worker.sequencer (beyond worker.sequencer.lastRead visible))
    (unchanged : ∀ fetch ∈ fetches, ∀ place, worker.sequencer.lastRead ≤ place →
      Feeds (beyond place visible) (fetch place))
    (enough : fetches.length = left limit worker.sequencer (beyond worker.sequencer.lastRead visible) + 1) :
    (worker.pollAll fetches).map PollReport.outcome =
        List.replicate (left limit worker.sequencer (beyond worker.sequencer.lastRead visible)) .retry ++ [.drained] ∧
      (worker.pollAll fetches).flatMap PollReport.visits =
        (beyond worker.sequencer.lastRead visible).map moved := by
  induction fetches generalizing worker with
  | nil => simp at enough
  | cons fetch fetches ih =>
    obtain ⟨rest, polled⟩ := observe_feeds (unchanged fetch List.mem_cons_self _ (Int.le_refl _)) facing
    rw [Worker.pollAll]
    by_cases nothing : left limit worker.sequencer (beyond worker.sequencer.lastRead visible) = 0
    · obtain ⟨drained, bare⟩ := polled.ended nothing
      have last : fetches = [] := List.length_eq_zero_iff.1 (by simpa [nothing] using enough)
      have whole := polled.delivered
      rw [bare, List.map_nil, List.append_nil] at whole
      simp [drained, last, nothing, whole, Outcome.isFinal, Worker.pollAll]
    · obtain ⟨retry, less⟩ := polled.tried nothing
      have onward : rest = beyond (worker.observe fetch).2.sequencer.lastRead visible := by
        rw [polled.beyond, beyond_beyond polled.further]
      rw [onward] at less
      obtain ⟨outcomes, visits⟩ := ih (onward ▸ polled.facing)
        (fun other member place ahead => unchanged other (List.mem_cons_of_mem _ member) place
          (Int.le_trans polled.further ahead))
        (by rw [List.length_cons] at enough; omega)
      have goes : ¬ (worker.observe fetch).1.outcome.isFinal = true := by simp [retry, Outcome.isFinal]
      dsimp only
      rw [if_neg goes, List.map_cons, List.flatMap_cons, outcomes, visits, retry, ← less]
      refine ⟨by simp [List.replicate_succ], ?_⟩
      rw [polled.delivered, onward]

/-- Whatever is missing from a feed, as long as it does not change, its fetches do not fail and the handler moves on
from everything: of the gaps that lie ahead each costs as many polls as the policy has tries, all of which end with one
of them, and the next poll gets to the end of the feed. By then the handler has been called exactly once with each
commit that lies ahead, in their order. -/
theorem caught_up (start : Checkpoint) (limit : UInt32) (config : PollerConfig) (visible : List Commit)
    (ascending : (visible.map Commit.checkpoint).Pairwise (· < ·)) (fetches : List (Checkpoint → φ))
    (unchanged : ∀ fetch ∈ fetches, ∀ place, start ≤ place → Feeds (beyond place visible) (fetch place))
    (enough : fetches.length = gaps start (beyond start visible) * limit.toNat + 1) :
    let reports := (Worker.create start { config with holePolicy := .retryCount limit }).pollAll fetches
    reports.map PollReport.outcome =
        List.replicate (gaps start (beyond start visible) * limit.toNat) .retry ++ [.drained] ∧
      reports.flatMap PollReport.visits = (beyond start visible).map moved := by
  have kept : ((beyond start visible).map Commit.checkpoint).Pairwise (· < ·) :=
    ascending.sublist (List.filter_sublist.map _)
  have ahead : ∀ checkpoint ∈ (beyond start visible).map Commit.checkpoint, start < checkpoint := by
    intro checkpoint member
    obtain ⟨commit, among, rfl⟩ := List.mem_map.1 member
    exact of_decide_eq_true (List.mem_filter.1 among).2
  have facing : Facing limit { lastRead := start, policy := .retryCount limit } (beyond start visible) := by
    refine ⟨⟨rfl, ?_, Nat.zero_le _⟩, List.pairwise_cons.2 ⟨ahead, kept⟩, ?_⟩
    · simp
    · intro tried
      exact absurd rfl tried
  exact @pollAll_feeds _ _ limit visible fetches
    (Worker.create start { config with holePolicy := .retryCount limit }) facing unchanged enough

/-- A fetch whose items are given beforehand shows them. -/
theorem feeds_script (commits : List Commit) : Feeds commits ({ items := commits.map .ok } : Script) := by
  induction commits with
  | nil => rfl
  | cons commit commits ih => exact ⟨rfl, rfl, fun _ => ⟨rfl, ih⟩⟩

/-- Three commits, with one missing before the first and two before the last, and two tries at each gap. -/
theorem caught_up_over_gaps :
    let commit (n : UInt64) (id : String) : Commit :=
      ⟨⟨⟨"orders"⟩, ⟨"7"⟩, n, ⟨id⟩, n, 0, [], [{ body := [1] }]⟩, ⟨n.toInt64⟩⟩
    let visible := [commit 2 "placed", commit 3 "paid", commit 6 "sent"]
    let fetch (place : Checkpoint) : Script := { items := (beyond place visible).map .ok }
    let reports := (Worker.create .start { holePolicy := .retryCount 2 }).pollAll (List.replicate 5 fetch)
    (visible.map Commit.checkpoint).Pairwise (· < ·) ∧ (∀ place, Feeds (beyond place visible) (fetch place)) ∧
      gaps .start (beyond .start visible) = 2 ∧
      reports.map PollReport.outcome = [.retry, .retry, .retry, .retry, .drained] ∧
      reports.flatMap PollReport.visits = visible.map moved := by
  intro commit visible fetch reports
  have ascending : (visible.map Commit.checkpoint).Pairwise (· < ·) := by decide
  have shown : ∀ place, Feeds (beyond place visible) (fetch place) := fun place => feeds_script _
  have two : gaps .start (beyond .start visible) = 2 := by decide
  have unchanged : ∀ other ∈ List.replicate 5 fetch, ∀ place, Checkpoint.start ≤ place →
      Feeds (beyond place visible) (other place) := by
    intro other member place _
    rw [List.eq_of_mem_replicate member]
    exact shown place
  obtain ⟨outcomes, visits⟩ := caught_up .start 2 {} visible ascending (List.replicate 5 fetch) unchanged (by rw [two]; rfl)
  rw [two] at outcomes
  exact ⟨ascending, shown, two, outcomes, visits⟩

end Poller

/-! ### Stores -/

namespace Drill

open Poller

/-- A fetch of a store behind hooks shows what can be read from its feed, whatever the hooks hide. -/
theorem Stage.feeds {σ ρ : Type} [CommitStore σ] {commits : List Commit} {feed : CommitStore.Feed (Subject σ ρ)}
    {store : Subject σ ρ} (read : (CommitStore.rest feed store).1 = commits.map .ok)
    (calls : List (Checkpoint × Action)) :
    Feeds commits ({ supply := .flowing feed, store, answers := [], calls } : Stage σ ρ) := by
  induction commits generalizing feed store calls with
  | nil =>
    rw [CommitStore.rest] at read
    split at read
    · next ended => simp [Feeds, Intake.next, Stage.next, ended]
    · simp at read
  | cons commit commits ih =>
    rw [CommitStore.rest] at read
    split at read
    · simp at read
    · next item rest after shown =>
      obtain ⟨rfl, later⟩ := List.cons.inj read
      have taken : Intake.next ({ supply := .flowing feed, store, answers := [], calls } : Stage σ ρ) =
          (some (.ok commit), { supply := .flowing rest, store := after, answers := [], calls }) := by
        simp [Intake.next, Stage.next, shown]
      rw [Feeds, taken]
      exact ⟨rfl, rfl, fun status => ⟨rfl, ih later _⟩⟩

end Drill
end CommitLog
