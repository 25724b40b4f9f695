import CommitLog.Proofs.Waiting

/-!
How often a sequencer waits out its policy at one gap. A commit beyond the gap that is delivered ends the wait, whether
the consumer moves on from it or not. If it does not, the last checkpoint read stays the same, the next offer beyond the
gap begins a wait anew, and the policy is waited out once more (`waited_out_per_refusal`).
-/

namespace CommitLog.Sequencer

variable {policy : HolePolicy} {earlier : List Round} {round : Round}

/-- A commit beyond the gap is delivered, and the consumer does not move on from it. -/
def Round.isRefused (round : Round) : Bool := round.isBeyond && round.handled.delivered.isSome && round.stays

/-- The rounds since the last checkpoint read has changed. -/
def stay (rounds : List Round) : List Round := rounds.rtakeWhile Round.stays

theorem stay_concat (earlier : List Round) (round : Round) :
    stay (earlier ++ [round]) = if round.stays then stay earlier ++ [round] else [] :=
  List.rtakeWhile_concat ..

/-- What holds after no rounds, and after each round that obeys a policy, holds after all rounds of a run. -/
theorem rounds_induct {motive : List Round → Prop} (start : Checkpoint) (policy : HolePolicy) (offers : List Offer)
    (nil : motive []) (concat : ∀ earlier round, Obeys policy earlier round → motive earlier →
      motive (earlier ++ [round])) : motive (rounds offers { lastRead := start, policy }) := by
  have obeys := fun earlier round later => @rounds_obey policy earlier round start offers later
  generalize rounds offers { lastRead := start, policy } = made at obeys
  induction made using List.reverseRecOn with
  | nil => exact nil
  | append_singleton earlier round ih =>
    refine concat earlier round (obeys earlier round [] rfl) (ih fun before other after split => ?_)
    exact obeys before other (after ++ [round]) (by simp [split])

/-- How often a policy has been waited out since the last checkpoint read has changed: once for each refusal of a commit
beyond the gap, and in part since then. -/
structure Spent (limit : UInt32) (rounds : List Round) : Prop where
  tries : (stay rounds).countP Round.isHeld =
    limit.toNat * (stay rounds).countP Round.isRefused + (wait rounds).length
  most : (wait rounds).length ≤ limit.toNat
  held : ∀ round ∈ wait rounds, round.isHeld

theorem Spent.nil (limit : UInt32) : Spent limit [] where
  tries := by simp [stay, wait]
  most := by simp [wait]
  held := by simp [wait]

theorem Spent.concat {limit : UInt32} (spent : Spent limit earlier)
    (obeys : Obeys (.retryCount limit) earlier round) : Spent limit (earlier ++ [round]) := by
  obtain ⟨tries, most, held⟩ := spent
  have answered := countP_retry held
  cases stays : round.stays with
  | false =>
    have cleared : wait (earlier ++ [round]) = [] := by simp [wait_concat, Round.endsWait, stays]
    have moved : stay (earlier ++ [round]) = [] := by simp [stay_concat, stays]
    exact ⟨by simp [cleared, moved], by simp [cleared], by simp [cleared]⟩
  | true =>
    have longer : stay (earlier ++ [round]) = stay earlier ++ [round] := by simp [stay_concat, stays]
    by_cases beyond : round.isBeyond
    · by_cases due : Due (.retryCount limit) earlier round.offer
      · -- The policy has been waited out, and the consumer has refused the commit.
        have delivered := obeys.due beyond due
        have cleared : wait (earlier ++ [round]) = [] := by simp [wait_concat, Round.endsWait, beyond, delivered]
        have whole : (wait earlier).length = limit.toNat := answered.symm.trans due
        refine ⟨?_, by simp [cleared], by simp [cleared]⟩
        rw [longer, cleared, List.countP_append, List.countP_append, tries, whole]
        simp [Round.isHeld, Round.isRefused, beyond, delivered, stays, Nat.mul_add]
      · -- One more try.
        have again := obeys.held beyond due
        have more : wait (earlier ++ [round]) = wait earlier ++ [round] := by
          simp [wait_concat, Round.endsWait, beyond, again, stays]
        have short : (wait earlier).length ≠ limit.toNat := fun whole => due (answered.trans whole)
        refine ⟨?_, ?_, ?_⟩
        · rw [longer, more, List.countP_append, List.countP_append, tries]
          simp [Round.isHeld, Round.isRefused, again]
          omega
        · rw [more, List.length_append, List.length_singleton]
          omega
        · rw [more]
          intro other member
          rcases List.mem_append.1 member with old | new
          · exact held other old
          · rw [List.mem_singleton.1 new]
            exact decide_eq_true again
    · -- The offer has no part in the wait.
      have same : wait (earlier ++ [round]) = wait earlier := by simp [wait_concat, Round.endsWait, beyond, stays]
      have other : round.isHeld = false := by
        rw [Round.isBeyond, decide_eq_true_eq] at beyond
        by_cases behind : round.offer.checkpoint ≤ round.before.lastRead
        · simp [Round.isHeld, obeys.read behind]
        · rw [Checkpoint.le_iff] at behind
          simp [Round.isHeld, obeys.next (by omega)]
      refine ⟨?_, by rwa [same], by rwa [same]⟩
      rw [longer, same, List.countP_append, List.countP_append, tries]
      simp [other, Round.isRefused, beyond]

/-- A round that ends the wait begins the next. -/
theorem wait_after {ending : Round} {between : List Round} (ends : ending.endsWait = true) (earlier : List Round)
    (goesOn : ∀ other ∈ between, other.endsWait = false) : wait (earlier ++ ending :: between) = wait between := by
  induction between using List.reverseRecOn with
  | nil =>
    rw [wait_concat, if_pos ends]
    rfl
  | append_singleton between last ih =>
    have same := ih fun other member => goesOn other (List.mem_append_left _ member)
    rw [← List.cons_append, ← List.append_assoc, wait_concat, wait_concat, same]

/-- A round in which a commit beyond the gap is not delivered is one in which it is held back. -/
theorem Obeys.held_iff (obeys : Obeys policy earlier round) (beyond : round.isBeyond) :
    round.isHeld ↔ ¬ Due policy earlier round.offer := by
  constructor
  · intro held due
    simp [Round.isHeld, obeys.due beyond due] at held
  · intro early
    exact decide_eq_true (obeys.held beyond early)

/-- While the last checkpoint read stays the same, a policy is waited out once for each commit beyond the gap that the
consumer refuses, and once more at most. A number of tries is made in full before each of them; a time begins anew with
the first offer beyond the gap after it, and until it is over all offers beyond the gap are held back again. -/
theorem waited_out_per_refusal (start : Checkpoint) (offers : List Offer) :
    (∀ limit,
      let made := rounds offers { lastRead := start, policy := .retryCount limit }
      (stay made).countP Round.isHeld = limit.toNat * (stay made).countP Round.isRefused + (wait made).length ∧
        (wait made).length ≤ limit.toNat) ∧
    (∀ limit earlier refused between round later,
      rounds offers { lastRead := start, policy := .elapsed limit } =
        earlier ++ refused :: between ++ round :: later →
      refused.isRefused → (∀ other ∈ between, other.endsWait = false) → round.isBeyond →
        (round.isHeld ↔ round.offer.clock - firstSeen between round.offer < limit)) := by
  constructor
  · intro limit made
    have spent : Spent limit made :=
      rounds_induct start (.retryCount limit) offers (.nil limit) fun _ _ obeys spent => spent.concat obeys
    exact ⟨spent.tries, spent.most⟩
  · intro limit earlier refused between round later split refusal goesOn beyond
    have obeys := rounds_obey split
    have ends : refused.endsWait = true := by
      simp only [Round.isRefused, Bool.and_eq_true] at refusal
      simp [Round.endsWait, refusal]
    rw [obeys.held_iff beyond, Due, firstSeen, wait_after ends earlier goesOn, Nat.not_le, firstSeen]

/-- A commit beyond the gap that the consumer refuses once the policy has been waited out is held back again. -/
theorem held_again_after_refusal :
    let offer (clock : Nat) (reply : Reply) : Offer := ⟨⟨3⟩, clock, reply⟩
    let offers := [offer 0 .moveToNext, offer 10 .retry, offer 20 .moveToNext]
    let seen (policy : HolePolicy) := (rounds offers { lastRead := ⟨0⟩, policy }).map Round.handled
    seen (.retryCount 1) = [⟨.retry, none⟩, ⟨.retry, some ⟨3⟩⟩, ⟨.retry, none⟩] ∧
      (stay (rounds offers { lastRead := ⟨0⟩, policy := .retryCount 1 })).countP Round.isHeld = 2 ∧
      seen (.elapsed 10) = [⟨.retry, none⟩, ⟨.retry, some ⟨3⟩⟩, ⟨.retry, none⟩] := by
  decide

end CommitLog.Sequencer
