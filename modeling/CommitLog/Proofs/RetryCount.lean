import CommitLog.Proofs.Waiting

/-!
How far a sequencer counts. It asks for the checkpoint after the last one read only when another lies beyond, so that
there is one. Tries are counted in a word. A policy with a number of tries ends a wait before the word is full. A
policy with a time does not end it before the time is up, however many tries there are, and the one that no longer
fits (`Overcounts`) is what makes a sequencer fail. Nothing else does (`fails_only_overcounted`).
-/

namespace CommitLog

theorem Hole.countRetry_error {hole : Hole} {overflow : Overflow} (fails : hole.countRetry = .error overflow) :
    overflow = .add := by
  unfold countRetry at fails
  split at fails
  · contradiction
  · cases fails
    rfl

namespace Sequencer

/-- An offer that would have to be held back, in a wait in which no more can be counted. -/
structure Overcounts (policy : HolePolicy) (earlier : List Round) (place : Checkpoint) (offer : Offer) : Prop where
  beyond : place.toInt + 1 < offer.checkpoint.toInt
  early : ∃ limit, policy = .elapsed limit ∧ offer.clock - firstSeen earlier offer < limit
  full : (wait earlier).length + 1 = UInt32.size

/-- The sequencer that some rounds leave. -/
def ending (sequencer : Sequencer) (made : List Round) : Sequencer :=
  (made.getLast?.map Round.after).getD sequencer

theorem ending_cons (sequencer : Sequencer) (round : Round) (later : List Round) :
    ending sequencer (round :: later) = ending round.after later := by
  simp only [ending, List.getLast?_cons]
  cases later.getLast? <;> rfl

/-- There is a checkpoint after one that another lies beyond. -/
theorem exists_next_of_ahead {place checkpoint : Checkpoint} (ahead : place < checkpoint) :
    ∃ expected, place.next = .ok expected := by
  rw [Checkpoint.lt_iff] at ahead
  have last := checkpoint.toInt_lt
  exact Checkpoint.exists_next (by omega)

variable {policy : HolePolicy} {earlier : List Round} {sequencer : Sequencer}

/-- An offer is answered unless it overcounts. -/
theorem Tied.handle_cases (tied : Tied policy earlier sequencer) (offer : Offer) :
    (sequencer.handle offer.checkpoint offer.clock offer.reply = .error .add ∧
        Overcounts policy earlier sequencer.lastRead offer) ∨
      ((∃ result, sequencer.handle offer.checkpoint offer.clock offer.reply = .ok result) ∧
        ¬ Overcounts policy earlier sequencer.lastRead offer) := by
  have outcome := offered offer.checkpoint offer.clock sequencer
  rw [Sequencer.handle]
  generalize sequencer.offer offer.checkpoint offer.clock = answer at outcome
  cases outcome with
  | read behind =>
    refine .inr ⟨⟨_, rfl⟩, fun excess => ?_⟩
    have beyond := excess.beyond
    rw [Checkpoint.le_iff] at behind
    omega
  | next follows =>
    refine .inr ⟨⟨_, rfl⟩, fun excess => ?_⟩
    have beyond := excess.beyond
    omega
  | unordered _ disabled =>
    refine .inr ⟨⟨_, rfl⟩, fun excess => ?_⟩
    obtain ⟨limit, timed, -⟩ := excess.early
    rw [tied.under, timed] at disabled
    contradiction
  | due _ _ follows waited =>
    refine .inr ⟨⟨_, rfl⟩, fun excess => ?_⟩
    obtain ⟨limit, rfl, early⟩ := excess.early
    have due : limit ≤ offer.clock - firstSeen earlier offer := (tied.exceeded_iff follows).1 waited
    omega
  | @held expected counted _ _ follows _ counts =>
    refine .inr ⟨⟨_, rfl⟩, fun excess => ?_⟩
    obtain ⟨-, -, retries⟩ := tied.records.holeAt offer follows
    obtain ⟨-, -, one⟩ := Hole.countRetry_eq_ok counts
    have full := excess.full
    have small := counted.retries.toNat_lt
    have size : UInt32.size = 4294967296 := rfl
    omega
  | uncounted beyond ordered follows waiting full =>
    obtain rfl := Hole.countRetry_error full
    obtain ⟨-, -, retries⟩ := tied.records.holeAt offer follows
    have most := Hole.countRetry_eq_error full
    rw [retries] at most
    have notDue : ¬ Due policy earlier offer := by
      rw [← tied.exceeded_iff follows, waiting]
      exact Bool.false_ne_true
    refine .inl ⟨rfl, beyond, ?_, most⟩
    cases policy with
    | elapsed limit => exact ⟨limit, rfl, Nat.not_le.1 notDue⟩
    | retryCount limit =>
      -- So many tries would have been enough.
      have enough := tied.limited limit rfl
      have small := limit.toNat_lt
      have early : (wait earlier).length ≠ limit.toNat := by rwa [Due, countP_retry tied.held] at notDue
      have size : UInt32.size = 4294967296 := rfl
      omega
    | disabled => exact absurd trivial notDue

/-- In a run every offer is answered, up to one that overcounts. -/
theorem Tied.rounds_cases (tied : Tied policy earlier sequencer) (offers : List Offer) :
    (∀ before round after, rounds offers sequencer = before ++ round :: after →
        ¬ Overcounts policy (earlier ++ before) round.before.lastRead round.offer) ∧
      ∃ left, offers = (rounds offers sequencer).map Round.offer ++ left ∧ ∀ offer ∈ left.head?,
        Overcounts policy (earlier ++ rounds offers sequencer) (ending sequencer (rounds offers sequencer)).lastRead offer ∧
          (ending sequencer (rounds offers sequencer)).handle offer.checkpoint offer.clock offer.reply = .error .add := by
  induction offers generalizing earlier sequencer with
  | nil => exact ⟨by simp [rounds], [], rfl, by simp⟩
  | cons offer offers ih =>
    have kept := tied.handle offer
    rw [rounds]
    rcases tied.handle_cases offer with ⟨failed, excess⟩ | ⟨⟨⟨handled, after⟩, answered⟩, within⟩
    · rw [failed]
      refine ⟨by simp, offer :: offers, rfl, ?_⟩
      rintro _ ⟨⟩
      rw [List.append_nil]
      exact ⟨excess, failed⟩
    · rw [answered] at kept ⊢
      obtain ⟨never, left, split, ends⟩ := ih kept.2
      dsimp only
      refine ⟨fun before round later parts => ?_, left, ?_, ?_⟩
      · rcases List.cons_eq_append_iff.1 parts with ⟨rfl, same⟩ | ⟨rest, rfl, same⟩
        · cases same
          rwa [List.append_nil]
        · rw [List.append_cons]
          exact never rest round later same
      · rw [List.map_cons, List.cons_append, ← split]
      · rwa [ending_cons, List.append_cons]

/-! ### A run -/

theorem length_wait_le (made : List Round) : (wait made).length ≤ made.length :=
  Nat.le_trans (List.length_filter_le ..) (List.rtakeWhile_suffix _ made).length_le

/-- Whatever is offered, and whatever the clock shows and the consumer replies: a checkpoint is only asked for where
there is one, and of all offers only one that overcounts is not answered, for which there must be a policy with a time
and a whole word of offers. -/
theorem fails_only_overcounted (start : Checkpoint) (policy : HolePolicy) (offers : List Offer) :
    let fresh : Sequencer := { lastRead := start, policy }
    let made := rounds offers fresh
    (∀ place checkpoint : Checkpoint, place < checkpoint → ∃ expected, place.next = .ok expected) ∧
      (∀ before round after, made = before ++ round :: after →
        ¬ Overcounts policy before round.before.lastRead round.offer) ∧
      (∃ left, offers = made.map Round.offer ++ left ∧ ∀ offer ∈ left.head?,
        Overcounts policy made (ending fresh made).lastRead offer ∧
          (ending fresh made).handle offer.checkpoint offer.clock offer.reply = .error .add) ∧
      ((∀ limit, policy ≠ .elapsed limit) ∨ offers.length < UInt32.size → made.map Round.offer = offers) := by
  intro fresh made
  obtain ⟨never, left, split, ends⟩ := (Tied.start start policy).rounds_cases offers
  refine ⟨fun _ _ => exists_next_of_ahead, never, ⟨left, split, ends⟩, fun safe => ?_⟩
  cases left with
  | nil => rw [split, List.append_nil]
  | cons offer rest =>
    obtain ⟨excess, -⟩ := ends offer rfl
    rcases safe with timeless | few
    · obtain ⟨limit, timed, -⟩ := excess.early
      exact absurd timed (timeless limit)
    · have full : (wait made).length + 1 = UInt32.size := excess.full
      have most := length_wait_le made
      have length : offers.length = made.length + (rest.length + 1) := by
        rw [← List.length_cons, ← List.length_map Round.offer, ← List.length_append]
        exact congrArg List.length split
      omega

theorem holeAt_expected (expected : Checkpoint) (now : Nat) (sequencer : Sequencer) :
    (sequencer.holeAt expected now).expected = expected := by
  unfold holeAt
  split
  · split
    · next same => exact same
    · rfl
  · rfl

section

variable {limit : Nat} {offer : Offer} {expected : Checkpoint}

/-- An offer beyond a gap that comes too early is counted, if it can be. -/
theorem handle_early (timed : sequencer.policy = .elapsed limit) (follows : sequencer.lastRead.next = .ok expected)
    (beyond : sequencer.lastRead.toInt + 1 < offer.checkpoint.toInt)
    (early : offer.clock - (sequencer.holeAt expected offer.clock).firstSeen < limit) :
    sequencer.handle offer.checkpoint offer.clock offer.reply =
      (sequencer.holeAt expected offer.clock).countRetry.map fun counted =>
        (⟨.retry, none⟩, { sequencer with hole := some counted }) := by
  have ahead : ¬ offer.checkpoint ≤ sequencer.lastRead := by
    rw [Checkpoint.le_iff]
    omega
  have other : ¬ (offer.checkpoint = expected ∨ sequencer.policy = .disabled) := by
    rintro (same | disabled)
    · have next := Checkpoint.toInt_next follows
      rw [same] at beyond
      omega
    · rw [timed] at disabled
      contradiction
  have waiting : ¬ exceeded sequencer.policy (sequencer.holeAt expected offer.clock) offer.clock = true := by
    rw [timed]
    simpa [exceeded] using early
  rw [Sequencer.handle, Sequencer.offer, if_neg ahead, follows]
  simp only [bind, Except.bind, pure, Except.pure]
  rw [if_neg other, if_neg waiting]
  cases (sequencer.holeAt expected offer.clock).countRetry <;> rfl

/-- One and the same offer, early and beyond a gap, is held back until no more can be counted. -/
theorem length_rounds_replicate {count : Nat} (timed : sequencer.policy = .elapsed limit)
    (follows : sequencer.lastRead.next = .ok expected)
    (beyond : sequencer.lastRead.toInt + 1 < offer.checkpoint.toInt)
    (early : offer.clock - (sequencer.holeAt expected offer.clock).firstSeen < limit)
    (room : (sequencer.holeAt expected offer.clock).retries.toNat + count + 1 = UInt32.size) :
    (rounds (List.replicate (count + 1) offer) sequencer).length = count := by
  induction count generalizing sequencer with
  | zero =>
    have full : (sequencer.holeAt expected offer.clock).countRetry = .error .add := if_neg (by omega)
    rw [List.replicate_one, rounds, handle_early timed follows beyond early, full]
    rfl
  | succ count ih =>
    obtain ⟨counted, counts⟩ : ∃ counted, (sequencer.holeAt expected offer.clock).countRetry = .ok counted :=
      ⟨_, if_pos (by omega)⟩
    obtain ⟨known, seen, one⟩ := Hole.countRetry_eq_ok counts
    have found : Sequencer.holeAt expected offer.clock { sequencer with hole := some counted } = counted :=
      if_pos (known.trans (holeAt_expected expected offer.clock sequencer))
    rw [List.replicate_succ, rounds, handle_early timed follows beyond early, counts]
    exact congrArg Nat.succ (ih timed follows beyond (by rwa [found, seen]) (by rw [found, one]; omega))

end

/-- A commit beyond a gap that is offered as often as there are words, while the clock stands still, is held back each
time but the last, at which the sequencer fails. -/
theorem fails_in_long_wait :
    let fresh : Sequencer := { lastRead := ⟨0⟩, policy := .elapsed 1 }
    let offers : List Offer := List.replicate UInt32.size ⟨⟨2⟩, 0, .moveToNext⟩
    let made := rounds offers fresh
    made.length + 1 = offers.length ∧ (ending fresh made).handle ⟨2⟩ 0 .moveToNext = .error .add := by
  intro fresh offers made
  -- The word stays a number here: a list of so many offers is not to be written out.
  obtain ⟨count, size⟩ : ∃ count, count + 1 = UInt32.size := ⟨4294967295, rfl⟩
  have held : made.length = count := by
    have room : (Sequencer.holeAt ⟨1⟩ 0 fresh).retries.toNat + count + 1 = UInt32.size := by
      rw [← size, show (Sequencer.holeAt ⟨1⟩ 0 fresh).retries.toNat = 0 from rfl, Nat.zero_add]
    have long := @length_rounds_replicate fresh 1 ⟨⟨2⟩, 0, .moveToNext⟩ ⟨1⟩ count rfl rfl (by decide) (by decide) room
    rwa [size] at long
  have whole : offers.length = count + 1 := (List.length_replicate ..).trans size.symm
  refine ⟨by rw [held, whole], ?_⟩
  obtain ⟨-, left, split, ends⟩ := (Tied.start ⟨0⟩ (.elapsed 1)).rounds_cases offers
  cases left with
  | nil =>
    have all : offers.length = made.length := by
      rw [← List.length_map Round.offer, ← List.append_nil (made.map Round.offer)]
      exact congrArg List.length split
    omega
  | cons last rest =>
    have among : last ∈ offers := by
      rw [split]
      simp
    have same : last = ⟨⟨2⟩, 0, .moveToNext⟩ := List.eq_of_mem_replicate among
    obtain ⟨-, failed⟩ := ends last rfl
    rwa [same] at failed

end Sequencer
end CommitLog
