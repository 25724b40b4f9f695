import CommitLog.Proofs.Journal
import CommitLog.Proofs.Poller.Course
import Mathlib.Data.List.DropRight

/-!
How long a sequencer waits. Of all the offers there have been only those of the wait that is going on matter: the
offers beyond the gap since the last checkpoint read has changed or a commit beyond the gap was delivered (`wait`).
What a sequencer records of a hole is the first of them and their number (`Tied`), so that it waits exactly as its
policy says (`waits_as_policy`).
-/

namespace CommitLog

/-- A retry that is counted leaves the rest of the hole as it is. -/
theorem Hole.countRetry_eq_ok {hole counted : Hole} (counts : hole.countRetry = .ok counted) :
    counted.expected = hole.expected ∧ counted.firstSeen = hole.firstSeen ∧
      counted.retries.toNat = hole.retries.toNat + 1 := by
  unfold countRetry at counts
  split at counts
  · next room =>
    cases counts
    have size : UInt32.size = 4294967296 := rfl
    refine ⟨rfl, rfl, ?_⟩
    simp only [UInt32.toNat_add, UInt32.toNat_one]
    omega
  · contradiction

/-- The counter is full at the last word. -/
theorem Hole.countRetry_eq_error {hole : Hole} {overflow : Overflow} (full : hole.countRetry = .error overflow) :
    hole.retries.toNat + 1 = UInt32.size := by
  unfold countRetry at full
  split at full
  · contradiction
  · have small := hole.retries.toNat_lt
    have size : UInt32.size = 4294967296 := rfl
    omega

namespace Sequencer

/-! ### One offer -/

/-- What an offer may come to. -/
inductive Offered (checkpoint : Checkpoint) (now : Nat) (sequencer : Sequencer) :
    Except Overflow (Decision × Sequencer) → Prop where
  | read (behind : checkpoint ≤ sequencer.lastRead) : Offered checkpoint now sequencer (.ok (.skip, sequencer))
  | next (follows : checkpoint.toInt = sequencer.lastRead.toInt + 1) :
    Offered checkpoint now sequencer (.ok (.deliver, sequencer))
  | unordered (beyond : sequencer.lastRead.toInt + 1 < checkpoint.toInt) (policy : sequencer.policy = .disabled) :
    Offered checkpoint now sequencer (.ok (.deliver, sequencer))
  | due {expected : Checkpoint} (beyond : sequencer.lastRead.toInt + 1 < checkpoint.toInt)
    (policy : sequencer.policy ≠ .disabled) (follows : expected.toInt = sequencer.lastRead.toInt + 1)
    (waited : exceeded sequencer.policy (sequencer.holeAt expected now) now = true) :
    Offered checkpoint now sequencer (.ok (.deliver, { sequencer with hole := none }))
  | held {expected : Checkpoint} {counted : Hole} (beyond : sequencer.lastRead.toInt + 1 < checkpoint.toInt)
    (policy : sequencer.policy ≠ .disabled) (follows : expected.toInt = sequencer.lastRead.toInt + 1)
    (waiting : exceeded sequencer.policy (sequencer.holeAt expected now) now = false)
    (counts : (sequencer.holeAt expected now).countRetry = .ok counted) :
    Offered checkpoint now sequencer (.ok (.hold, { sequencer with hole := some counted }))
  | uncounted {expected : Checkpoint} {overflow : Overflow} (beyond : sequencer.lastRead.toInt + 1 < checkpoint.toInt)
    (policy : sequencer.policy ≠ .disabled) (follows : expected.toInt = sequencer.lastRead.toInt + 1)
    (waiting : exceeded sequencer.policy (sequencer.holeAt expected now) now = false)
    (full : (sequencer.holeAt expected now).countRetry = .error overflow) :
    Offered checkpoint now sequencer (.error overflow)

theorem offered (checkpoint : Checkpoint) (now : Nat) (sequencer : Sequencer) :
    Offered checkpoint now sequencer (sequencer.offer checkpoint now) := by
  unfold offer
  by_cases behind : checkpoint ≤ sequencer.lastRead
  · rw [if_pos behind]
    exact .read behind
  rw [if_neg behind]
  have ahead : sequencer.lastRead.toInt < checkpoint.toInt := Checkpoint.not_le.1 behind
  have last := checkpoint.toInt_lt
  obtain ⟨expected, next⟩ := @Checkpoint.exists_next sequencer.lastRead (by omega)
  have follows := Checkpoint.toInt_next next
  simp only [next, bind, Except.bind, pure, Except.pure]
  by_cases same : checkpoint = expected
  · rw [if_pos (.inl same)]
    exact .next (same ▸ follows)
  have beyond : sequencer.lastRead.toInt + 1 < checkpoint.toInt := by
    have other : checkpoint.toInt ≠ expected.toInt := fun equal => same (Checkpoint.eq_of_toInt equal)
    omega
  by_cases policy : sequencer.policy = .disabled
  · rw [if_pos (.inr policy)]
    exact .unordered beyond policy
  rw [if_neg (not_or.2 ⟨same, policy⟩)]
  cases waited : exceeded sequencer.policy (sequencer.holeAt expected now) now with
  | true => exact .due beyond policy follows waited
  | false =>
    cases counts : (sequencer.holeAt expected now).countRetry with
    | error => exact .uncounted beyond policy follows waited counts
    | ok => exact .held beyond policy follows waited counts

/-! ### Rounds -/

/-- A commit that is offered: the clock, and what the consumer replies if it is delivered. -/
structure Offer where
  checkpoint : Checkpoint
  clock : Nat
  reply : Reply
  deriving DecidableEq

/-- An offer and what came of it. -/
structure Round where
  before : Sequencer
  offer : Offer
  handled : Handled
  after : Sequencer
  deriving DecidableEq

/-- Makes offers in order, until there are no more or a number leaves its word. -/
def rounds : List Offer → Sequencer → List Round
  | [], _ => []
  | offer :: offers, sequencer =>
    match sequencer.handle offer.checkpoint offer.clock offer.reply with
    | .error _ => []
    | .ok (handled, after) => ⟨sequencer, offer, handled, after⟩ :: rounds offers after

namespace Round

/-- The commit lies beyond the one that follows the last one read. -/
def isBeyond (round : Round) : Bool := round.before.lastRead.toInt + 1 < round.offer.checkpoint.toInt

/-- The sequencer itself asks for another try; the consumer is not called. -/
def isHeld (round : Round) : Bool := round.handled = ⟨.retry, none⟩

/-- The last checkpoint read stays the same. -/
def stays (round : Round) : Bool := round.after.lastRead = round.before.lastRead

/-- No wait goes on past this: the last checkpoint read changes, or a commit beyond the gap is delivered. -/
def endsWait (round : Round) : Bool := !round.stays || round.isBeyond && round.handled.delivered.isSome

/-- The checkpoint that the consumer has moved on from. -/
def accepted (round : Round) : Option Checkpoint :=
  if round.handled.reply = .moveToNext then round.handled.delivered else none

end Round

/-- The offers beyond the gap in the wait that is going on. -/
def wait (rounds : List Round) : List Round := (rounds.rtakeWhile fun round => !round.endsWait).filter Round.isBeyond

/-- The clock at the first offer beyond the gap in the wait that an offer belongs to. -/
def firstSeen (earlier : List Round) (offer : Offer) : Nat :=
  ((wait earlier).head?.map fun first => first.offer.clock).getD offer.clock

/-- The wait has been long enough for the policy: the clock has advanced by so much since the first offer beyond the
gap, or so many of them have been answered with another try. -/
def Due (policy : HolePolicy) (earlier : List Round) (offer : Offer) : Prop :=
  match policy with
  | .elapsed limit => limit ≤ offer.clock - firstSeen earlier offer
  | .retryCount limit => ((wait earlier).countP fun round => round.handled.reply = .retry) = limit.toNat
  | .disabled => True

/-- What comes of an offer after others. -/
structure Obeys (policy : HolePolicy) (earlier : List Round) (round : Round) : Prop where
  /-- What has been read before is not delivered. -/
  read : round.offer.checkpoint ≤ round.before.lastRead → round.handled = ⟨.moveToNext, none⟩
  /-- What follows is delivered at once. -/
  next : round.offer.checkpoint.toInt = round.before.lastRead.toInt + 1 →
    round.handled = ⟨round.offer.reply, some round.offer.checkpoint⟩
  due : round.isBeyond → Due policy earlier round.offer →
    round.handled = ⟨round.offer.reply, some round.offer.checkpoint⟩
  held : round.isBeyond → ¬ Due policy earlier round.offer → round.handled = ⟨.retry, none⟩
  /-- Only a commit that the consumer moves on from changes the last checkpoint read. -/
  moves : round.after.lastRead = round.accepted.getD round.before.lastRead
  /-- A hole is the checkpoint that follows the last one read. -/
  hole : ∀ hole ∈ round.after.hole, hole.expected.toInt = round.after.lastRead.toInt + 1

/-- There have been as many tries in the wait that an offer belongs to as can be counted, and it needs one more. -/
def Uncounted (policy : HolePolicy) (earlier : List Round) (offer : Offer) : Prop :=
  ¬ Due policy earlier offer ∧ (wait earlier).countP Round.isHeld + 1 = UInt32.size

/-! ### The record of a hole -/

/-- A hole says of the offers in a wait which was the first, and how many there are. -/
inductive Records (place : Checkpoint) : Option Hole → List Round → Prop where
  | nothing : Records place none []
  | hole {hole : Hole} {first : Round} {others : List Round} (expected : hole.expected.toInt = place.toInt + 1)
    (seen : hole.firstSeen = first.offer.clock) (retries : hole.retries.toNat = (first :: others).length) :
    Records place (some hole) (first :: others)

/-- A sequencer has recorded the wait that is going on. -/
structure Tied (policy : HolePolicy) (earlier : List Round) (sequencer : Sequencer) : Prop where
  under : sequencer.policy = policy
  records : Records sequencer.lastRead sequencer.hole (wait earlier)
  held : ∀ round ∈ wait earlier, round.isHeld
  limited : ∀ limit, policy = .retryCount limit → (wait earlier).length ≤ limit.toNat
  unordered : policy = .disabled → wait earlier = []

variable {policy : HolePolicy} {earlier : List Round} {sequencer : Sequencer} {round : Round} {offer : Offer}

theorem wait_concat (earlier : List Round) (round : Round) :
    wait (earlier ++ [round]) =
      if round.endsWait then [] else wait earlier ++ if round.isBeyond then [round] else [] := by
  rw [wait, List.rtakeWhile_concat]
  cases ends : round.endsWait with
  | true => simp
  | false =>
    cases beyond : round.isBeyond <;> simp [wait, beyond]

theorem Tied.start (place : Checkpoint) (policy : HolePolicy) : Tied policy [] { lastRead := place, policy } where
  under := rfl
  records := .nothing
  held round member := by simp [wait] at member
  limited limit _ := by simp [wait]
  unordered _ := rfl

/-- All offers in a wait have been held back. -/
theorem Tied.countP_held (tied : Tied policy earlier sequencer) :
    (wait earlier).countP Round.isHeld = (wait earlier).length :=
  List.countP_eq_length.2 tied.held

theorem countP_retry {rounds : List Round} (held : ∀ round ∈ rounds, round.isHeld) :
    (rounds.countP fun round => round.handled.reply = .retry) = rounds.length := by
  refine List.countP_eq_length.2 fun round member => ?_
  simp [of_decide_eq_true (held round member)]

/-- The hole before a checkpoint is the one that is recorded. -/
theorem Records.holeAt {expected : Checkpoint} (records : Records sequencer.lastRead sequencer.hole (wait earlier))
    (offer : Offer) (follows : expected.toInt = sequencer.lastRead.toInt + 1) :
    (sequencer.holeAt expected offer.clock).expected = expected ∧
      (sequencer.holeAt expected offer.clock).firstSeen = firstSeen earlier offer ∧
      (sequencer.holeAt expected offer.clock).retries.toNat = (wait earlier).length := by
  unfold Sequencer.holeAt firstSeen
  generalize sequencer.hole = recorded at records
  generalize wait earlier = waiting at records
  cases records with
  | nothing => exact ⟨rfl, rfl, rfl⟩
  | hole known seen retries =>
    have same := Checkpoint.eq_of_toInt (known.trans follows.symm)
    simp only [same, if_true]
    exact ⟨trivial, seen, retries⟩

/-- The wait has been long enough for what is recorded of it exactly if it has been so for the policy. -/
theorem Tied.exceeded_iff (tied : Tied policy earlier sequencer) {expected : Checkpoint}
    (follows : expected.toInt = sequencer.lastRead.toInt + 1) :
    exceeded sequencer.policy (sequencer.holeAt expected offer.clock) offer.clock = true ↔
      Due policy earlier offer := by
  obtain ⟨-, seen, retries⟩ := tied.records.holeAt offer follows
  rw [tied.under]
  cases policy with
  | elapsed limit => simp [exceeded, Due, seen]
  | retryCount limit =>
    have most := tied.limited limit rfl
    simp only [exceeded, Due, countP_retry tied.held, decide_eq_true_eq, UInt32.le_iff_toNat_le, retries]
    omega
  | disabled => simp [exceeded, Due]

theorem Records.expected {place : Checkpoint} {recorded : Option Hole} {waiting : List Round}
    (records : Records place recorded waiting) : ∀ hole ∈ recorded, hole.expected.toInt = place.toInt + 1 := by
  intro hole known
  cases records with
  | nothing => cases known
  | hole expected _ _ =>
    cases known
    exact expected

/-! ### One round -/

/-- A wait that is over leaves nothing to record. -/
theorem Tied.ended (ends : round.endsWait = true) (under : sequencer.policy = policy) (bare : sequencer.hole = none) :
    Tied policy (earlier ++ [round]) sequencer := by
  have cleared : wait (earlier ++ [round]) = [] := by rw [wait_concat, if_pos ends]
  constructor
  · exact under
  · rw [bare, cleared]
    exact .nothing
  · simp [cleared]
  · simp [cleared]
  · exact fun _ => cleared

/-- An offer that is not beyond the gap has no part in the wait. -/
theorem Tied.aside (tied : Tied policy earlier sequencer) (ends : round.endsWait = false)
    (near : round.isBeyond = false) : Tied policy (earlier ++ [round]) sequencer := by
  have same : wait (earlier ++ [round]) = wait earlier := by simp [wait_concat, ends, near]
  constructor
  · exact tied.under
  · rw [same]
    exact tied.records
  · rw [same]
    exact tied.held
  · rw [same]
    exact tied.limited
  · rw [same]
    exact tied.unordered

/-- An offer that is held back prolongs the wait. -/
theorem Tied.prolonged (tied : Tied policy earlier sequencer) (round : Round) (held : round.isHeld) (beyond : round.isBeyond)
    (ends : round.endsWait = false) (ordered : sequencer.policy ≠ .disabled) {expected : Checkpoint}
    (follows : expected.toInt = sequencer.lastRead.toInt + 1)
    (waiting : exceeded sequencer.policy (sequencer.holeAt expected round.offer.clock) round.offer.clock = false)
    {counted : Hole} (counts : (sequencer.holeAt expected round.offer.clock).countRetry = .ok counted) :
    Tied policy (earlier ++ [round]) { sequencer with hole := some counted } := by
  obtain ⟨known, seen, retries⟩ := tied.records.holeAt round.offer follows
  obtain ⟨sameExpected, sameSeen, one⟩ := Hole.countRetry_eq_ok counts
  have longer : wait (earlier ++ [round]) = wait earlier ++ [round] := by simp [wait_concat, ends, beyond]
  constructor
  · exact tied.under
  · rw [longer]
    have next : counted.expected.toInt = sequencer.lastRead.toInt + 1 := by rw [sameExpected, known, follows]
    have more : counted.retries.toNat = (wait earlier ++ [round]).length := by
      rw [one, retries, List.length_append, List.length_singleton]
    rw [firstSeen] at seen
    cases among : wait earlier with
    | nil =>
      rw [among] at seen more
      exact .hole next (sameSeen.trans seen) more
    | cons first others =>
      rw [among] at seen more
      exact .hole next (sameSeen.trans seen) more
  · rw [longer]
    intro other member
    rcases List.mem_append.1 member with old | new
    · exact tied.held other old
    · rw [List.mem_singleton.1 new]
      exact held
  · intro limit under
    have short : ¬ limit ≤ (sequencer.holeAt expected round.offer.clock).retries := by
      rw [tied.under, under] at waiting
      simpa [exceeded] using waiting
    rw [UInt32.le_iff_toNat_le, retries] at short
    rw [longer, List.length_append, List.length_singleton]
    omega
  · exact fun disabled => absurd (tied.under.trans disabled) ordered

/-- What is delivered obeys the policy if it follows or the wait has been long enough. -/
theorem Obeys.delivered {opened : Sequencer} (ahead : sequencer.lastRead < offer.checkpoint)
    (place : opened.lastRead = sequencer.lastRead)
    (due : sequencer.lastRead.toInt + 1 < offer.checkpoint.toInt → Due policy earlier offer)
    (hole : ∀ hole ∈ (opened.settle offer.checkpoint offer.reply).hole,
      hole.expected.toInt = (opened.settle offer.checkpoint offer.reply).lastRead.toInt + 1) :
    Obeys policy earlier ⟨sequencer, offer, ⟨offer.reply, some offer.checkpoint⟩,
      opened.settle offer.checkpoint offer.reply⟩ where
  read behind := absurd (Checkpoint.lt_of_le_of_lt behind ahead) (Checkpoint.lt_irrefl _)
  next _ := rfl
  due _ _ := rfl
  held beyond early := absurd (due (of_decide_eq_true beyond)) early
  moves := by
    by_cases moves : offer.reply = .moveToNext
    · have reached : (opened.settle offer.checkpoint .moveToNext).lastRead = offer.checkpoint :=
        lastRead_settle (place ▸ ahead)
      simp [Round.accepted, moves, reached]
    · simp [Round.accepted, moves, settle_of_stay, place]
  hole := hole

/-- A commit that is delivered from beyond the gap, or that is accepted, ends the wait; any other is no part of it. -/
theorem Tied.delivered (tied : Tied policy earlier sequencer) (opened : Sequencer)
    (ahead : sequencer.lastRead < offer.checkpoint) (under : opened.policy = sequencer.policy)
    (place : opened.lastRead = sequencer.lastRead)
    (near : ¬ sequencer.lastRead.toInt + 1 < offer.checkpoint.toInt → opened = sequencer)
    (bare : sequencer.lastRead.toInt + 1 < offer.checkpoint.toInt → opened.hole = none) :
    Tied policy (earlier ++ [⟨sequencer, offer, ⟨offer.reply, some offer.checkpoint⟩,
      opened.settle offer.checkpoint offer.reply⟩]) (opened.settle offer.checkpoint offer.reply) := by
  by_cases moves : offer.reply = .moveToNext
  · have reached : (opened.settle offer.checkpoint .moveToNext).lastRead = offer.checkpoint :=
      lastRead_settle (place ▸ ahead)
    have further : offer.checkpoint ≠ sequencer.lastRead := by
      intro same
      rw [same] at ahead
      exact Checkpoint.lt_irrefl _ ahead
    rw [moves]
    exact .ended (by simp [Round.endsWait, Round.stays, reached, further]) (under.trans tied.under) rfl
  · rw [settle_of_stay moves]
    by_cases beyond : sequencer.lastRead.toInt + 1 < offer.checkpoint.toInt
    · exact .ended (by simp [Round.endsWait, Round.isBeyond, beyond]) (under.trans tied.under) (bare beyond)
    · rw [near beyond]
      exact tied.aside (by simp [Round.endsWait, Round.stays, Round.isBeyond, beyond]) (decide_eq_false beyond)

/-- What comes of an offer is what the policy says, and the wait is recorded again. It fails only if there is no
counting one more try. -/
theorem Tied.handle (tied : Tied policy earlier sequencer) (offer : Offer) :
    match sequencer.handle offer.checkpoint offer.clock offer.reply with
    | .error _ => Uncounted policy earlier offer
    | .ok (handled, after) => Obeys policy earlier ⟨sequencer, offer, handled, after⟩ ∧
        Tied policy (earlier ++ [⟨sequencer, offer, handled, after⟩]) after := by
  rw [Sequencer.handle]
  have outcome := offered offer.checkpoint offer.clock sequencer
  generalize sequencer.offer offer.checkpoint offer.clock = answer at outcome
  cases outcome with
  | read behind =>
    have near : ¬ sequencer.lastRead.toInt + 1 < offer.checkpoint.toInt := by
      rw [Checkpoint.le_iff] at behind
      omega
    have kept : Tied policy (earlier ++ [⟨sequencer, offer, ⟨.moveToNext, none⟩, sequencer⟩]) sequencer :=
      tied.aside (by simp [Round.endsWait, Round.stays]) (decide_eq_false near)
    refine ⟨⟨fun _ => rfl, fun follows => ?_, fun beyond => ?_, fun beyond => ?_, rfl, kept.records.expected⟩, kept⟩
    · rw [Checkpoint.le_iff] at behind
      dsimp only at follows
      omega
    · exact absurd (of_decide_eq_true beyond) near
    · exact absurd (of_decide_eq_true beyond) near
  | next follows =>
    have near : ¬ sequencer.lastRead.toInt + 1 < offer.checkpoint.toInt := by omega
    have ahead : sequencer.lastRead < offer.checkpoint := by
      rw [Checkpoint.lt_iff]
      omega
    have kept := tied.delivered sequencer ahead rfl rfl (fun _ => rfl) fun beyond => absurd beyond near
    exact ⟨.delivered ahead rfl (fun beyond => absurd beyond near) kept.records.expected, kept⟩
  | unordered beyond disabled =>
    have ahead : sequencer.lastRead < offer.checkpoint := by
      rw [Checkpoint.lt_iff]
      omega
    rw [tied.under] at disabled
    have bare : sequencer.hole = none := by
      have records := tied.records
      rw [tied.unordered disabled] at records
      cases hole : sequencer.hole with
      | none => rfl
      | some => rw [hole] at records; cases records
    have kept := tied.delivered sequencer ahead rfl rfl (fun near => absurd beyond near) fun _ => bare
    exact ⟨.delivered ahead rfl (fun _ => disabled ▸ trivial) kept.records.expected, kept⟩
  | due beyond ordered follows waited =>
    have ahead : sequencer.lastRead < offer.checkpoint := by
      rw [Checkpoint.lt_iff]
      omega
    have kept := tied.delivered { sequencer with hole := none } ahead rfl rfl
      (fun near => absurd beyond near) fun _ => rfl
    exact ⟨.delivered ahead rfl (fun _ => (tied.exceeded_iff follows).1 waited) kept.records.expected, kept⟩
  | @held expected counted beyond ordered follows waiting counts =>
    have early : ¬ Due policy earlier offer := by
      rw [← tied.exceeded_iff follows, waiting]
      exact Bool.false_ne_true
    have kept := tied.prolonged ⟨sequencer, offer, ⟨.retry, none⟩, { sequencer with hole := some counted }⟩ rfl
      (decide_eq_true beyond) (by simp [Round.endsWait, Round.stays]) ordered follows waiting counts
    refine ⟨⟨fun behind => ?_, fun follows => ?_, fun _ due => absurd due early, fun _ _ => rfl, rfl,
      kept.records.expected⟩, kept⟩
    · rw [Checkpoint.le_iff] at behind
      dsimp only at behind
      omega
    · dsimp only at follows
      omega
  | uncounted beyond ordered follows waiting full =>
    have early : ¬ Due policy earlier offer := by
      rw [← tied.exceeded_iff follows, waiting]
      exact Bool.false_ne_true
    obtain ⟨-, -, retries⟩ := tied.records.holeAt offer follows
    refine ⟨early, ?_⟩
    rw [tied.countP_held, ← retries]
    exact Hole.countRetry_eq_error full

/-! ### One round after another -/

/-- Rounds that obey a policy, from the first to the last offer or to one that cannot be counted. -/
inductive Heeds (policy : HolePolicy) : List Round → Sequencer → List Offer → List Round → Prop where
  | done (earlier : List Round) (sequencer : Sequencer) : Heeds policy earlier sequencer [] []
  | uncounted {earlier : List Round} {sequencer : Sequencer} {offer : Offer} {offers : List Offer}
    (full : Uncounted policy earlier offer) : Heeds policy earlier sequencer (offer :: offers) []
  | round {earlier : List Round} {round : Round} {offers : List Offer} {later : List Round}
    (obeys : Obeys policy earlier round) (rest : Heeds policy (earlier ++ [round]) round.after offers later) :
    Heeds policy earlier round.before (round.offer :: offers) (round :: later)

theorem Tied.heeds (tied : Tied policy earlier sequencer) (offers : List Offer) :
    Heeds policy earlier sequencer offers (rounds offers sequencer) := by
  induction offers generalizing earlier sequencer with
  | nil => exact .done earlier sequencer
  | cons offer offers ih =>
    have outcome := tied.handle offer
    rw [rounds]
    cases handled : sequencer.handle offer.checkpoint offer.clock offer.reply with
    | error =>
      rw [handled] at outcome
      exact .uncounted outcome
    | ok result =>
      rw [handled] at outcome
      obtain ⟨obeys, kept⟩ := outcome
      exact .round obeys (ih kept)

/-- What is accepted lies ahead. -/
theorem Obeys.ahead (obeys : Obeys policy earlier round) {checkpoint : Checkpoint}
    (accepted : round.accepted = some checkpoint) : round.before.lastRead < checkpoint := by
  rw [Checkpoint.lt_iff]
  by_cases behind : round.offer.checkpoint ≤ round.before.lastRead
  · simp [Round.accepted, obeys.read behind] at accepted
  have ahead : round.before.lastRead.toInt < round.offer.checkpoint.toInt := Checkpoint.not_le.1 behind
  have same : round.handled = ⟨round.offer.reply, some round.offer.checkpoint⟩ →
      checkpoint = round.offer.checkpoint := by
    intro delivered
    simp only [Round.accepted, delivered] at accepted
    split at accepted
    · exact (Option.some.inj accepted).symm
    · contradiction
  by_cases beyond : round.isBeyond
  · by_cases due : Due policy earlier round.offer
    · rwa [same (obeys.due beyond due)]
    · simp [Round.accepted, obeys.held beyond due] at accepted
  · rw [Round.isBeyond, decide_eq_true_eq] at beyond
    rwa [same (obeys.next (by omega))]

namespace Heeds

variable {offers : List Offer} {later : List Round}

theorem obeys (heeds : Heeds policy earlier sequencer offers later) :
    ∀ before round after, later = before ++ round :: after → Obeys policy (earlier ++ before) round := by
  induction heeds with
  | done | uncounted => simp
  | @round earlier first offers later obeys _ ih =>
    intro before round after split
    rcases List.cons_eq_append_iff.1 split with ⟨rfl, same⟩ | ⟨rest, rfl, same⟩
    · cases same
      rwa [List.append_nil]
    · rw [List.append_cons]
      exact ih rest round after same

/-- All offers are made, or all before one that cannot be counted. -/
theorem complete (heeds : Heeds policy earlier sequencer offers later) :
    ∃ left, offers = later.map Round.offer ++ left ∧
      ∀ offer ∈ left.head?, Uncounted policy (earlier ++ later) offer := by
  induction heeds with
  | done => exact ⟨[], rfl, by simp⟩
  | @uncounted _ _ offer offers full =>
    refine ⟨offer :: offers, rfl, ?_⟩
    rintro _ ⟨⟩
    rwa [List.append_nil]
  | @round earlier first offers later _ _ ih =>
    obtain ⟨left, made, full⟩ := ih
    refine ⟨left, by rw [made]; rfl, ?_⟩
    rwa [← List.append_cons] at full

/-- What is accepted ascends. -/
theorem ascending (heeds : Heeds policy earlier sequencer offers later) :
    (sequencer.lastRead :: later.filterMap Round.accepted).Pairwise (· < ·) := by
  induction heeds with
  | done | uncounted => simp
  | @round earlier first offers later obeys _ ih =>
    have moves := obeys.moves
    cases accepted : first.accepted with
    | none =>
      rw [accepted] at moves
      rw [List.filterMap_cons_none accepted]
      rwa [show first.after.lastRead = first.before.lastRead from moves] at ih
    | some checkpoint =>
      rw [accepted] at moves
      rw [List.filterMap_cons_some accepted]
      rw [show first.after.lastRead = checkpoint from moves] at ih
      have ahead := obeys.ahead accepted
      refine List.pairwise_cons.2 ⟨fun other member => ?_, ih⟩
      rcases List.mem_cons.1 member with rfl | among
      · exact ahead
      · exact Checkpoint.lt_trans ahead ((List.pairwise_cons.1 ih).1 other among)

end Heeds

theorem rounds_heed (start : Checkpoint) (policy : HolePolicy) (offers : List Offer) :
    Heeds policy [] { lastRead := start, policy } offers (rounds offers { lastRead := start, policy }) :=
  (Tied.start start policy).heeds offers

/-- In a run each round obeys the policy after those before it. -/
theorem rounds_obey {start : Checkpoint} {offers : List Offer} {later : List Round}
    (split : rounds offers { lastRead := start, policy } = earlier ++ round :: later) : Obeys policy earlier round :=
  (rounds_heed start policy offers).obeys earlier round later split

/-- Whatever is offered, and whatever the clock shows and the consumer replies, each offer is answered as the policy
says after those before it, and what the consumer moves on from ascends. Nothing fails before there have been as many
tries in one wait as can be counted. -/
theorem waits_as_policy (start : Checkpoint) (policy : HolePolicy) (offers : List Offer) :
    let made := rounds offers { lastRead := start, policy }
    (∀ earlier round later, made = earlier ++ round :: later → Obeys policy earlier round) ∧
      (start :: made.filterMap Round.accepted).Pairwise (· < ·) ∧
      ∃ left, offers = made.map Round.offer ++ left ∧ ∀ offer ∈ left.head?, Uncounted policy made offer := by
  intro made
  have heeds := rounds_heed start policy offers
  exact ⟨fun _ _ _ => rounds_obey, heeds.ascending, heeds.complete⟩

end Sequencer
end CommitLog
