import CommitLog.Proofs.Poller.Polls

/-!
What a poller delivers over any number of polls, whatever its handler replies and whatever the feed shows as
long as it ascends (`delivered_in_order`). The worker's place after a poll is the last commit that was
accepted (`Course.last_eq`), and the next feed is opened there, so nothing that was shown is passed over.
-/

namespace CommitLog.Poller

variable {φ : Type} [Intake φ]

/-- How far polls from a start have come: to the last commit that the handler has moved on from. -/
def reached (start : Checkpoint) (reports : List PollReport) : Checkpoint :=
  (reports.flatMap PollReport.accepted).getLastD start

/-- What holds of the polls of a worker that began at a checkpoint. -/
structure InOrder (start : Checkpoint) (reports : List PollReport) : Prop where
  /-- What the handler moves on from ascends from the start over all polls. -/
  ascending : (start :: reports.flatMap PollReport.accepted).Pairwise (· < ·)
  /-- In each poll it is the beginning of what the feed showed, and all of it if the poll has got to the end
  of the feed or to an error. -/
  begins : ∀ report ∈ reports, report.accepted <+: report.offered ∧
    (report.outcome = .drained ∨ report.outcome = .failed → report.accepted = report.offered)
  /-- A commit that a feed shows is not passed over for a higher one. -/
  passed : ∀ report ∈ reports, ∀ shown ∈ report.offered, ∀ moved ∈ report.accepted,
    shown < moved → shown ∈ report.accepted
  /-- Each feed is opened after the last commit that was moved on from before. -/
  resumes : ∀ before report after, reports = before ++ report :: after → report.start = reached start before
  /-- What a feed showed and the handler has not moved on from lies ahead of where the next feed is opened. -/
  ahead : ∀ before report after, reports = before ++ report :: after → ∀ checkpoint ∈ report.offered,
    checkpoint ∉ report.accepted → reached start (before ++ [report]) < checkpoint
  /-- The handler is called only for what lies beyond the start. -/
  beyond : ∀ visit ∈ reports.flatMap PollReport.visits, start < visit.checkpoint
  /-- It is called again for a commit only if it has asked for it. -/
  repeated : (reports.flatMap PollReport.visits).Pairwise fun earlier later =>
    earlier.checkpoint = later.checkpoint → earlier.reply = some .retry
  /-- After each poll the poller shows the last commit that was moved on from. -/
  status : ∀ before report after, reports = before ++ report :: after →
    report.status.checkpoint = reached start (before ++ [report])

theorem InOrder.nil (start : Checkpoint) : InOrder start [] where
  ascending := by simp
  begins report member := by simp at member
  passed report member := by simp at member
  resumes before report after split := by simp at split
  ahead before report after split := by simp at split
  beyond visit member := by simp at member
  repeated := .nil
  status before report after split := by simp at split

theorem reached_cons (start : Checkpoint) (report : PollReport) (reports : List PollReport) :
    reached start (report :: reports) = reached (report.accepted.getLastD start) reports := by
  simp only [reached, List.flatMap_cons, List.getLastD_eq_getLast?, List.getLast?_append]
  cases (reports.flatMap PollReport.accepted).getLast? <;> simp

/-! ### One poll and those after it -/

/-- A poll of a feed that ascends. -/
structure PollReport.Regular (report : PollReport) : Prop where
  course : Course report.start report.shown report.visits report.outcome report.status.checkpoint
  ascending : report.Ascending

namespace PollReport.Regular

variable {report : PollReport} {reports : List PollReport}

theorem reached_eq (regular : report.Regular) (before : List PollReport) :
    reached report.start (report :: before) = reached report.status.checkpoint before := by
  have last : report.accepted.getLastD report.start = report.status.checkpoint := regular.course.last_eq.symm
  rw [reached_cons, last]

/-- The poll ends at or beyond whatever it has accepted. -/
theorem accepted_le (regular : report.Regular) : ∀ checkpoint ∈ report.start :: report.accepted,
    checkpoint ≤ report.status.checkpoint := by
  intro checkpoint member
  rcases List.mem_cons.1 member with rfl | moved
  · exact regular.course.le_last
  · obtain ⟨visit, called, rfl⟩ := List.mem_map.1 moved
    obtain ⟨inPoll, reply⟩ := List.mem_filter.1 called
    exact (regular.course.visit_cases inPoll).resolve_right fun other => other.1 (of_decide_eq_true reply)

/-- What was shown and not accepted comes after all that was accepted. -/
theorem accepted_lt (regular : report.Regular) {checkpoint : Checkpoint} (shown : checkpoint ∈ report.offered)
    (left : checkpoint ∉ report.accepted) : ∀ moved ∈ report.start :: report.accepted, moved < checkpoint := by
  intro moved member
  obtain ⟨rest, shape⟩ := (regular.course.accepted_prefix regular.ascending).1
  have ascending := regular.ascending
  rw [Ascending, offered, ← shape, ← List.cons_append, List.pairwise_append] at ascending
  rw [offered, ← shape, List.mem_append] at shown
  exact ascending.2.2 moved member checkpoint (shown.resolve_left left)

theorem pairwise_accepted (regular : report.Regular) : (report.start :: report.accepted).Pairwise (· < ·) :=
  regular.ascending.sublist ((regular.course.accepted_prefix regular.ascending).1.sublist.cons_cons report.start)

/-- A poll, and the polls from where it has ended. -/
theorem inOrder_cons (regular : report.Regular) (ends : report.outcome.isFinal = true → reports = [])
    (later : InOrder report.status.checkpoint reports) : InOrder report.start (report :: reports) where
  ascending := by
    rw [List.flatMap_cons, ← List.cons_append, List.pairwise_append]
    obtain ⟨beyond, laterOnes⟩ := List.pairwise_cons.1 later.ascending
    refine ⟨regular.pairwise_accepted, laterOnes, fun a early b late => ?_⟩
    exact Checkpoint.lt_of_le_of_lt (regular.accepted_le a early) (beyond b late)
  begins other member := by
    rcases List.mem_cons.1 member with rfl | among
    · exact regular.course.accepted_prefix regular.ascending
    · exact later.begins other among
  passed other member shown offered moved accepted less := by
    rcases List.mem_cons.1 member with rfl | among
    · refine Classical.byContradiction fun left => ?_
      have beyond := regular.accepted_lt offered left moved (List.mem_cons_of_mem _ accepted)
      exact Checkpoint.lt_irrefl _ (Checkpoint.lt_trans less beyond)
    · exact later.passed other among shown offered moved accepted less
  resumes before other after split := by
    rcases List.cons_eq_append_iff.1 split with ⟨rfl, same⟩ | ⟨rest, rfl, same⟩
    · cases same
      rfl
    · rw [regular.reached_eq]
      exact later.resumes rest other after same
  ahead before other after split checkpoint shown left := by
    rcases List.cons_eq_append_iff.1 split with ⟨rfl, same⟩ | ⟨rest, rfl, same⟩
    · cases same
      rw [List.nil_append, reached, List.flatMap_singleton]
      exact regular.accepted_lt shown left _ List.getLastD_mem_cons
    · rw [List.cons_append, regular.reached_eq]
      exact later.ahead rest other after same checkpoint shown left
  beyond visit member := by
    rw [List.flatMap_cons, List.mem_append] at member
    rcases member with inPoll | late
    · exact (List.pairwise_cons.1 regular.course.visits_ascend).1 _ (List.mem_map_of_mem inPoll)
    · exact Checkpoint.lt_of_le_of_lt regular.course.le_last (later.beyond visit late)
  repeated := by
    rw [List.flatMap_cons, List.pairwise_append]
    refine ⟨?_, later.repeated, fun visit inPoll other late same => ?_⟩
    · have visited := (List.pairwise_cons.1 regular.course.visits_ascend).2
      refine (List.pairwise_map.1 visited).imp fun less same => ?_
      rw [same] at less
      exact absurd less (Checkpoint.lt_irrefl _)
    · rcases regular.course.visit_cases inPoll with behind | ⟨-, again | final⟩
      · have beyond := later.beyond other late
        rw [← same] at beyond
        exact absurd (Checkpoint.lt_of_le_of_lt behind beyond) (Checkpoint.lt_irrefl _)
      · exact again
      · rw [ends final] at late
        simp at late
  status before other after split := by
    rcases List.cons_eq_append_iff.1 split with ⟨rfl, same⟩ | ⟨rest, rfl, same⟩
    · cases same
      rw [List.nil_append, regular.reached_eq]
      rfl
    · rw [List.cons_append, regular.reached_eq]
      exact later.status rest other after same

end PollReport.Regular

/-- Over any polls, what a worker delivers is in order if every feed ascends. -/
theorem pollAll_inOrder (fetches : List (Checkpoint → φ)) (worker : Worker) (inStep : worker.InStep)
    (ascending : ∀ report ∈ worker.pollAll fetches, report.Ascending) :
    InOrder worker.sequencer.lastRead (worker.pollAll fetches) := by
  induction fetches generalizing worker with
  | nil => exact .nil _
  | cons fetch fetches ih =>
    obtain ⟨course, start, kept, place⟩ := Worker.observe_course fetch inStep
    rw [Worker.pollAll] at ascending ⊢
    rw [← start]
    refine PollReport.Regular.inOrder_cons ⟨course, ascending _ List.mem_cons_self⟩ (fun final => if_pos final) ?_
    rw [← place]
    split
    · exact .nil _
    · next goes =>
      refine ih _ kept fun report member => ascending report (List.mem_cons_of_mem _ ?_)
      rw [if_neg goes]
      exact member

/-- A fetch whose items, and the handler's replies to them, are given beforehand. After the last reply the
handler moves on from everything. -/
structure Script where
  items : List FeedItem
  replies : List Reply := []

instance : Intake Script where
  rel a b := a.items.length < b.items.length
  wf := InvImage.wf (fun script : Script => script.items.length) Nat.lt_wfRel.wf
  clock _ := 0
  next script :=
    match script.items with
    | [] => (none, script)
    | item :: items => (some item, { script with items })
  stopRequested _ := false
  handle _ _ script :=
    match script.replies with
    | [] => (some .moveToNext, script)
    | reply :: replies => (some reply, { script with replies })
  rel_next := by
    intro script item rest taken
    split at taken
    · cases taken
    · next items => cases taken; simp [items]
  rel_handle := by
    intro script item rest commit status reply after taken handled
    split at taken
    · cases taken
    · next items => cases taken; split at handled <;> cases handled <;> simp [items]

/-- Whatever the start, the policy for holes, the replies of the handler and the course of each fetch: if
every feed ascends from where it is opened, a poller delivers in order. -/
theorem delivered_in_order (start : Checkpoint) (config : PollerConfig) (fetches : List (Checkpoint → φ))
    (ascending : ∀ report ∈ (Worker.create start config).pollAll fetches, report.Ascending) :
    InOrder start ((Worker.create start config).pollAll fetches) :=
  pollAll_inOrder fetches (Worker.create start config) rfl ascending

/-- Four polls of a log of three commits: the first does not see the second commit and waits for it, the
second breaks off after it, in the third the handler wants the third commit again, and the last gets to the
end. -/
theorem delivered_in_order_over_faults :
    let commit (n : UInt64) (id : String) : Commit :=
      ⟨⟨⟨"orders"⟩, ⟨"7"⟩, n, ⟨id⟩, n, 0, [], [{ body := [1] }]⟩, ⟨n.toInt64⟩⟩
    let first := commit 1 "placed"
    let second := commit 2 "paid"
    let third := commit 3 "sent"
    let fetches : List (Checkpoint → Script) :=
      [fun _ => { items := [.ok first, .ok third] }, fun _ => { items := [.ok second, .error .disposed] },
        fun _ => { items := [.ok third], replies := [.retry] }, fun _ => { items := [.ok third] }]
    let reports := (Worker.create Checkpoint.start { holePolicy := .retryCount 1 }).pollAll fetches
    (∀ report ∈ reports, report.Ascending) ∧ InOrder Checkpoint.start reports ∧
      reports.map (fun report => (report.start, report.visits)) =
        [(⟨0⟩, [⟨⟨1⟩, some .moveToNext⟩]), (⟨1⟩, [⟨⟨2⟩, some .moveToNext⟩]), (⟨2⟩, [⟨⟨3⟩, some .retry⟩]),
          (⟨2⟩, [⟨⟨3⟩, some .moveToNext⟩])] := by
  intro commit first second third fetches reports
  have evaluated : ((Worker.create Checkpoint.start { holePolicy := .retryCount 1 }).pollAllWithin 4 fetches).map
      (fun reports => (decide (∀ report ∈ reports, report.Ascending),
        reports.map fun report => (report.start, report.visits))) =
      some (true, [(⟨0⟩, [⟨⟨1⟩, some .moveToNext⟩]), (⟨1⟩, [⟨⟨2⟩, some .moveToNext⟩]), (⟨2⟩, [⟨⟨3⟩, some .retry⟩]),
        (⟨2⟩, [⟨⟨3⟩, some .moveToNext⟩])]) := by
    decide +kernel
  obtain ⟨_, run, seen⟩ := Option.map_eq_some_iff.1 evaluated
  rw [← Worker.pollAll_of_within run, Prod.mk.injEq, decide_eq_true_eq] at seen
  obtain ⟨ascending, watched⟩ := seen
  exact ⟨ascending, delivered_in_order _ _ fetches ascending, watched⟩

end CommitLog.Poller
