import CommitLog.Proofs.CommitDecision

/-!
One stream of a ledger among the others. Two ledgers are alike on a stream if they hold the same of it,
wherever it lies in the log (`Ledger.Alike`). They then answer alike about it (`Alike.answer`), and go on to be
alike whatever is called on both, be it about this stream or about others (`Alike.serve`).
-/

namespace CommitLog

/-- A commit apart from its place in the log. -/
def Commit.unnumbered (commit : Commit) : Commit := { commit with checkpoint := Checkpoint.start }

def Posting.unnumbered (posting : Posting) : Posting := { posting with checkpoint := 0 }

/-- The rules do not look at checkpoints. -/
theorem Attempt.refusal_congr (attempt : Attempt) {stored others : List Posting}
    (same : stored.map Posting.unnumbered = others.map Posting.unnumbered) :
    attempt.refusal stored = attempt.refusal others := by
  have length : stored.length = others.length := by simpa using congrArg List.length same
  have ends : Posting.lastRevision stored = Posting.lastRevision others := by
    have last := congrArg (fun postings => (List.getLast? postings).map Posting.revision) same
    simp only [List.getLast?_map, Option.map_map] at last
    exact congrArg (Option.getD · 0) last
  have ids : stored.map Posting.id = others.map Posting.id := by
    have named := congrArg (List.map Posting.id) same
    rw [List.map_map, List.map_map] at named
    exact named
  have held : (∃ posting ∈ stored, posting.id = attempt.id) ↔ ∃ posting ∈ others, posting.id = attempt.id := by
    rw [← List.mem_map, ← List.mem_map, ids]
  simp only [refusal, length, ends, held]

/-- What a removal leaves of a stream: nothing if it covers the stream, and otherwise all. -/
theorem filter_removed {α : Type} (keyOf : α → StreamKey) (gone : StreamKey → Bool) (key : StreamKey) (xs : List α) :
    ((xs.filter fun x => !gone (keyOf x)).filter fun x => keyOf x = key) =
      if gone key then [] else xs.filter fun x => keyOf x = key := by
  rw [List.filter_filter]
  split
  · next removed =>
    refine List.filter_eq_nil_iff.2 fun x _ => ?_
    by_cases same : keyOf x = key
    · simp [same, removed]
    · simp [same]
  · next kept =>
    refine List.filter_congr fun x _ => ?_
    by_cases same : keyOf x = key
    · simp [same, kept]
    · simp [same]

/-- An edit that keeps the streams of all things can be made on those of one stream alone. -/
theorem filter_edited {α : Type} {keyOf : α → StreamKey} {edit : α → α} (stable : ∀ x, keyOf (edit x) = keyOf x)
    (key : StreamKey) (xs : List α) :
    ((xs.map edit).filter fun x => keyOf x = key) = (xs.filter fun x => keyOf x = key).map edit := by
  rw [List.filter_map]
  refine congrArg _ (List.filter_congr fun x _ => ?_)
  simp only [Function.comp_apply, stable]

/-- An edit of another stream leaves this one as it is. -/
theorem filter_edited_other {α : Type} {keyOf : α → StreamKey} {edit : α → α} (stable : ∀ x, keyOf (edit x) = keyOf x)
    {key : StreamKey} (other : ∀ x, keyOf x = key → edit x = x) (xs : List α) :
    ((xs.map edit).filter fun x => keyOf x = key) = xs.filter fun x => keyOf x = key := by
  have kept : ∀ x ∈ xs.filter fun x => keyOf x = key, edit x = x := fun x member =>
    other x (of_decide_eq_true (List.mem_filter.1 member).2)
  rw [filter_edited stable, List.map_congr_left kept, List.map_id']

namespace Call

/-- Whether a call is about a stream and no other. -/
def concerns (key : StreamKey) : Call → Bool
  | .commit attempt => attempt.key = key
  | .getFrom other _ _ => other = key
  | .head other => other = key
  | .addSnapshot taken => taken.key = key
  | .snapshot other _ => other = key
  | .deleteStream other => other = key
  | _ => false

/-- An answer apart from the places of its commits in the log. -/
def Answer.unnumbered : Answer → Answer
  | .ok (.commit made) => .ok (.commit made.unnumbered)
  | .ok (.commits commits) => .ok (.commits (commits.map Commit.unnumbered))
  | answer => answer

/-- An answer lists a head. -/
def Answer.Lists (answer : Answer) (head : StreamHead) : Prop := ∃ heads, answer = .ok (.heads heads) ∧ head ∈ heads

theorem Answer.lists_ok {heads : List StreamHead} {head : StreamHead} :
    Answer.Lists (.ok (.heads heads)) head ↔ head ∈ heads :=
  ⟨fun ⟨_, answered, member⟩ => by cases answered; exact member, fun member => ⟨heads, rfl, member⟩⟩

/-- An answer shows a commit of a feed. -/
def Answer.Shows (answer : Answer) (commit : Commit) : Prop :=
  ∃ items, answer = .ok (.items items) ∧ .ok commit ∈ items

end Call

namespace Ledger

/-- Two ledgers hold the same of a stream. -/
structure Alike (key : StreamKey) (a b : Ledger) : Prop where
  stream : (a.stream key).map Commit.unnumbered = (b.stream key).map Commit.unnumbered
  heads : (a.heads.filter fun head => head.key = key) = b.heads.filter fun head => head.key = key
  snapshots : (a.snapshots.filter fun snapshot => snapshot.key = key) = b.snapshots.filter fun snapshot => snapshot.key = key
  disposed : a.disposed = b.disposed

variable {key : StreamKey} {a b c : Ledger}

theorem Alike.refl (key : StreamKey) (a : Ledger) : Alike key a a := ⟨rfl, rfl, rfl, rfl⟩

theorem Alike.symm (alike : Alike key a b) : Alike key b a :=
  ⟨alike.stream.symm, alike.heads.symm, alike.snapshots.symm, alike.disposed.symm⟩

theorem Alike.trans (first : Alike key a b) (second : Alike key b c) : Alike key a c :=
  ⟨first.stream.trans second.stream, first.heads.trans second.heads, first.snapshots.trans second.snapshots,
    first.disposed.trans second.disposed⟩

/-! ### What is answered about the stream -/

theorem Alike.refusal (alike : Alike key a b) {attempt : Attempt} (same : attempt.key = key) :
    attempt.refusal (a.postings attempt.key) = attempt.refusal (b.postings attempt.key) := by
  refine attempt.refusal_congr ?_
  have postings : ∀ ledger : Ledger, (ledger.postings key).map Posting.unnumbered =
      ((ledger.stream key).map Commit.unnumbered).map fun commit => commit.posting.unnumbered := by
    intro ledger
    rw [Journal.postings, List.map_map, List.map_map]
    rfl
  rw [same, postings, postings, alike.stream]

theorem Alike.head? (alike : Alike key a b) : a.head? key = b.head? key := by
  rw [Ledger.head?, Ledger.head?, ← List.head?_filter, ← List.head?_filter, alike.heads]

theorem Alike.upTo (alike : Alike key a b) (most : UInt64) :
    (a.snapshots.filter fun snapshot => snapshot.key = key ∧ snapshot.revision ≤ most) =
      b.snapshots.filter fun snapshot => snapshot.key = key ∧ snapshot.revision ≤ most := by
  have parts : ∀ ledger : Ledger, (ledger.snapshots.filter fun snapshot => snapshot.key = key ∧ snapshot.revision ≤ most) =
      (ledger.snapshots.filter fun snapshot => snapshot.key = key).filter fun snapshot => snapshot.revision ≤ most := by
    intro ledger
    simp only [List.filter_filter, Bool.decide_and, Bool.and_comm]
  rw [parts, parts, alike.snapshots]

theorem Alike.known (alike : Alike key a b) (revision : UInt64) :
    (a.snapshots.any fun other => other.key = key ∧ other.revision = revision) =
      b.snapshots.any fun other => other.key = key ∧ other.revision = revision := by
  have parts : ∀ ledger : Ledger, (ledger.snapshots.any fun other => other.key = key ∧ other.revision = revision) =
      (ledger.snapshots.filter fun other => other.key = key).any fun other => other.revision = revision := by
    intro ledger
    simp only [List.any_filter, Bool.decide_and]
  rw [parts, parts, alike.snapshots]

theorem Alike.mem_heads (alike : Alike key a b) {head : StreamHead} (same : head.key = key) :
    head ∈ a.heads ↔ head ∈ b.heads := by
  have parts : ∀ ledger : Ledger, head ∈ ledger.heads ↔ head ∈ ledger.heads.filter fun head => head.key = key := by
    intro ledger
    simp [List.mem_filter, same]
  rw [parts, parts, alike.heads]

theorem mem_due {ledger : Ledger} {bucket : BucketId} {threshold : UInt64} {head : StreamHead} :
    head ∈ ledger.due bucket threshold ↔
      head ∈ ledger.heads ∧ head.key.bucket = bucket ∧ threshold ≤ head.unsnapshotted := by
  simp [due, List.mem_mergeSort, List.mem_filter]

/-- A snapshot is due for the stream in both ledgers, or in neither. -/
theorem Alike.lists (alike : Alike key a b) {head : StreamHead} (same : head.key = key) (bucket : BucketId)
    (threshold : UInt64) :
    (a.answer (.streamsToSnapshot bucket threshold)).1.Lists head ↔
      (b.answer (.streamsToSnapshot bucket threshold)).1.Lists head := by
  cases disposed : b.disposed with
  | true => rw [answer_of_disposed disposed, answer_of_disposed (alike.disposed.trans disposed)]
  | false =>
    have listed : ∀ ledger : Ledger, (ledger.respond (.streamsToSnapshot bucket threshold)).1.Lists head ↔
        head ∈ ledger.due bucket threshold := fun _ => Call.Answer.lists_ok
    rw [answer_of_open disposed, answer_of_open (alike.disposed.trans disposed), listed, listed, mem_due, mem_due,
      alike.mem_heads same]

/-- Ledgers that are alike on a stream answer every call about it in the same form, if they do so for attempts to
add to it and for windows on it. -/
theorem Alike.answer_of (form : Call.Answer → Call.Answer) (alike : Alike key a b)
    (commit : ∀ attempt, attempt.key = key → form (a.commit attempt).1 = form (b.commit attempt).1)
    (window : ∀ least most, form (a.respond (.getFrom key least most)).1 = form (b.respond (.getFrom key least most)).1)
    {call : Call} (concerns : call.concerns key = true) : form (a.answer call).1 = form (b.answer call).1 := by
  cases disposed : b.disposed with
  | true =>
    rw [answer_of_disposed disposed, answer_of_disposed (alike.disposed.trans disposed)]
    cases call <;> rfl
  | false =>
    rw [answer_of_open disposed, answer_of_open (alike.disposed.trans disposed)]
    cases call with
    | commit attempt => exact commit attempt (of_decide_eq_true concerns)
    | getFrom other least most =>
      obtain rfl : other = key := of_decide_eq_true concerns
      exact window least most
    | head other =>
      obtain rfl : other = key := of_decide_eq_true concerns
      simp only [respond, alike.head?]
    | addSnapshot taken =>
      obtain rfl : taken.key = key := of_decide_eq_true concerns
      simp only [respond, addSnapshot, alike.head?, alike.known]
      split
      · rfl
      split <;> rfl
    | snapshot other most =>
      obtain rfl : other = key := of_decide_eq_true concerns
      simp only [respond, alike.upTo]
    | deleteStream => rfl
    | _ => cases concerns

/-- The answers are the same if the commits of the stream have the same places, and the next one has. -/
theorem Alike.answer_eq (alike : Alike key a b) (stream : a.stream key = b.stream key) (last : a.last = b.last)
    {call : Call} (concerns : call.concerns key = true) : (a.answer call).1 = (b.answer call).1 := by
  refine alike.answer_of id (fun attempt same => ?_) (fun least most => ?_) concerns
  · unfold Ledger.commit
    rw [alike.refusal same, last]
    split
    · rfl
    split <;> rfl
  · simp only [respond, stream]

theorem Alike.answer (alike : Alike key a b) {acceptedA acceptedB : List Commit} (soundA : a.Sound acceptedA)
    (soundB : b.Sound acceptedB) (roomA : acceptedA.length < 2 ^ 63 - 1) (roomB : acceptedB.length < 2 ^ 63 - 1)
    {call : Call} (concerns : call.concerns key = true) :
    (a.answer call).1.unnumbered = (b.answer call).1.unnumbered := by
  refine alike.answer_of Call.Answer.unnumbered (fun attempt same => ?_) (fun least most => ?_) concerns
  · unfold Ledger.commit
    rw [alike.refusal same, soundA.next_eq roomA, soundB.next_eq roomB]
    split <;> rfl
  · have window : ∀ ledger : Ledger, ((ledger.stream key).filter (Commit.overlaps least most)).map Commit.unnumbered =
        ((ledger.stream key).map Commit.unnumbered).filter (Commit.overlaps least most) := by
      intro ledger
      rw [List.filter_map]
      rfl
    simp only [respond, Call.Answer.unnumbered, window, alike.stream]

/-! ### What a call does to the stream -/

theorem apply_of_other {update : Memory.HeadUpdate} (other : update.key ≠ key) (heads : List StreamHead) :
    ((update.apply heads).filter fun head => head.key = key) = heads.filter fun head => head.key = key := by
  induction heads with
  | nil => simp [Memory.HeadUpdate.apply, other]
  | cons head rest ih =>
    rw [Memory.HeadUpdate.apply]
    by_cases here : head.key = update.key
    · simp [here, other]
    · rw [if_neg here, List.filter_cons, List.filter_cons, ih]

/-- The head of a stream is raised alike wherever it is among the others. -/
theorem apply_of_same {update : Memory.HeadUpdate} (heads : List StreamHead) :
    ((update.apply heads).filter fun head => head.key = update.key) =
      update.apply (heads.filter fun head => head.key = update.key) := by
  induction heads with
  | nil => simp [Memory.HeadUpdate.apply]
  | cons head rest ih =>
    rw [Memory.HeadUpdate.apply]
    by_cases here : head.key = update.key
    · simp [here, Memory.HeadUpdate.apply]
    · rw [if_neg here, List.filter_cons, List.filter_cons, if_neg (by simp [here]), if_neg (by simp [here]), ih]

/-- An attempt to add to another stream leaves this one as it is. -/
theorem alike_commit_other {attempt : Attempt} (other : attempt.key ≠ key) (ledger : Ledger) :
    Alike key (ledger.commit attempt).2 ledger := by
  unfold Ledger.commit
  split
  · exact .refl key ledger
  split
  · exact .refl key ledger
  · refine ⟨?_, apply_of_other other ledger.heads, rfl, rfl⟩
    show ((ledger.toJournal.accept attempt _).stream key).map Commit.unnumbered = _
    rw [Journal.stream_accept, if_neg other]

theorem Alike.accept (alike : Alike key a b) {attempt : Attempt} (same : attempt.key = key) (first second : Checkpoint) :
    Alike key (a.accept attempt first) (b.accept attempt second) where
  stream := by
    show ((a.toJournal.accept attempt first).stream key).map _ = ((b.toJournal.accept attempt second).stream key).map _
    rw [Journal.stream_accept, Journal.stream_accept, if_pos same, if_pos same, List.map_append, List.map_append,
      alike.stream]
    rfl
  heads := by
    subst same
    have raised := fun ledger : Ledger => @apply_of_same ⟨attempt.key, attempt.revision⟩ ledger.heads
    show (List.filter _ (Memory.HeadUpdate.apply _ _)) = List.filter _ (Memory.HeadUpdate.apply _ _)
    exact (raised a).trans ((congrArg _ alike.heads).trans (raised b).symm)
  snapshots := alike.snapshots
  disposed := alike.disposed

theorem key_raiseSnapshot (snapshot : Snapshot) (head : StreamHead) :
    (MemoryStore.raiseSnapshot snapshot head).key = head.key := by
  unfold MemoryStore.raiseSnapshot
  split <;> rfl

theorem alike_addSnapshot_other {snapshot : Snapshot} (other : snapshot.key ≠ key) (ledger : Ledger) :
    Alike key (ledger.addSnapshot snapshot).2 ledger := by
  unfold Ledger.addSnapshot
  split
  · exact .refl key ledger
  split
  · exact .refl key ledger
  · refine ⟨rfl, ?_, ?_, rfl⟩
    · exact filter_edited_other (key_raiseSnapshot snapshot)
        (fun head here => if_neg (by rw [here]; exact Ne.symm other)) ledger.heads
    · simp [List.filter_append, other]

theorem Alike.addSnapshot (alike : Alike key a b) {snapshot : Snapshot} (same : snapshot.key = key) :
    Alike key (a.addSnapshot snapshot).2 (b.addSnapshot snapshot).2 := by
  subst same
  unfold Ledger.addSnapshot
  rw [alike.head?, alike.known]
  split
  · exact alike
  split
  · exact alike
  · refine ⟨alike.stream, ?_, ?_, alike.disposed⟩
    · have raised := filter_edited (key_raiseSnapshot snapshot) snapshot.key
      exact (raised a.heads).trans ((congrArg _ alike.heads).trans (raised b.heads).symm)
    · dsimp only
      rw [List.filter_append, List.filter_append, alike.snapshots]

theorem Alike.remove (alike : Alike key a b) (gone : StreamKey → Bool) : Alike key (a.remove gone) (b.remove gone) where
  stream := by
    show ((a.toJournal.remove gone).stream key).map _ = ((b.toJournal.remove gone).stream key).map _
    rw [Journal.stream_remove, Journal.stream_remove]
    split
    · rfl
    · exact alike.stream
  heads := by
    show List.filter _ (a.heads.filter _) = List.filter _ (b.heads.filter _)
    rw [List.filter_comm, alike.heads, List.filter_comm]
  snapshots := by
    show List.filter _ (a.snapshots.filter _) = List.filter _ (b.snapshots.filter _)
    rw [List.filter_comm, alike.snapshots, List.filter_comm]
  disposed := alike.disposed

theorem alike_dispatch (checkpoint : Checkpoint) (ledger : Ledger) :
    Alike key { ledger with toJournal := ledger.toJournal.dispatch checkpoint } ledger where
  stream := by
    show ((ledger.toJournal.dispatch checkpoint).stream key).map _ = _
    rw [Journal.stream, Journal.commits_dispatch]
    rfl
  heads := rfl
  snapshots := rfl
  disposed := rfl

/-- Ledgers that are alike on a stream are so after any call. -/
theorem Alike.after (alike : Alike key a b) {acceptedA acceptedB : List Commit} (soundA : a.Sound acceptedA)
    (soundB : b.Sound acceptedB) (roomA : acceptedA.length < 2 ^ 63 - 1) (roomB : acceptedB.length < 2 ^ 63 - 1)
    (call : Call) : Alike key (a.answer call).2 (b.answer call).2 := by
  cases disposed : b.disposed with
  | true =>
    rw [answer_of_disposed disposed, answer_of_disposed (alike.disposed.trans disposed)]
    cases call <;> exact alike
  | false =>
    rw [answer_of_open disposed, answer_of_open (alike.disposed.trans disposed)]
    cases call with
    | commit attempt =>
      show Alike key (a.commit attempt).2 (b.commit attempt).2
      by_cases same : attempt.key = key
      · unfold Ledger.commit
        rw [alike.refusal same, soundA.next_eq roomA, soundB.next_eq roomB]
        split
        · exact alike
        · exact alike.accept same _ _
      · exact (alike_commit_other same a).trans (alike.trans (alike_commit_other same b).symm)
    | addSnapshot snapshot =>
      show Alike key (a.addSnapshot snapshot).2 (b.addSnapshot snapshot).2
      by_cases same : snapshot.key = key
      · exact alike.addSnapshot same
      · exact (alike_addSnapshot_other same a).trans (alike.trans (alike_addSnapshot_other same b).symm)
    | markDispatched checkpoint =>
      exact (alike_dispatch checkpoint a).trans (alike.trans (alike_dispatch checkpoint b).symm)
    | deleteStream gone => exact alike.remove fun other => other = gone
    | purgeBucket bucket => exact alike.remove fun other => other.bucket = bucket
    | purge => exact alike.remove fun _ => true
    | dispose => exact ⟨alike.stream, alike.heads, alike.snapshots, rfl⟩
    | _ => exact alike

/-- Ledgers that are alike on a stream are so after any calls, as long as there are checkpoints left. -/
theorem Alike.afterAll (alike : Alike key a b) {acceptedA acceptedB : List Commit} (soundA : a.Sound acceptedA)
    (soundB : b.Sound acceptedB) {calls : List Call}
    (roomA : (acceptedA ++ Call.accepted (a.answerAll calls).1).length < 2 ^ 63 - 1)
    (roomB : (acceptedB ++ Call.accepted (b.answerAll calls).1).length < 2 ^ 63 - 1) :
    Alike key (a.answerAll calls).2 (b.answerAll calls).2 := by
  induction calls generalizing a b acceptedA acceptedB with
  | nil => exact alike
  | cons call calls ih =>
    simp only [answerAll, Call.accepted_cons, ← List.append_assoc] at roomA roomB
    have nextA := soundA.step (a.answer_step call)
    have nextB := soundB.step (b.answer_step call)
    have before : acceptedA.length < 2 ^ 63 - 1 ∧ acceptedB.length < 2 ^ 63 - 1 := by
      simp only [List.length_append] at roomA roomB
      omega
    exact ih (alike.after soundA soundB before.1 before.2 call) nextA nextB roomA roomB

/-! ### Removal -/

/-- A removal leaves a stream that it does not cover as it is. -/
theorem alike_remove_kept {gone : StreamKey → Bool} (kept : gone key = false) (ledger : Ledger) :
    Alike key (ledger.remove gone) ledger where
  stream := by
    show ((ledger.toJournal.remove gone).stream key).map _ = _
    rw [Journal.stream_remove, if_neg (by simp [kept])]
  heads := (filter_removed StreamHead.key gone key ledger.heads).trans (if_neg (by simp [kept]))
  snapshots := (filter_removed Snapshot.key gone key ledger.snapshots).trans (if_neg (by simp [kept]))
  disposed := rfl

/-- Of a stream that it covers, a removal leaves what a new ledger has of it. -/
theorem alike_remove_gone {gone : StreamKey → Bool} (removed : gone key = true) {ledger : Ledger}
    (isOpen : ledger.disposed = false) : Alike key (ledger.remove gone) {} where
  stream := by
    show ((ledger.toJournal.remove gone).stream key).map _ = _
    rw [Journal.stream_remove, if_pos removed]
    rfl
  heads := (filter_removed StreamHead.key gone key ledger.heads).trans (if_pos removed)
  snapshots := (filter_removed Snapshot.key gone key ledger.snapshots).trans (if_pos removed)
  disposed := isOpen

end Ledger
end CommitLog
