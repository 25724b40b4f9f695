import CommitLog.Proofs.Posting
import Mathlib.Data.List.Nodup

/-!
A journal is the log of a store without what is particular to the store: the commits that are kept, in
the order of their checkpoints, and the last checkpoint that was given out. A call can do four things
to a journal (`Step`), and each of them keeps a journal `Sound` (`Sound.step`).
-/

namespace CommitLog

namespace Checkpoint

theorem toInt_lt (checkpoint : Checkpoint) : checkpoint.toInt < 2 ^ 63 := checkpoint.raw.toInt_lt

/-- The next checkpoint is one more. -/
theorem toInt_next {checkpoint following : Checkpoint} (next : checkpoint.next = .ok following) :
    following.toInt = checkpoint.toInt + 1 := by
  unfold Checkpoint.next at next
  split at next
  · contradiction
  · next notLast =>
    cases next
    have small := checkpoint.raw.toInt_lt
    have large := checkpoint.raw.le_toInt
    have other : checkpoint.raw.toInt ≠ Int64.maxValue.toInt := fun same => notLast (Int64.toInt_inj.1 same)
    have limit : Int64.maxValue.toInt = 2 ^ 63 - 1 := by decide
    show (checkpoint.raw + 1).toInt = checkpoint.raw.toInt + 1
    have one : (1 : Int64).toInt = 1 := by decide
    rw [Int64.toInt_add, one, Int.bmod_eq_of_le (by omega) (by omega)]

/-- There is a next checkpoint unless all are given out. -/
theorem exists_next {checkpoint : Checkpoint} (small : checkpoint.toInt < 2 ^ 63 - 1) :
    ∃ following, checkpoint.next = .ok following := by
  have other : checkpoint.raw ≠ Int64.maxValue := by
    intro same
    have limit : Int64.maxValue.toInt = 2 ^ 63 - 1 := by decide
    rw [Checkpoint.toInt, same, limit] at small
    exact absurd small (by decide)
  exact ⟨_, if_neg other⟩

theorem eq_of_toInt {a b : Checkpoint} (same : a.toInt = b.toInt) : a = b := by
  cases a
  cases b
  exact congrArg Checkpoint.mk (Int64.toInt_inj.1 same)

end Checkpoint

/-- A commit adds events, and its numbers fit a signed word. -/
structure Commit.Fits (commit : Commit) : Prop where
  events : commit.events ≠ []
  covers : commit.events.length ≤ commit.revision.toNat
  revision : commit.revision.toNat ≤ maxRevision.toNat
  sequence : commit.sequence.toNat ≤ maxRevision.toNat

/-- A commit in a journal. -/
structure Entry where
  commit : Commit
  dispatched : Bool := false

structure Journal where
  /-- In the order of their checkpoints. -/
  entries : List Entry := []
  last : Checkpoint := Checkpoint.start

namespace Journal

def commits (journal : Journal) : List Commit := journal.entries.map Entry.commit

def stream (journal : Journal) (key : StreamKey) : List Commit :=
  journal.commits.filter fun commit => commit.key = key

/-- The entries of a stream. -/
def entriesOf (journal : Journal) (key : StreamKey) : List Entry :=
  journal.entries.filter fun entry => entry.commit.key = key

def postings (journal : Journal) (key : StreamKey) : List Posting := (journal.stream key).map Commit.posting

/-- Adds an attempt as the last commit. -/
def accept (attempt : Attempt) (checkpoint : Checkpoint) (journal : Journal) : Journal where
  entries := journal.entries ++ [{ commit := attempt.toCommit checkpoint }]
  last := checkpoint

/-- Notes that the commit of a checkpoint has been dispatched. -/
def dispatch (checkpoint : Checkpoint) (journal : Journal) : Journal :=
  { journal with entries := journal.entries.map fun entry =>
      if entry.commit.checkpoint = checkpoint then { entry with dispatched := true } else entry }

/-- Removes the streams of which `gone` holds; no checkpoint comes back. -/
def remove (gone : StreamKey → Bool) (journal : Journal) : Journal :=
  { journal with entries := journal.entries.filter fun entry => !gone entry.commit.key }

/-- What one call may do to a journal, and the commit it adds if it adds one. -/
inductive Step : Journal → Option Commit → Journal → Prop where
  | stay (journal : Journal) : Step journal none journal
  | accept {journal : Journal} {attempt : Attempt} {checkpoint : Checkpoint}
    (taken : attempt.refusal (journal.postings attempt.key) = none)
    (next : journal.last.next = .ok checkpoint) :
    Step journal (some (attempt.toCommit checkpoint)) (journal.accept attempt checkpoint)
  | dispatch (checkpoint : Checkpoint) (journal : Journal) : Step journal none (journal.dispatch checkpoint)
  | remove (gone : StreamKey → Bool) (journal : Journal) : Step journal none (journal.remove gone)

/-! ### Soundness -/

/-- What holds of a journal that has taken in the commits `accepted` since it was empty. -/
structure Sound (journal : Journal) (accepted : List Commit) : Prop where
  streams : ∀ key, Posting.Chained (journal.postings key)
  kept : journal.commits.Sublist accepted
  numbered : ∀ (k : Nat) (commit : Commit), accepted[k]? = some commit → commit.checkpoint.toInt = k + 1
  last : journal.last.toInt = accepted.length
  wellFormed : ∀ commit ∈ accepted, commit.events ≠ [] ∧ commit.events.length ≤ commit.revision.toNat ∧
    commit.revision.toNat ≤ maxRevision.toNat

theorem stream_eq_map (journal : Journal) (key : StreamKey) :
    journal.stream key = (journal.entriesOf key).map Entry.commit := by
  rw [stream, commits, List.filter_map]
  rfl

theorem mem_entriesOf {journal : Journal} {key : StreamKey} {entry : Entry} (member : entry ∈ journal.entriesOf key) :
    entry.commit ∈ journal.commits :=
  List.mem_map_of_mem (List.mem_filter.1 member).1

theorem commits_accept (journal : Journal) (attempt : Attempt) (checkpoint : Checkpoint) :
    (journal.accept attempt checkpoint).commits = journal.commits ++ [attempt.toCommit checkpoint] := by
  simp [commits, accept]

theorem stream_accept (journal : Journal) (attempt : Attempt) (checkpoint : Checkpoint) (key : StreamKey) :
    (journal.accept attempt checkpoint).stream key =
      if attempt.key = key then journal.stream key ++ [attempt.toCommit checkpoint] else journal.stream key := by
  rw [stream, commits_accept, List.filter_append]
  split
  · next same =>
    have here : decide ((attempt.toCommit checkpoint).key = key) = true := decide_eq_true same
    rw [List.filter_cons, if_pos here]
    rfl
  · next other =>
    have elsewhere : ¬ decide ((attempt.toCommit checkpoint).key = key) = true := by
      rw [decide_eq_true_eq]
      exact other
    rw [List.filter_cons, if_neg elsewhere, List.filter_nil, List.append_nil]
    rfl

theorem commits_dispatch (journal : Journal) (checkpoint : Checkpoint) :
    (journal.dispatch checkpoint).commits = journal.commits := by
  simp only [commits, dispatch, List.map_map]
  refine List.map_congr_left fun entry _ => ?_
  simp only [Function.comp_apply]
  split <;> rfl

theorem dispatch_of_absent {journal : Journal} {checkpoint : Checkpoint}
    (absent : ∀ commit ∈ journal.commits, commit.checkpoint ≠ checkpoint) :
    journal.dispatch checkpoint = journal := by
  have entries : (journal.entries.map fun entry =>
      if entry.commit.checkpoint = checkpoint then { entry with dispatched := true } else entry) =
        journal.entries.map id :=
    List.map_congr_left fun entry member => if_neg (absent entry.commit (List.mem_map_of_mem member))
  rw [dispatch, entries, List.map_id]

theorem commits_remove (journal : Journal) (gone : StreamKey → Bool) :
    (journal.remove gone).commits = journal.commits.filter fun commit => !gone commit.key := by
  simp only [commits, remove, List.filter_map]
  rfl

theorem stream_remove (journal : Journal) (gone : StreamKey → Bool) (key : StreamKey) :
    (journal.remove gone).stream key = if gone key then [] else journal.stream key := by
  rw [stream, commits_remove, List.filter_filter]
  split
  · next removed =>
    refine List.filter_eq_nil_iff.2 fun commit _ => ?_
    by_cases same : commit.key = key
    · simp [same, removed]
    · simp [same]
  · next stays =>
    refine List.filter_congr fun commit _ => ?_
    by_cases same : commit.key = key
    · simp [same, stays]
    · simp [same]

theorem Sound.empty : Sound {} [] where
  streams _ := .nil
  kept := List.Sublist.slnil
  numbered k commit found := by simp at found
  last := rfl
  wellFormed commit member := by simp at member

variable {journal : Journal} {accepted : List Commit}

theorem Sound.checkpoint_le (sound : Sound journal accepted) {commit : Commit} (member : commit ∈ journal.commits) :
    commit.checkpoint.toInt ≤ journal.last.toInt := by
  obtain ⟨k, found⟩ := List.getElem?_of_mem (sound.kept.subset member)
  have bound := (List.getElem?_eq_some_iff.1 found).1
  rw [sound.numbered k commit found, sound.last]
  omega

/-- There is a checkpoint for one more commit. -/
theorem Sound.exists_next (sound : Sound journal accepted) (room : accepted.length < 2 ^ 63 - 1) :
    ∃ checkpoint, journal.last.next = .ok checkpoint := by
  refine Checkpoint.exists_next ?_
  rw [sound.last]
  omega

/-- The checkpoints of the kept commits ascend. -/
theorem Sound.ascending (sound : Sound journal accepted) :
    journal.commits.Pairwise fun a b => a.checkpoint.toInt < b.checkpoint.toInt := by
  refine List.Pairwise.sublist sound.kept (List.pairwise_iff_getElem.2 ?_)
  intro i j hi hj less
  rw [sound.numbered i _ (List.getElem?_eq_getElem hi), sound.numbered j _ (List.getElem?_eq_getElem hj)]
  omega

/-- No two of the kept commits have one checkpoint. -/
theorem Sound.eq_of_checkpoint (sound : Sound journal accepted) {a b : Commit} (first : a ∈ journal.commits)
    (second : b ∈ journal.commits) (same : a.checkpoint = b.checkpoint) : a = b := by
  have distinct : (journal.commits.map Commit.checkpoint).Nodup :=
    List.pairwise_map.2 (sound.ascending.imp fun less equal => by rw [equal] at less; omega)
  exact List.inj_on_of_nodup_map distinct first second same

theorem Sound.accepted_lt (sound : Sound journal accepted) : accepted.length < 2 ^ 63 := by
  have small := journal.last.toInt_lt
  rw [sound.last] at small
  exact_mod_cast small

theorem Sound.length_le (sound : Sound journal accepted) (key : StreamKey) :
    (journal.postings key).length ≤ accepted.length := by
  rw [postings, List.length_map]
  exact Nat.le_trans (List.length_filter_le _ _) sound.kept.length_le

theorem Sound.length_lt (sound : Sound journal accepted) (key : StreamKey) :
    (journal.postings key).length < 2 ^ 63 :=
  Nat.lt_of_le_of_lt (sound.length_le key) sound.accepted_lt

theorem mem_postings {key : StreamKey} {posting : Posting} (member : posting ∈ journal.postings key) :
    ∃ commit ∈ journal.commits, commit.key = key ∧ commit.posting = posting := by
  obtain ⟨commit, inStream, rfl⟩ := List.mem_map.1 member
  obtain ⟨inJournal, same⟩ := List.mem_filter.1 inStream
  exact ⟨commit, inJournal, of_decide_eq_true same, rfl⟩

/-- A sequence is at most the number of commits in its stream. -/
theorem Sound.sequence_le (sound : Sound journal accepted) {key : StreamKey} {commit : Commit}
    (member : commit ∈ journal.stream key) :
    commit.sequence.toNat ≤ (journal.postings key).length := by
  have sequences := (sound.streams key).sequences
  have inRange : commit.sequence.toNat ∈ (journal.postings key).map Posting.sequence :=
    List.mem_map_of_mem (List.mem_map_of_mem member)
  rw [sequences, List.mem_range'_1] at inRange
  omega

/-- What holds of the accepted commits of a stream holds of those that are still in it. -/
theorem Sound.forall_stream (sound : Sound journal accepted) {p : Commit → Prop} {key : StreamKey}
    (all : ∀ commit ∈ accepted, commit.key = key → p commit) : ∀ commit ∈ journal.stream key, p commit := by
  intro commit member
  obtain ⟨inJournal, same⟩ := List.mem_filter.1 member
  exact all commit (sound.kept.mem inJournal) (of_decide_eq_true same)

theorem Sound.fits (sound : Sound journal accepted) {commit : Commit} (member : commit ∈ journal.commits) :
    commit.Fits := by
  obtain ⟨events, covers, revision⟩ := sound.wellFormed commit (sound.kept.subset member)
  have limit : maxRevision.toNat = 9223372036854775807 := rfl
  have bound := sound.sequence_le (List.mem_filter.2 ⟨member, decide_eq_true rfl⟩)
  have few := sound.length_lt commit.key
  exact ⟨events, covers, revision, by omega⟩

/-- The sequences of a stream ascend. -/
theorem Sound.sequences_ascend (sound : Sound journal accepted) (key : StreamKey) :
    (journal.entriesOf key).Pairwise fun a b => a.commit.sequence.toNat < b.commit.sequence.toNat := by
  have sequences := (sound.streams key).sequences
  have ordered : ((journal.postings key).map Posting.sequence).Pairwise (· < ·) := by
    rw [sequences]
    exact List.pairwise_lt_range'
  rw [postings, stream_eq_map, List.map_map, List.map_map, List.pairwise_map] at ordered
  exact ordered

/-! ### Steps -/

theorem Sound.accept (sound : Sound journal accepted) {attempt : Attempt} {checkpoint : Checkpoint}
    (taken : attempt.refusal (journal.postings attempt.key) = none)
    (next : journal.last.next = .ok checkpoint) :
    Sound (journal.accept attempt checkpoint) (accepted ++ [attempt.toCommit checkpoint]) := by
  obtain ⟨events, small, fresh, sequence, revision⟩ := Attempt.refusal_eq_none.1 taken
  have following := Checkpoint.toInt_next next
  constructor
  · intro key
    rw [postings, stream_accept]
    split
    · next same =>
      subst same
      rw [List.map_append]
      refine (sound.streams attempt.key).append sequence revision fresh fun other member => ?_
      obtain ⟨commit, inJournal, -, rfl⟩ := mem_postings member
      have before := sound.checkpoint_le inJournal
      show commit.checkpoint.toInt < checkpoint.toInt
      omega
    · exact sound.streams key
  · rw [commits_accept]
    exact sound.kept.append (List.Sublist.refl _)
  · intro k commit found
    rcases Nat.lt_or_ge k accepted.length with earlier | last
    · rw [List.getElem?_append_left earlier] at found
      exact sound.numbered k commit found
    · rw [List.getElem?_append_right last, List.getElem?_singleton] at found
      split at found
      · next zero =>
        cases found
        show checkpoint.toInt = k + 1
        rw [following, sound.last]
        omega
      · contradiction
  · show checkpoint.toInt = _
    rw [following, sound.last, List.length_append]
    rfl
  · intro commit member
    rcases List.mem_append.1 member with earlier | last
    · exact sound.wellFormed commit earlier
    · cases List.mem_singleton.1 last
      refine ⟨events, ?_, small⟩
      show attempt.events.length ≤ attempt.revision.toNat
      omega

theorem Sound.dispatch (sound : Sound journal accepted) (checkpoint : Checkpoint) :
    Sound (journal.dispatch checkpoint) accepted := by
  have same : ∀ key, (journal.dispatch checkpoint).postings key = journal.postings key := by
    intro key
    rw [postings, postings, stream, stream, commits_dispatch]
  constructor
  · intro key
    rw [same]
    exact sound.streams key
  · rw [commits_dispatch]
    exact sound.kept
  · exact sound.numbered
  · exact sound.last
  · exact sound.wellFormed

theorem Sound.remove (sound : Sound journal accepted) (gone : StreamKey → Bool) :
    Sound (journal.remove gone) accepted := by
  constructor
  · intro key
    rw [postings, stream_remove]
    split
    · exact .nil
    · exact sound.streams key
  · rw [commits_remove]
    exact List.filter_sublist.trans sound.kept
  · exact sound.numbered
  · exact sound.last
  · exact sound.wellFormed

/-- A sound journal stays sound. -/
theorem Sound.step (sound : Sound journal accepted) {made : Option Commit} {after : Journal}
    (step : Step journal made after) : Sound after (accepted ++ made.toList) := by
  cases step with
  | stay => simpa using sound
  | accept taken next => exact sound.accept taken next
  | dispatch checkpoint => simpa using sound.dispatch checkpoint
  | remove gone => simpa using sound.remove gone

end Journal
end CommitLog
