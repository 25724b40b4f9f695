import CommitLog.Proofs.Engine
import CommitLog.Proofs.Json.Fields
import Mathlib.Data.List.Induction

/-!
What a stream takes in from a window on its log. A window shows a part of the log, without a gap (`Window`), and
taking it in adds just those events that lie in the window and beyond what the stream has (`taking`,
`populate_eq`). How the log is divided into commits makes no difference to that.
-/

namespace CommitLog

/-! ### Parts of a log -/

/-- More commits have more events. -/
theorem Commit.length_eventsOf_lt {first second : List Commit} (fits : ∀ commit ∈ second, commit.Fits)
    (some : second ≠ []) : (eventsOf first).length < (eventsOf (first ++ second)).length := by
  obtain ⟨commit, rest, rfl⟩ := List.exists_cons_of_ne_nil some
  have events := List.length_pos_iff.2 (fits commit (by simp)).events
  have one : eventsOf (commit :: rest) = commit.events ++ eventsOf rest := rfl
  rw [eventsOf_append, one, List.length_append, List.length_append]
  omega

/-- A property that a list loses, once and for all, splits the list. -/
theorem exists_cut {α : Type} {p : α → Bool} {xs : List α} (falls : xs.Pairwise fun a b => p b = true → p a = true) :
    ∃ first second, xs = first ++ second ∧ (∀ x ∈ first, p x = true) ∧ ∀ x ∈ second, p x = false := by
  induction xs with
  | nil => exact ⟨[], [], rfl, by simp, by simp⟩
  | cons x rest ih =>
    obtain ⟨below, others⟩ := List.pairwise_cons.1 falls
    by_cases here : p x = true
    · obtain ⟨first, second, rfl, holds, fails⟩ := ih others
      refine ⟨x :: first, second, rfl, ?_, fails⟩
      intro y member
      rcases List.mem_cons.1 member with rfl | later
      · exact here
      · exact holds y later
    · refine ⟨[], x :: rest, rfl, by simp, ?_⟩
      intro y member
      rcases List.mem_cons.1 member with rfl | later
      · simpa using here
      · exact Bool.eq_false_iff.2 fun there => here (below y later there)

namespace Orderly

variable {log first second : List Commit}

theorem left (orderly : Orderly (first ++ second)) : Orderly first := by
  constructor
  · intro commit member
    exact orderly.fits commit (by simp [member])
  · intro before commit later split
    exact orderly.sequence before commit (later ++ second) (by simp [split])
  · intro before commit later split
    exact orderly.revision before commit (later ++ second) (by simp [split])

/-- No commit of a log starts beyond the largest revision. -/
theorem starts (orderly : Orderly log) {commit : Commit} (member : commit ∈ log) :
    commit.revision.toNat + 1 ≤ maxRevision.toNat + commit.events.length := by
  have fits := orderly.fits commit member
  have events := List.length_pos_iff.2 fits.events
  have small := fits.revision
  omega

/-- Each commit of a log starts after all that come before it. -/
theorem ascending (orderly : Orderly log) :
    log.Pairwise fun a b => a.revision.toNat + b.events.length ≤ b.revision.toNat := by
  induction log using List.reverseRecOn with
  | nil => exact .nil
  | append_singleton before last ih =>
    refine List.pairwise_append.2 ⟨ih orderly.left, List.pairwise_singleton _ _, ?_⟩
    intro commit member other here
    rw [List.mem_singleton.1 here]
    have earlier := (orderly.known member).1
    have revision := orderly.revision before last [] rfl
    omega

/-- The last commit of a log has the number of its events as revision, and the number of its commits as sequence. -/
theorem last {before : List Commit} {commit : Commit} (orderly : Orderly (before ++ [commit])) :
    commit.revision.toNat = (Commit.eventsOf (before ++ [commit])).length ∧
      commit.sequence.toNat = (before ++ [commit]).length := by
  have one : Commit.eventsOf [commit] = commit.events := by simp [Commit.eventsOf]
  have revision := orderly.revision before commit [] rfl
  have sequence := orderly.sequence before commit [] rfl
  rw [Commit.eventsOf_append, List.length_append, one, List.length_append, List.length_singleton]
  exact ⟨revision, sequence⟩

end Orderly

/-- The part of a log that a window from `least` to `most` shows, between what lies before it and behind it. -/
structure Window (least most : UInt64) (log before chunk later : List Commit) : Prop where
  split : log = before ++ chunk ++ later
  before : ∀ commit ∈ before, commit.revision.toNat < least.toNat
  within : ∀ commit ∈ chunk,
    least.toNat ≤ commit.revision.toNat ∧ commit.revision.toNat + 1 ≤ most.toNat + commit.events.length
  later : ∀ commit ∈ later, most.toNat + commit.events.length < commit.revision.toNat + 1

theorem Orderly.exists_window {log : List Commit} (orderly : Orderly log) (least most : UInt64) :
    ∃ before chunk later, Window least most log before chunk later := by
  have ascending := orderly.ascending
  obtain ⟨before, rest, rfl, lower, upper⟩ := @exists_cut Commit
    (fun commit => decide (commit.revision.toNat < least.toNat)) log (ascending.imp fun {a b} _ => by
      simp only [decide_eq_true_eq]
      omega)
  have further := (List.pairwise_append.1 ascending).2.1
  obtain ⟨chunk, later, rfl, starts, beyond⟩ := @exists_cut Commit
    (fun commit => decide (commit.revision.toNat + 1 ≤ most.toNat + commit.events.length)) rest
    (List.Pairwise.imp_of_mem (fun {a b} memberA memberB above => by
      have covers := (orderly.fits a (by simp [memberA])).covers
      simp only [decide_eq_true_eq]
      omega) further)
  refine ⟨before, chunk, later, ?_⟩
  constructor
  · rw [List.append_assoc]
  · exact fun commit member => of_decide_eq_true (lower commit member)
  · intro commit member
    have reached := of_decide_eq_false (upper commit (by simp [member]))
    exact ⟨by omega, of_decide_eq_true (starts commit member)⟩
  · intro commit member
    have past := of_decide_eq_false (beyond commit member)
    omega

namespace Window

variable {least most : UInt64} {log before chunk later : List Commit}

theorem filter (window : Window least most log before chunk later) : log.filter (Commit.overlaps least most) = chunk := by
  have none : before.filter (Commit.overlaps least most) = [] := by
    refine List.filter_eq_nil_iff.2 fun commit member => ?_
    have early := window.before commit member
    simp [Commit.overlaps]
    omega
  have all : chunk.filter (Commit.overlaps least most) = chunk := by
    refine List.filter_eq_self.2 fun commit member => ?_
    obtain ⟨lower, upper⟩ := window.within commit member
    simp [Commit.overlaps, lower, upper]
  have nothing : later.filter (Commit.overlaps least most) = [] := by
    refine List.filter_eq_nil_iff.2 fun commit member => ?_
    have late := window.later commit member
    simp [Commit.overlaps]
    omega
  rw [window.split, List.filter_append, List.filter_append, none, all, nothing]
  simp

/-- What lies before a window has no event in it. -/
theorem skipped (window : Window least most log before chunk later) (orderly : Orderly log) :
    (Commit.eventsOf before).length ≤ least.toNat - 1 := by
  rcases List.eq_nil_or_concat before with rfl | ⟨earlier, commit, rfl⟩
  · exact Nat.zero_le _
  · rw [List.concat_eq_append] at window ⊢
    have early := window.before commit (by simp)
    rw [window.split, List.append_assoc] at orderly
    have revision := orderly.left.last.1
    omega

/-- What lies behind a window has no event in it either. -/
theorem take_eq (window : Window least most log before chunk later) (orderly : Orderly log) :
    (Commit.eventsOf (before ++ chunk)).take most.toNat = (Commit.eventsOf log).take most.toNat := by
  rw [window.split, Commit.eventsOf_append (before ++ chunk) later, List.take_append]
  cases later with
  | nil => simp [Commit.eventsOf]
  | cons commit rest =>
    have late := window.later commit (by simp)
    rw [window.split] at orderly
    have revision := orderly.revision (before ++ chunk) commit rest rfl
    have past : most.toNat - (Commit.eventsOf (before ++ chunk)).length = 0 := by omega
    simp [past]

/-- With what lies before it, a window is one that starts at the beginning. -/
theorem from_beginning (window : Window least most log before chunk later) (orderly : Orderly log)
    (early : least.toNat ≤ most.toNat + 1) : Window 0 most log [] (before ++ chunk) later := by
  refine ⟨by simp [window.split], by simp, fun commit member => ⟨Nat.zero_le _, ?_⟩, window.later⟩
  rcases List.mem_append.1 member with skipped | shown
  · have inLog : commit ∈ log := by
      rw [window.split]
      simp [skipped]
    have events := List.length_pos_iff.2 (orderly.fits commit inLog).events
    have below := window.before commit skipped
    omega
  · exact (window.within commit shown).2

end Window

/-! ### Taking commits in -/

namespace EventStream

/-- How many events of its log a stream does not take in from a window that starts at `least`. -/
def skip (least : UInt64) (stream : EventStream) : Nat := max (least.toNat - 1) stream.revision.toNat

/-- From a window that leaves no gap a stream skips just what it has. -/
theorem skip_eq {least : UInt64} {stream : EventStream} (follows : least.toNat - 1 ≤ stream.revision.toNat) :
    stream.skip least = stream.revision.toNat :=
  Nat.max_eq_right follows

/-- The events of one commit, of which the first has the revision `place + 1`. -/
theorem absorb_eq {least most revision : UInt64} {events : List Event} {stream : EventStream} {place : Nat}
    (starts : revision.toNat = place + 1) (reached : place ≤ stream.skip least)
    (small : place + events.length ≤ maxRevision.toNat) :
    absorb least most revision events stream = (.ok (), { stream with
      committed := stream.committed ++ (events.take (most.toNat - place)).drop (stream.skip least - place)
      revision := if stream.skip least < min most.toNat (place + events.length)
        then UInt64.ofNat (min most.toNat (place + events.length)) else stream.revision }) := by
  have limit : maxRevision.toNat = 9223372036854775807 := rfl
  have size : UInt64.size = 18446744073709551616 := rfl
  induction events generalizing revision stream place with
  | nil =>
    have none : ¬ stream.skip least < min most.toNat (place + 0) := by omega
    rw [absorb, List.length_nil, if_neg none]
    simp
  | cons event events ih =>
    rw [List.length_cons] at small ⊢
    by_cases past : most < revision
    · rw [UInt64.lt_iff_toNat_lt] at past
      have shut : most.toNat - place = 0 := by omega
      have none : ¬ stream.skip least < min most.toNat (place + (events.length + 1)) := by omega
      rw [absorb, if_pos (by rw [UInt64.lt_iff_toNat_lt]; omega), shut, if_neg none]
      simp
    · have open' : most.toNat - place = most.toNat - (place + 1) + 1 := by
        rw [UInt64.lt_iff_toNat_lt] at past
        omega
      have fits : revision.toNat + 1 < UInt64.size := by omega
      have following : (UInt64.ofNat (revision.toNat + 1)).toNat = place + 1 + 1 := by
        rw [UInt64.toNat_ofNat_of_lt' fits, starts]
      have length : place + (events.length + 1) = place + 1 + events.length := by omega
      rw [absorb, if_neg past]
      dsimp only
      rw [Overflow.sum, if_pos fits]
      dsimp only
      by_cases wanted : least ≤ revision ∧ stream.revision < revision
      · -- The event is the first that is not skipped.
        have here : stream.skip least = place := by
          rw [UInt64.le_iff_toNat_le, UInt64.lt_iff_toNat_lt] at wanted
          rw [skip] at reached ⊢
          omega
        have next : skip least { stream with committed := stream.committed ++ [event], revision } = place + 1 := by
          rw [skip] at here ⊢
          dsimp only
          omega
        rw [if_pos wanted, ih following (by omega) (by omega), next, here, open', length]
        have taken : place < min most.toNat (place + 1 + events.length) := by omega
        rw [if_pos taken]
        congr 2
        · split
          · rfl
          · next ends =>
            have same : min most.toNat (place + 1 + events.length) = revision.toNat := by omega
            rw [same, UInt64.ofNat_toNat]
        · simp
      · have beyond : place + 1 ≤ stream.skip least := by
          rw [UInt64.le_iff_toNat_le, UInt64.lt_iff_toNat_lt] at wanted
          rw [skip]
          omega
        have shifted : stream.skip least - place = stream.skip least - (place + 1) + 1 := by omega
        rw [if_neg wanted, ih following beyond (by omega), open', shifted, length]
        simp

/-! ### Commits -/

/-- A stream with what it takes in, as far as `most`, from the commits that follow the first of its log. -/
def taking (least most : UInt64) (before chunk : List Commit) (stream : EventStream) : EventStream :=
  let events := (Commit.eventsOf (before ++ chunk)).take most.toNat
  { stream with
    committed := stream.committed ++ events.drop (stream.skip least)
    revision := if stream.skip least < events.length then UInt64.ofNat events.length else stream.revision
    sequence := chunk.foldl (fun sequence commit => max sequence commit.sequence) stream.sequence
    committedHeaders := stream.committedHeaders.merge (chunk.flatMap fun commit => commit.headers)
    ids := chunk.foldl (fun ids commit => ids.insert commit.id) stream.ids }

variable {least most : UInt64} {before chunk later : List Commit} {stream : EventStream}

/-- What has been taken in is skipped from then on. -/
theorem skip_taking : (stream.taking least most before chunk).skip least =
    max (stream.skip least) ((Commit.eventsOf (before ++ chunk)).take most.toNat).length := by
  have size : UInt64.size = 18446744073709551616 := rfl
  have bound : ((Commit.eventsOf (before ++ chunk)).take most.toNat).length ≤ most.toNat := List.length_take_le _ _
  have small := most.toNat_lt
  rw [skip, skip, taking]
  dsimp only
  split
  · next more =>
    rw [UInt64.toNat_ofNat_of_lt' (by omega)]
    rw [skip] at more
    omega
  · next enough =>
    rw [skip] at enough
    omega

theorem drop_append_drop {α : Type} (first second : List α) (skip : Nat) :
    first.drop skip ++ (first ++ second).drop (max skip first.length) = (first ++ second).drop skip := by
  have rest : max skip first.length - first.length = skip - first.length := by omega
  rw [List.drop_append, List.drop_append, List.drop_eq_nil_of_le (Nat.le_max_right skip first.length), rest,
    List.nil_append]

/-- Parts that are taken in one after the other are taken in as one. -/
theorem taking_append : (stream.taking least most before chunk).taking least most (before ++ chunk) later =
    stream.taking least most before (chunk ++ later) := by
  have parts : (Commit.eventsOf (before ++ (chunk ++ later))).take most.toNat =
      (Commit.eventsOf (before ++ chunk)).take most.toNat ++
        (Commit.eventsOf later).take (most.toNat - (Commit.eventsOf (before ++ chunk)).length) := by
    rw [← List.append_assoc, Commit.eventsOf_append, List.take_append]
  rw [taking, skip_taking, List.append_assoc, parts]
  unfold taking
  dsimp only
  rw [parts]
  generalize (Commit.eventsOf (before ++ chunk)).take most.toNat = first
  generalize (Commit.eventsOf later).take _ = second
  congr 1
  · rw [List.length_append]
    split
    · next more => rw [if_pos (by omega)]
    · next enough =>
      split
      · next some =>
        have same : first.length + second.length = first.length := by omega
        rw [if_pos (by omega), same]
      · rw [if_neg (by omega)]
  · rw [List.foldl_append]
  · rw [List.append_assoc, drop_append_drop]
  · rw [List.flatMap_append, Fields.merge_append]
  · rw [List.foldl_append]

/-- A commit that follows the first of its log and starts no later than `most` is taken in. -/
theorem populate_cons_eq {commit : Commit} (orderly : Orderly (before ++ [commit]))
    (starts : commit.revision.toNat + 1 ≤ most.toNat + commit.events.length)
    (reached : (Commit.eventsOf before).length ≤ stream.skip least) :
    populate least most (commit :: later) stream =
      populate least most later (stream.taking least most before [commit]) := by
  have limit : maxRevision.toNat = 9223372036854775807 := rfl
  have size : UInt64.size = 18446744073709551616 := rfl
  have fits := orderly.fits commit (by simp)
  have small := fits.revision
  have revision := orderly.revision before commit [] rfl
  have place : commit.revision.toNat - commit.events.length = (Commit.eventsOf before).length := by omega
  have first : (UInt64.ofNat ((Commit.eventsOf before).length + 1)).toNat = (Commit.eventsOf before).length + 1 :=
    UInt64.toNat_ofNat_of_lt' (by omega)
  have inside : ¬ most < UInt64.ofNat ((Commit.eventsOf before).length + 1) := by
    rw [UInt64.lt_iff_toNat_lt, first]
    omega
  have all : (Commit.eventsOf (before ++ [commit])).take most.toNat = Commit.eventsOf before ++
      commit.events.take (most.toNat - (Commit.eventsOf before).length) := by
    rw [Commit.eventsOf_append, List.take_append, List.take_of_length_le (by omega)]
    simp [Commit.eventsOf]
  have length : ((Commit.eventsOf (before ++ [commit])).take most.toNat).length =
      min most.toNat ((Commit.eventsOf before).length + commit.events.length) := by
    rw [all, List.length_append, List.length_take]
    omega
  have added : ((Commit.eventsOf (before ++ [commit])).take most.toNat).drop (stream.skip least) =
      (commit.events.take (most.toNat - (Commit.eventsOf before).length)).drop
        (stream.skip least - (Commit.eventsOf before).length) := by
    rw [all, List.drop_append, List.drop_eq_nil_of_le reached, List.nil_append]
  have absorbed := @absorb_eq least most _ commit.events { stream with
    ids := stream.ids.insert commit.id
    sequence := max stream.sequence commit.sequence
    committedHeaders := stream.committedHeaders.merge commit.headers } _ first reached (by omega)
  rw [populate, Attempt.firstRevision_eq fits.covers small, place]
  dsimp only
  rw [if_neg inside, absorbed, taking, length, added]
  simp [skip]

/-- Commits that follow the first of their log and start no later than `most` are taken in, one after the other. -/
theorem populate_eq (orderly : Orderly (before ++ chunk))
    (starts : ∀ commit ∈ chunk, commit.revision.toNat + 1 ≤ most.toNat + commit.events.length)
    (reached : min most.toNat (Commit.eventsOf before).length ≤ stream.skip least) :
    populate least most chunk stream = (.ok (), stream.taking least most before chunk) := by
  induction chunk generalizing before stream with
  | nil =>
    have none : ¬ stream.skip least < ((Commit.eventsOf (before ++ [])).take most.toNat).length := by
      rw [List.append_nil, List.length_take]
      omega
    rw [populate, taking, if_neg none, List.drop_eq_nil_of_le (Nat.not_lt.1 none)]
    simp [Fields.merge]
  | cons commit chunk ih =>
    have begins := starts commit (by simp)
    have revision := orderly.revision before commit chunk rfl
    have whole : before ++ commit :: chunk = before ++ [commit] ++ chunk := by simp
    rw [whole] at orderly
    rw [populate_cons_eq orderly.left begins (by omega)]
    have next := @ih (before ++ [commit]) (stream.taking least most before [commit]) orderly
      (fun other member => starts other (by simp [member])) (by
        rw [skip_taking, List.length_take]
        exact Nat.le_max_right _ _)
    rw [next, taking_append]
    rfl

end EventStream

/-! ### Reading a window -/

namespace Engine

variable {readable : Commit → Prop} {engine : Engine} {journal : Journal} {accepted : List Commit}

/-- An engine shows the commits of a window as they were. A database starts it no later than at the largest
revision. -/
theorem Holds.window (holds : engine.Holds readable journal) (sound : journal.Sound accepted) {key : StreamKey}
    (known : ∀ commit ∈ journal.stream key, readable commit) (least most : UInt64) :
    ∃ (start : UInt64) (before chunk later : List Commit), start.toNat ≤ least.toNat ∧
      (least.toNat ≤ maxRevision.toNat → start = least) ∧ Window start most (journal.stream key) before chunk later ∧
      CommitStore.getFrom key least most engine = (.ok (chunk.map engine.shows), engine) := by
  have orderly := sound.orderly key
  cases holds with
  | @memory store ledger keeps isOpen =>
    obtain ⟨before, chunk, later, window⟩ := orderly.exists_window least most
    have read := MemoryStore.getFrom_eq keeps sound isOpen key least most
    refine ⟨least, before, chunk, later, Nat.le_refl _, fun _ => rfl, window, ?_⟩
    show (store.getFrom key least most, Engine.memory store) = _
    rw [read]
    show (Except.ok ((ledger.toJournal.stream key).filter _), Engine.memory store) = _
    rw [window.filter]
    exact congrArg (fun commits => (Except.ok commits, Engine.memory store)) (List.map_id _).symm
  | @database store journal logs isOpen storable =>
    obtain ⟨before, chunk, later, window⟩ := orderly.exists_window (min least maxRevision) most
    have read := DatabaseStore.getFrom_eq logs.holds sound (fun commit member => storable _ (known commit member))
      isOpen least most
    have least' := toNat_min least maxRevision
    refine ⟨min least maxRevision, before, chunk, later, by omega, fun small => ?_, window, ?_⟩
    · rw [← UInt64.toNat_inj]
      omega
    · show (store.getFrom key least most, Engine.database store) = _
      rw [read, window.filter]
      rfl

end Engine
end CommitLog
