import CommitLog.Proofs.Reached
import CommitLog.Proofs.Resume

/-!
What a stream shows that is opened on a window of its log (`windows_exact`). The store answers with whole commits
that the window touches, and the stream takes in of them just the events whose own revision lies in the window.
-/

namespace CommitLog

/-! ### Events by revision -/

namespace Commit

/-- The events of a commit with their revisions, of which the last is that of the commit. -/
def numbered (commit : Commit) : List (Event × Nat) :=
  commit.events.zipIdx (commit.revision.toNat + 1 - commit.events.length)

/-- The events of a log with their revisions. -/
def eventsByRevision (log : List Commit) : List (Event × Nat) := log.flatMap numbered

/-- The events of a log whose revision lies from `least` to `most`. -/
def eventsWithin (least most : UInt64) (log : List Commit) : List (Event × Nat) :=
  (eventsByRevision log).filter fun event => least.toNat ≤ event.2 ∧ event.2 ≤ most.toNat

end Commit

/-- The revisions in a log are 1, 2, 3 and so on, one for each event. -/
theorem Orderly.eventsByRevision_eq {log : List Commit} (orderly : Orderly log) :
    Commit.eventsByRevision log = (Commit.eventsOf log).zipIdx 1 := by
  induction log using List.reverseRecOn with
  | nil => rfl
  | append_singleton before last ih =>
    have revision := orderly.revision before last [] rfl
    have first : last.revision.toNat + 1 - last.events.length = 1 + (Commit.eventsOf before).length := by omega
    have one : Commit.eventsByRevision [last] = last.events.zipIdx (1 + (Commit.eventsOf before).length) := by
      rw [← first]
      exact List.append_nil _
    have events : Commit.eventsOf [last] = last.events := List.append_nil _
    rw [Commit.eventsOf_append, events, List.zipIdx_append, ← ih orderly.left, ← one]
    exact List.flatMap_append

/-- Of a list whose places are numbered, those from one number to another. -/
theorem List.filter_zipIdx {α : Type} (xs : List α) (first least most : Nat) :
    (xs.zipIdx first).filter (fun x => least ≤ x.2 ∧ x.2 ≤ most) =
      ((xs.take (most + 1 - first)).drop (least - first)).zipIdx (max least first) := by
  induction xs generalizing first with
  | nil => simp
  | cons x xs ih =>
    rw [List.zipIdx_cons, List.filter_cons, ih]
    by_cases past : most < first
    · have none : most + 1 - first = 0 := by omega
      have noneLater : most + 1 - (first + 1) = 0 := by omega
      rw [if_neg (by simp; omega), none, noneLater]
      simp
    have further : most + 1 - first = most + 1 - (first + 1) + 1 := by omega
    by_cases reached : least ≤ first
    · have here : least - first = 0 := by omega
      have hereLater : least - (first + 1) = 0 := by omega
      have start : max least first = first := by omega
      have startLater : max least (first + 1) = first + 1 := by omega
      rw [if_pos (by simp; omega), further, here, hereLater, start, startLater]
      rfl
    · have skip : least - first = least - (first + 1) + 1 := by omega
      have start : max least first = max least (first + 1) := by omega
      rw [if_neg (by simp; omega), further, skip, start]
      rfl

/-- The events of a window are a part of the log without a gap. -/
theorem Orderly.eventsWithin_eq {log : List Commit} (orderly : Orderly log) (least most : UInt64) :
    Commit.eventsWithin least most log =
      (((Commit.eventsOf log).take most.toNat).drop (least.toNat - 1)).zipIdx (max least.toNat 1) := by
  rw [Commit.eventsWithin, orderly.eventsByRevision_eq, List.filter_zipIdx, Nat.add_sub_cancel]

namespace Engine

theorem eventsByRevision_shows (engine : Engine) (log : List Commit) :
    Commit.eventsByRevision (log.map engine.shows) = Commit.eventsByRevision log := by
  have same : ∀ commit, (engine.shows commit).numbered = commit.numbered := by
    intro commit
    cases engine <;> rfl
  simp only [Commit.eventsByRevision, List.flatMap_map, same]

theorem overlaps_shows (engine : Engine) (least most : UInt64) (log : List Commit) :
    (log.map engine.shows).filter (Commit.overlaps least most) =
      (log.filter (Commit.overlaps least most)).map engine.shows := by
  have same : Commit.overlaps least most ∘ engine.shows = Commit.overlaps least most := by
    cases engine <;> rfl
  rw [List.filter_map, same]

end Engine

/-! ### What a window shows -/

/-- The greatest sequence of some commits, 0 if there are none. -/
def Commit.greatestSequence (commits : List Commit) : Nat := (commits.map fun commit => commit.sequence.toNat).foldl max 0

theorem Commit.toNat_greatest (commits : List Commit) (sequence : UInt64) :
    (commits.foldl (fun sequence commit => max sequence commit.sequence) sequence).toNat =
      (commits.map fun commit => commit.sequence.toNat).foldl max sequence.toNat := by
  induction commits generalizing sequence with
  | nil => rfl
  | cons commit commits ih => rw [List.foldl_cons, ih, toNat_max, List.map_cons, List.foldl_cons]

/-- A stream shows a window on a log: the events whose revision lies in the window, and what the commits say that
the window touches. -/
structure EventStream.ShowsWindow (stream : EventStream) (least most : UInt64) (log : List Commit) : Prop where
  committed : stream.committed = (Commit.eventsWithin least most log).map Prod.fst
  revision : stream.revision.toNat = ((Commit.eventsWithin least most log).getLast?.map Prod.snd).getD 0
  sequence : stream.sequence.toNat = Commit.greatestSequence (log.filter (Commit.overlaps least most))
  /-- Under each name the header that was set last, and each name once. -/
  headers : ∀ name, stream.committedHeaders.find? name =
    Fields.find? ((log.filter (Commit.overlaps least most)).flatMap fun commit => commit.headers).reverse name
  ascending : stream.committedHeaders.Ascending

/-- A new stream takes in the events of a window, wherever the commits that it is given begin. -/
theorem Window.committed_eq {start least most : UInt64} {log before chunk later : List Commit}
    (window : Window start most log before chunk later) (orderly : Orderly log) (key : StreamKey) :
    ((EventStream.create key).taking least most before chunk).committed =
      (Commit.eventsWithin least most log).map Prod.fst := by
  have skip : (EventStream.create key).skip least = least.toNat - 1 := Nat.max_eq_left (Nat.zero_le _)
  rw [EventStream.taking, window.take_eq orderly, skip, orderly.eventsWithin_eq, List.zipIdx_map_fst]
  rfl

/-- A new stream is at the end of what it takes in, if that is anything. -/
theorem EventStream.revision_taking_create (key : StreamKey) (least most : UInt64) (before chunk : List Commit) :
    ((create key).taking least most before chunk).revision.toNat =
      if least.toNat - 1 < ((Commit.eventsOf (before ++ chunk)).take most.toNat).length then
        ((Commit.eventsOf (before ++ chunk)).take most.toNat).length
      else 0 := by
  have size : UInt64.size = 18446744073709551616 := rfl
  have small := most.toNat_lt
  have skip : (create key).skip least = least.toNat - 1 := Nat.max_eq_left (Nat.zero_le _)
  have bound := List.length_take_le most.toNat (Commit.eventsOf (before ++ chunk))
  rw [taking, skip]
  dsimp only
  split
  · rw [UInt64.toNat_ofNat_of_lt' (by omega)]
  · rfl

/-- A window that is found starts at the beginning, or holds events of the commits that it touches. -/
theorem Window.taken_of_found {start least most : UInt64} {log before chunk later : List Commit}
    (window : Window start most log before chunk later) (orderly : Orderly log)
    (found : ¬ (0 < least ∧ Commit.eventsWithin least most log = [])) :
    least.toNat = 0 ∨ least.toNat - 1 < ((Commit.eventsOf (before ++ chunk)).take most.toNat).length := by
  by_contra neither
  rw [not_or, Nat.not_lt] at neither
  refine found ⟨by rw [UInt64.lt_iff_toNat_lt, UInt64.toNat_zero]; omega, ?_⟩
  rw [orderly.eventsWithin_eq, ← window.take_eq orderly, List.drop_eq_nil_of_le neither.2]
  rfl

/-- A new stream that takes in the commits of a window shows the window. -/
theorem Window.showsWindow {least most : UInt64} {log before chunk later : List Commit}
    (window : Window least most log before chunk later) (orderly : Orderly log) (key : StreamKey) :
    ((EventStream.create key).taking least most before chunk).ShowsWindow least most log := by
  have events := orderly.eventsWithin_eq least most
  refine ⟨window.committed_eq orderly key, ?_, ?_, fun name => ?_, ?_⟩
  · rw [EventStream.revision_taking_create, window.take_eq orderly, events, List.getLast?_zipIdx, Option.map_map]
    generalize (Commit.eventsOf log).take most.toNat = part
    split
    · next more =>
      have left : part.drop (least.toNat - 1) ≠ [] := by
        rw [← List.length_pos_iff, List.length_drop]
        omega
      rw [List.getLast?_eq_some_getLast left, List.length_drop]
      show part.length = max least.toNat 1 + (part.length - (least.toNat - 1)) - 1
      omega
    · next none =>
      rw [List.drop_eq_nil_of_le (Nat.not_lt.1 none)]
      rfl
  · rw [window.filter]
    exact Commit.toNat_greatest chunk 0
  · rw [window.filter]
    exact (Fields.find?_merge [] _ name).trans (Option.or_none)
  · exact Fields.Ascending.merge .nil _

namespace Engine

theorem eventsWithin_shows (engine : Engine) (least most : UInt64) (log : List Commit) :
    Commit.eventsWithin least most (log.map engine.shows) = Commit.eventsWithin least most log := by
  rw [Commit.eventsWithin, eventsByRevision_shows]
  rfl

/-- A window on a log is one on the log as an engine shows it. -/
theorem showsWindow_shows (engine : Engine) {stream : EventStream} {least most : UInt64} {log : List Commit}
    (shows : stream.ShowsWindow least most log) : stream.ShowsWindow least most (log.map engine.shows) := by
  have sequences : ∀ commits : List Commit, Commit.greatestSequence (commits.map engine.shows) =
      Commit.greatestSequence commits := by
    intro commits
    rw [Commit.greatestSequence, List.map_map]
    cases engine <;> rfl
  have headers : ∀ commits : List Commit, ((commits.map engine.shows).flatMap fun commit => commit.headers) =
      commits.flatMap fun commit => commit.headers := by
    intro commits
    rw [List.flatMap_map]
    cases engine <;> rfl
  refine ⟨?_, ?_, ?_, fun name => ?_, shows.ascending⟩
  · rw [engine.eventsWithin_shows, shows.committed]
  · rw [engine.eventsWithin_shows, shows.revision]
  · rw [engine.overlaps_shows, sequences, shows.sequence]
  · rw [engine.overlaps_shows, headers, shows.headers]

end Engine

/-! ### Opening a stream -/

theorem Engine.getFrom_of_disposed {engine : Engine} (disposed : CommitStore.isDisposed engine = true)
    (key : StreamKey) (least most : UInt64) :
    CommitStore.getFrom key least most engine = (.error .disposed, engine) := by
  cases engine with
  | memory store =>
    exact congrArg (fun served => (served.1, Engine.memory served.2)) ((MemoryStore.closed disposed).getFrom key least most)
  | database store =>
    exact congrArg (fun served => (served.1, Engine.database served.2))
      ((DatabaseStore.closed disposed).getFrom key least most)

/-- What opening a stream takes in: the commits that the engine shows for the window, if one of them has an event in
it. -/
theorem Engine.Reflects.openWindow_eq {engine : Engine} {history : History} {journal : Journal} {key : StreamKey}
    (reflects : engine.Reflects history journal) (isOpen : CommitStore.isDisposed engine = false)
    (known : ∀ commit ∈ journal.stream key, engine.Restores commit) (least most : UInt64) :
    ∃ start before chunk later, start.toNat ≤ least.toNat ∧ (least.toNat ≤ maxRevision.toNat → start = least) ∧
      Window start most (journal.stream key) before chunk later ∧
      EventStream.openWindow key least most engine =
        (if 0 < least ∧ Commit.eventsWithin least most (journal.stream key) = [] then .error (.streamNotFound key)
          else .ok ((EventStream.create key).taking least most before chunk), engine) := by
  have orderly := reflects.sound.orderly key
  obtain ⟨start, before, chunk, later, early, exact, window, read⟩ :=
    (reflects.headed isOpen).holds.window reflects.sound known least most
  refine ⟨start, before, chunk, later, early, exact, window, ?_⟩
  have committed := @Window.committed_eq start least most _ before chunk later window orderly key
  have skipped := window.skipped orderly
  rw [window.split] at orderly
  have populated := @EventStream.populate_eq least most before chunk (EventStream.create key) orderly.left
    (fun commit member => (window.within commit member).2) (by
      rw [EventStream.skip]
      omega)
  rw [← engine.forgetful.populate_shows] at populated
  rw [engine.openWindow_forgetful, EventStream.openWindow, read]
  dsimp only
  rw [populated]
  simp only [committed, List.isEmpty_iff, List.map_eq_nil_iff]
  split <;> rfl

/-- In every state that a store can reach, a stream that can be read is opened on any window, and shows just that.
Only a window that starts after the beginning must hold an event. -/
theorem windows_exact {engine : Engine} {history : History} (reached : engine.Reached history) (key : StreamKey)
    (legible : engine.Legible key history) (least most : UInt64) :
    let opened := EventStream.openWindow key least most engine
    opened.2 = engine ∧
      if CommitStore.isDisposed engine then opened.1 = .error .disposed
      else
        ∃ log, engine.log? key = .ok log ∧
          (Commit.eventsByRevision log).map Prod.snd = List.range' 1 (Commit.eventsOf log).length ∧
          if 0 < least ∧ Commit.eventsWithin least most log = [] then opened.1 = .error (.streamNotFound key)
          else ∃ stream, opened.1 = .ok stream ∧ stream.key = key ∧ stream.ShowsWindow least most log := by
  intro opened
  obtain ⟨journal, reflects⟩ := reached.reflects
  have sound := reflects.sound
  have orderly := sound.orderly key
  have known := reflects.known legible
  refine ⟨congrArg Prod.snd (engine.openWindow_forgetful least most), ?_⟩
  split
  · next disposed =>
    show (EventStream.openWindow key least most engine).1 = _
    rw [EventStream.openWindow, Engine.getFrom_of_disposed disposed]
  next isOpen =>
  rw [Bool.not_eq_true] at isOpen
  obtain ⟨start, before, chunk, later, -, exact, window, answered⟩ := reflects.openWindow_eq isOpen known least most
  refine ⟨_, reflects.logs.log_eq sound known, ?_, ?_⟩
  · rw [engine.eventsByRevision_shows, engine.eventsOf_shows, orderly.eventsByRevision_eq, List.zipIdx_map_snd]
  have result : opened.1 = _ := congrArg Prod.fst answered
  rw [result, engine.eventsWithin_shows]
  dsimp only
  split
  · rfl
  next found =>
  -- A database starts a window that is beyond all revisions at the last of them; no event is in it.
  have small : least.toNat ≤ maxRevision.toNat := by
    by_contra beyond
    have few := @Orderly.few (journal.stream key) [] (by rwa [List.append_nil])
    refine found ⟨by rw [UInt64.lt_iff_toNat_lt, UInt64.toNat_zero]; omega, ?_⟩
    rw [orderly.eventsWithin_eq, List.drop_eq_nil_of_le (by rw [List.length_take]; omega)]
    rfl
  rw [exact small] at window
  exact ⟨_, rfl, rfl, engine.showsWindow_shows (window.showsWindow orderly key)⟩

/-- Two commits of three and two events, and a window that begins in the first and ends in the second. -/
theorem windows_exact_across_commits :
    let key : StreamKey := ⟨⟨"orders"⟩, ⟨"7"⟩⟩
    let attempt (name : String) (revision sequence : UInt64) (bodies : List Bytes) : Attempt :=
      ⟨key.bucket, key.stream, revision, ⟨name⟩, sequence, 0, [], bodies.map fun body => { body }⟩
    let calls : List Call := [.commit (attempt "placed" 3 1 [[1], [2], [3]]), .commit (attempt "paid" 5 2 [[4], [5]])]
    let run := Call.serveAll calls (DatabaseStore.fresh {})
    Engine.Reached (.database run.2) (calls.zip run.1) ∧ Engine.Legible (.database run.2) key (calls.zip run.1) ∧
      ∃ log stream, Engine.log? key (.database run.2) = .ok log ∧
        (EventStream.openWindow key 2 4 (Engine.database run.2)).1 = .ok stream ∧ stream.ShowsWindow 2 4 log ∧
        (Commit.eventsWithin 2 4 log).map (fun event => (event.1.body, event.2)) = [([2], 2), ([3], 3), ([4], 4)] := by
  intro key attempt calls run
  have reached : Engine.Reached (.database run.2) (calls.zip run.1) := .inDatabase {} calls
  have bare : ((History.accepted (calls.zip run.1)).all fun commit =>
      commit.headers.isEmpty && commit.events.all fun event => event.headers.isEmpty) = true := by
    decide +kernel
  have legible : Engine.Legible (.database run.2) key (calls.zip run.1) :=
    fun commit member _ => Commit.storable_of_bare bare commit member
  have told : (Engine.log? key (.database run.2)).toOption.map (fun log =>
      (Commit.eventsWithin 2 4 log).map fun event => (event.1.body, event.2)) =
        some [([2], 2), ([3], 3), ([4], 4)] := by
    decide +kernel
  obtain ⟨-, answered⟩ := windows_exact reached key legible 2 4
  have isOpen : ¬ CommitStore.isDisposed (Engine.database run.2) = true := by decide +kernel
  rw [if_neg isOpen] at answered
  obtain ⟨log, stored, -, answered⟩ := answered
  rw [stored] at told
  have shown : (Commit.eventsWithin 2 4 log).map (fun event => (event.1.body, event.2)) =
      [([2], 2), ([3], 3), ([4], 4)] := Option.some.inj told
  split at answered
  · next missing =>
    rw [missing.2] at shown
    contradiction
  · obtain ⟨stream, opened, -, shows⟩ := answered
    exact ⟨reached, legible, log, stream, stored, opened, shows, shown⟩

end CommitLog
