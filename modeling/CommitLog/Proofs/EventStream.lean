import CommitLog.EventStream
import CommitLog.Proofs.Journal

/-!
How a stream takes in what others have committed. In an `Orderly` log each commit has the sequence and the
revision of its place. A stream that `Shows` the first commits of such a log, and is given some of them
again and then all the others, takes in each event of the others once (`Shows.populate`).
-/

namespace CommitLog

/-- The events of a log, in order. -/
def Commit.eventsOf (log : List Commit) : List Event := log.flatMap fun commit => commit.events

/-- Each commit of a log has the sequence and the revision of its place. -/
structure Orderly (log : List Commit) : Prop where
  fits : ∀ commit ∈ log, commit.Fits
  sequence : ∀ before commit later, log = before ++ commit :: later → commit.sequence.toNat = before.length + 1
  revision : ∀ before commit later, log = before ++ commit :: later →
    commit.revision.toNat = (Commit.eventsOf before).length + commit.events.length

namespace Commit

theorem eventsOf_append (first second : List Commit) : eventsOf (first ++ second) = eventsOf first ++ eventsOf second :=
  List.flatMap_append

theorem length_eventsOf (log : List Commit) :
    (eventsOf log).length = ((log.map posting).map Posting.size).sum := by
  rw [eventsOf, List.length_flatMap, List.map_map]
  rfl

end Commit

theorem Journal.Sound.orderly {journal : Journal} {accepted : List Commit} (sound : journal.Sound accepted)
    (key : StreamKey) : Orderly (journal.stream key) := by
  have chained := sound.streams key
  constructor
  · intro commit member
    exact sound.fits (List.mem_filter.1 member).1
  · intro before commit later split
    have sequences := congrArg (·[before.length]?) chained.sequences
    simpa [Journal.postings, split, Commit.posting, List.getElem?_range', Nat.add_comm] using sequences
  · intro before commit later split
    have revisions := chained.revisions
    rw [Journal.postings, split, List.map_append, List.map_cons] at revisions
    have place := revisions.place
    rw [Nat.zero_add, ← Commit.length_eventsOf] at place
    exact place

/-- What has its place among the first commits of a log has at most their number of events and commits. -/
theorem Orderly.known {seen new : List Commit} (orderly : Orderly (seen ++ new)) {commit : Commit}
    (member : commit ∈ seen) :
    commit.revision.toNat ≤ (Commit.eventsOf seen).length ∧ commit.sequence.toNat ≤ seen.length := by
  obtain ⟨before, later, rfl⟩ := List.append_of_mem member
  have split : before ++ commit :: later ++ new = before ++ commit :: (later ++ new) := by simp
  have sequence := orderly.sequence _ _ _ split
  have revision := orderly.revision _ _ _ split
  have events : Commit.eventsOf (before ++ commit :: later) =
      Commit.eventsOf before ++ (commit.events ++ Commit.eventsOf later) := by
    simp [Commit.eventsOf]
  simp only [events, List.length_append, List.length_cons]
  omega

/-- The first commits of a log have no more events than a stream may have. -/
theorem Orderly.few {seen new : List Commit} (orderly : Orderly (seen ++ new)) :
    (Commit.eventsOf seen).length ≤ maxRevision.toNat := by
  rcases List.eq_nil_or_concat seen with rfl | ⟨before, last, rfl⟩
  · exact Nat.zero_le _
  · rw [List.concat_eq_append] at orderly ⊢
    have revision := orderly.revision before last new (by simp)
    have small := (orderly.fits last (by simp)).revision
    rw [Commit.eventsOf_append, List.length_append]
    have one : Commit.eventsOf [last] = last.events := by simp [Commit.eventsOf]
    rw [one]
    omega

namespace EventStream

/-! ### Events -/

/-- Events that the view has already are not taken in again. -/
theorem absorb_known {stream : EventStream} (least : UInt64) {revision : UInt64} {events : List Event}
    (known : revision.toNat + events.length ≤ stream.revision.toNat + 1)
    (small : stream.revision.toNat ≤ maxRevision.toNat) :
    absorb least maxRevision revision events stream = (.ok (), stream) := by
  have limit : maxRevision.toNat = 9223372036854775807 := rfl
  have size : UInt64.size = 18446744073709551616 := rfl
  induction events generalizing revision with
  | nil => rfl
  | cons event events ih =>
    rw [List.length_cons] at known
    have inside : ¬ maxRevision < revision := by
      rw [UInt64.lt_iff_toNat_lt]
      omega
    have old : ¬ (least ≤ revision ∧ stream.revision < revision) := by
      rw [UInt64.lt_iff_toNat_lt]
      omega
    have fits : revision.toNat + 1 < UInt64.size := by omega
    have following : (UInt64.ofNat (revision.toNat + 1)).toNat = revision.toNat + 1 := UInt64.toNat_ofNat_of_lt' fits
    rw [absorb, if_neg inside]
    dsimp only
    rw [if_neg old, Overflow.sum, if_pos fits]
    exact ih (by omega)

/-- Events that come right after the view are taken in one after the other. -/
theorem absorb_new {stream : EventStream} {least revision : UInt64} {events : List Event}
    (next : revision.toNat = stream.revision.toNat + 1) (reached : least.toNat ≤ revision.toNat)
    (small : stream.revision.toNat + events.length ≤ maxRevision.toNat) :
    absorb least maxRevision revision events stream =
      (.ok (), { stream with
        committed := stream.committed ++ events
        revision := UInt64.ofNat (stream.revision.toNat + events.length) }) := by
  have limit : maxRevision.toNat = 9223372036854775807 := rfl
  have size : UInt64.size = 18446744073709551616 := rfl
  induction events generalizing stream revision with
  | nil => simp [absorb]
  | cons event events ih =>
    rw [List.length_cons] at small
    have inside : ¬ maxRevision < revision := by
      rw [UInt64.lt_iff_toNat_lt]
      omega
    have wanted : least ≤ revision ∧ stream.revision < revision := by
      rw [UInt64.le_iff_toNat_le, UInt64.lt_iff_toNat_lt]
      omega
    have fits : revision.toNat + 1 < UInt64.size := by omega
    have following : (UInt64.ofNat (revision.toNat + 1)).toNat = revision.toNat + 1 := UInt64.toNat_ofNat_of_lt' fits
    have taken := @ih { stream with committed := stream.committed ++ [event], revision }
      (UInt64.ofNat (revision.toNat + 1)) following (by omega) (by dsimp only; omega)
    rw [absorb, if_neg inside]
    dsimp only
    rw [if_pos wanted, Overflow.sum, if_pos fits]
    dsimp only
    rw [taken, next, List.length_cons, List.append_assoc, Nat.add_right_comm, Nat.add_assoc]
    rfl

/-! ### Commits -/

/-- A stream that has taken in exactly the commits `seen`. -/
structure Shows (stream : EventStream) (seen : List Commit) : Prop where
  committed : stream.committed = Commit.eventsOf seen
  revision : stream.revision.toNat = (Commit.eventsOf seen).length
  sequence : stream.sequence.toNat = seen.length

theorem Shows.create (key : StreamKey) : (create key).Shows [] := ⟨rfl, rfl, rfl⟩

/-- A stream without changes shows what it did. -/
theorem Shows.of_view {stream other : EventStream} {seen : List Commit} (shows : stream.Shows seen)
    (committed : other.committed = stream.committed) (revision : other.revision = stream.revision)
    (sequence : other.sequence = stream.sequence) : other.Shows seen := by
  refine ⟨?_, ?_, ?_⟩
  · rw [committed, shows.committed]
  · rw [revision, shows.revision]
  · rw [sequence, shows.sequence]

/-- One step of `populate`, for a commit that starts within the largest revision. -/
theorem populate_cons {commit : Commit} (some : commit.events ≠ [])
    (covers : commit.events.length ≤ commit.revision.toNat) (small : commit.revision.toNat ≤ maxRevision.toNat)
    (least : UInt64) (later : List Commit) {stream taken : EventStream}
    (absorbed : absorb least maxRevision (UInt64.ofNat (commit.revision.toNat - commit.events.length + 1))
      commit.events { stream with
        ids := stream.ids.insert commit.id
        sequence := max stream.sequence commit.sequence
        committedHeaders := stream.committedHeaders.merge commit.headers } = (.ok (), taken)) :
    populate least maxRevision (commit :: later) stream = populate least maxRevision later taken := by
  have limit : maxRevision.toNat = 9223372036854775807 := rfl
  have size : UInt64.size = 18446744073709551616 := rfl
  have events := List.length_pos_iff.2 some
  have first : (UInt64.ofNat (commit.revision.toNat - commit.events.length + 1)).toNat =
      commit.revision.toNat - commit.events.length + 1 := UInt64.toNat_ofNat_of_lt' (by omega)
  have inside : ¬ maxRevision < UInt64.ofNat (commit.revision.toNat - commit.events.length + 1) := by
    rw [UInt64.lt_iff_toNat_lt, first]
    omega
  rw [populate, Attempt.firstRevision_eq covers small]
  dsimp only
  rw [if_neg inside, absorbed]

/-- A commit that the stream has seen leaves its view as it is. -/
theorem Shows.again {stream : EventStream} {seen : List Commit} (shows : stream.Shows seen) {commit : Commit}
    (fits : commit.Fits) (revision : commit.revision.toNat ≤ (Commit.eventsOf seen).length)
    (sequence : commit.sequence.toNat ≤ seen.length) (few : (Commit.eventsOf seen).length ≤ maxRevision.toNat)
    (least : UInt64) :
    ∃ taken : EventStream, taken.Shows seen ∧ taken.key = stream.key ∧
      ∀ later, populate least maxRevision (commit :: later) stream = populate least maxRevision later taken := by
  have limit : maxRevision.toNat = 9223372036854775807 := rfl
  have covers := fits.covers
  have known := shows.revision
  have first : (UInt64.ofNat (commit.revision.toNat - commit.events.length + 1)).toNat =
      commit.revision.toNat - commit.events.length + 1 :=
    UInt64.toNat_ofNat_of_lt' (by rw [show UInt64.size = 18446744073709551616 from rfl]; omega)
  have same : max stream.sequence commit.sequence = stream.sequence := by
    rw [← UInt64.toNat_inj, toNat_max, shows.sequence]
    omega
  refine ⟨_, ?_, ?_, fun later => populate_cons fits.events covers fits.revision least later (absorb_known least ?_ ?_)⟩
  · exact shows.of_view rfl rfl same
  · rfl
  · rw [first, known]
    omega
  · rw [known]
    exact few

/-- The commit that comes right after what the stream has seen is taken in. -/
theorem Shows.next {stream : EventStream} {seen : List Commit} (shows : stream.Shows seen) {commit : Commit}
    (fits : commit.Fits)
    (revision : commit.revision.toNat = (Commit.eventsOf seen).length + commit.events.length)
    (sequence : commit.sequence.toNat = seen.length + 1) {least : UInt64}
    (reached : least.toNat ≤ (Commit.eventsOf seen).length + 1) :
    ∃ taken : EventStream, taken.Shows (seen ++ [commit]) ∧ taken.key = stream.key ∧
      ∀ later, populate least maxRevision (commit :: later) stream = populate least maxRevision later taken := by
  have limit : maxRevision.toNat = 9223372036854775807 := rfl
  have size : UInt64.size = 18446744073709551616 := rfl
  have small := fits.revision
  have known := shows.revision
  have first : (UInt64.ofNat (commit.revision.toNat - commit.events.length + 1)).toNat =
      (Commit.eventsOf seen).length + 1 := by
    rw [UInt64.toNat_ofNat_of_lt' (by omega)]
    omega
  have reaches : (UInt64.ofNat (stream.revision.toNat + commit.events.length)).toNat =
      stream.revision.toNat + commit.events.length := UInt64.toNat_ofNat_of_lt' (by omega)
  have added : Commit.eventsOf (seen ++ [commit]) = Commit.eventsOf seen ++ commit.events := by
    simp [Commit.eventsOf]
  have larger : (max stream.sequence commit.sequence).toNat = seen.length + 1 := by
    rw [toNat_max, shows.sequence]
    omega
  refine ⟨_, ?_, ?_, fun later => populate_cons fits.events fits.covers small least later (absorb_new ?_ ?_ ?_)⟩
  · constructor
    · show stream.committed ++ commit.events = _
      rw [shows.committed, added]
    · show (UInt64.ofNat (stream.revision.toNat + commit.events.length)).toNat = _
      rw [reaches, known, added, List.length_append]
    · rw [List.length_append, List.length_singleton]
      exact larger
  · rfl
  · rw [first, known]
  · rw [first]
    exact reached
  · show stream.revision.toNat + commit.events.length ≤ _
    omega

/-- The commits that follow what the stream has seen are all taken in. -/
theorem Shows.extend {stream : EventStream} {seen new : List Commit} (shows : stream.Shows seen)
    (orderly : Orderly (seen ++ new)) {least : UInt64}
    (reached : least.toNat ≤ (Commit.eventsOf seen).length + 1) :
    ∃ taken : EventStream, taken.Shows (seen ++ new) ∧ taken.key = stream.key ∧
      populate least maxRevision new stream = (.ok (), taken) := by
  induction new generalizing stream seen with
  | nil => exact ⟨stream, by simpa using shows, rfl, rfl⟩
  | cons commit new ih =>
    obtain ⟨one, showsOne, keyOne, startsOne⟩ := shows.next (orderly.fits commit (by simp))
      (orderly.revision _ _ _ rfl) (orderly.sequence _ _ _ rfl) reached
    have split : seen ++ commit :: new = seen ++ [commit] ++ new := by simp
    rw [split] at orderly ⊢
    have further : least.toNat ≤ (Commit.eventsOf (seen ++ [commit])).length + 1 := by
      rw [Commit.eventsOf_append, List.length_append]
      omega
    obtain ⟨taken, showsAll, keyAll, populated⟩ := ih showsOne orderly further
    exact ⟨taken, showsAll, by rw [keyAll, keyOne], by rw [startsOne, populated]⟩

/-- A stream that is given some of the commits it has seen and then all that follow them shows the whole
log. -/
theorem Shows.populate {stream : EventStream} {seen new again : List Commit} (shows : stream.Shows seen)
    (orderly : Orderly (seen ++ new)) (repeated : ∀ commit ∈ again, commit ∈ seen) {least : UInt64}
    (reached : least.toNat ≤ (Commit.eventsOf seen).length + 1) :
    ∃ taken : EventStream, taken.Shows (seen ++ new) ∧ taken.key = stream.key ∧
      EventStream.populate least maxRevision (again ++ new) stream = (.ok (), taken) := by
  induction again generalizing stream with
  | nil => exact shows.extend orderly reached
  | cons commit again ih =>
    have member := repeated commit (by simp)
    obtain ⟨revision, sequence⟩ := orderly.known member
    obtain ⟨one, showsOne, keyOne, startsOne⟩ :=
      shows.again (orderly.fits commit (by simp [member])) revision sequence orderly.few least
    obtain ⟨taken, showsAll, keyAll, populated⟩ := ih showsOne fun other inside => repeated other (by simp [inside])
    exact ⟨taken, showsAll, by rw [keyAll, keyOne], by rw [List.cons_append, startsOne, populated]⟩

end EventStream
end CommitLog
