import CommitLog.Proofs.Refresh
import CommitLog.Proofs.WindowRead

/-!
A client that commits its changes while nobody else writes. It stands somewhere on its log: it has counted the first
commits, and has the events of the last of them as far as its revision (`Stands`). At the end of the log its changes
become the next commit (`Stands.appends`), and before it there is a conflict, after which it stands at the end
(`Stands.conflicts`). A client that stands within the last commit is neither: it has counted the commit but lacks
some of its events, so that its attempts have the next sequence and a wrong revision (`Stands.mismatch`).
-/

namespace CommitLog

/-! ### Attempts -/

/-- The rules on the place of an attempt decide one that is of the right form, has a new id and leaves no gap. -/
theorem Attempt.refusal_of_next {attempt : Attempt} {stored : List Posting} (events : attempt.events ≠ [])
    (covers : attempt.events.length ≤ attempt.revision.toNat) (small : attempt.revision.toNat ≤ maxRevision.toNat)
    (fresh : ∀ posting ∈ stored, posting.id ≠ attempt.id) (counts : 0 < attempt.sequence.toNat)
    (follows : attempt.sequence.toNat ≤ stored.length + 1) :
    attempt.refusal stored =
      if attempt.sequence.toNat ≤ stored.length then some attempt.conflict
      else if attempt.revision.toNat - attempt.events.length ≠ Posting.lastRevision stored then
        some (.invalidAttempt (.revisionMismatch
          (UInt64.ofNat (attempt.revision.toNat - attempt.events.length + 1))
          (UInt64.ofNat (Posting.lastRevision stored))))
      else none := by
  have size := List.length_pos_iff.2 events
  have unknown : ¬ ∃ posting ∈ stored, posting.id = attempt.id := fun ⟨posting, member, same⟩ => fresh posting member same
  simp only [refusal]
  rw [if_neg (by omega), if_neg (by omega), if_neg (by omega), if_neg unknown]
  by_cases taken : attempt.sequence.toNat ≤ stored.length
  · rw [if_pos taken, if_pos taken]
  · rw [if_neg taken, if_neg taken, if_neg (by omega)]

/-- The last revision of a stream is the number of its events. -/
theorem Journal.Sound.lastRevision_eq {journal : Journal} {accepted : List Commit} (sound : journal.Sound accepted)
    (key : StreamKey) :
    Posting.lastRevision (journal.postings key) = (Commit.eventsOf (journal.stream key)).length := by
  rw [← sound.reached_eq, Journal.reached, Posting.lastRevision, Journal.postings, List.getLast?_map]
  cases (journal.stream key).getLast? <;> rfl

/-- An attempt with a new id is refused for its place, or is taken. -/
theorem Engine.Reflects.commit {engine : Engine} {history : History} {journal : Journal}
    (reflects : engine.Reflects history journal) (isOpen : CommitStore.isDisposed engine = false)
    (room : history.accepted.length < 2 ^ 63 - 1) {attempt : Attempt}
    (fresh : ∀ commit ∈ history.accepted, commit.key = attempt.key → commit.id ≠ attempt.id) :
    (∀ error, attempt.refusal (journal.postings attempt.key) = some error →
        CommitStore.commit attempt engine = (.error error, engine)) ∧
      (attempt.refusal (journal.postings attempt.key) = none →
        ∃ checkpoint after, journal.last.next = .ok checkpoint ∧
          CommitStore.commit attempt engine = (.ok (attempt.toCommit checkpoint), after) ∧
          after.Logs (journal.accept attempt checkpoint) ∧ after.shows = engine.shows ∧
          after.Restores = engine.Restores) := by
  obtain ⟨checkpoint, next⟩ := reflects.sound.exists_next room
  cases reflects with
  | @memory store ledger keeps sound =>
    have served : CommitStore.commit attempt (Engine.memory store) =
        ((store.commit attempt).1, .memory (store.commit attempt).2) := rfl
    rw [served, MemoryStore.commit, MemoryStore.check_eq keeps sound isOpen, keeps.last]
    refine ⟨fun error refused => ?_, fun taken => ?_⟩
    · rw [refused]
    · rw [taken, next]
      exact ⟨checkpoint, _, rfl, rfl, .memory (keeps.publish attempt next), rfl, rfl⟩
  | @database store _ holds sound inStep snapshots single recalls =>
    have served : CommitStore.commit attempt (Engine.database store) =
        ((store.commit attempt).1, .database (store.commit attempt).2) := rfl
    have unknown : store.handle.recent.contains (DatabaseStore.commitKey attempt) = true →
        ∃ posting ∈ journal.postings attempt.key, posting.id = attempt.id := by
      intro cached
      obtain ⟨commit, member, sameKey, sameId⟩ := recalls _ (List.contains_iff_mem.1 cached)
      exact absurd sameId (fresh commit member sameKey)
    rw [served, DatabaseStore.commit_eq holds sound isOpen attempt unknown]
    refine ⟨fun error refused => ?_, fun taken => ?_⟩
    · rw [refused]
    · rw [taken, next]
      exact ⟨checkpoint, _, rfl, rfl, .database (holds.appended attempt checkpoint), rfl, rfl⟩

namespace EventStream

/-! ### What comes of the changes of a client -/

section Commit

variable {σ : Type} [CommitStore σ] {client next : EventStream} {id : CommitId} {now : UInt64} {attempt : Attempt}
  {store after : σ}

/-- A client can make an attempt while its numbers are small. -/
theorem exists_attempt (client : EventStream) (id : CommitId) (now : UInt64)
    (small : client.revision.toNat + client.uncommitted.length ≤ maxRevision.toNat)
    (few : client.sequence.toNat < 2 ^ 63) :
    ∃ attempt, client.attempt id now = .ok attempt := by
  have limit : maxRevision.toNat = 9223372036854775807 := rfl
  have size : UInt64.size = 18446744073709551616 := rfl
  have reached : Overflow.sum client.revision client.uncommitted.length = .ok _ := if_pos (by omega)
  have counted : Overflow.sum client.sequence 1 = .ok _ := if_pos (by omega)
  rw [EventStream.attempt, reached, counted]
  exact ⟨_, rfl⟩

/-- A client with changes and a new id sends its attempt, and follows its own commit when it is taken. -/
theorem commitChanges_taken (dirty : client.uncommitted ≠ []) (fresh : id ∉ client.ids)
    (made : client.attempt id now = .ok attempt) {commit : Commit}
    (answered : CommitStore.commit attempt store = (.ok commit, after))
    (followed : client.follow [commit] = (.ok (), next)) :
    client.commitChanges id now store = (.ok (some commit), next.clearChanges, after) := by
  rw [commitChanges, if_neg (by simpa using dirty), if_neg (by simpa using fresh), made]
  dsimp only
  rw [answered]
  dsimp only
  rw [followed]

theorem commitChanges_conflict (dirty : client.uncommitted ≠ []) (fresh : id ∉ client.ids)
    (made : client.attempt id now = .ok attempt) {key : StreamKey} {sequence : UInt64} {refreshed : σ}
    (answered : CommitStore.commit attempt store = (.error (.concurrency key sequence), after))
    (read : client.refresh after = (.ok (), next, refreshed)) :
    client.commitChanges id now store = (.error (.concurrency key sequence), next, refreshed) := by
  rw [commitChanges, if_neg (by simpa using dirty), if_neg (by simpa using fresh), made]
  dsimp only
  rw [answered]
  dsimp only
  rw [read]

theorem commitChanges_refused (dirty : client.uncommitted ≠ []) (fresh : id ∉ client.ids)
    (made : client.attempt id now = .ok attempt) {error : Error}
    (answered : CommitStore.commit attempt store = (.error error, after))
    (calm : ∀ key sequence, error ≠ .concurrency key sequence) :
    client.commitChanges id now store = (.error error, client, after) := by
  rw [commitChanges, if_neg (by simpa using dirty), if_neg (by simpa using fresh), made]
  dsimp only
  rw [answered]
  cases error with
  | concurrency key sequence => exact absurd rfl (calm key sequence)
  | _ => rfl

end Commit

/-! ### Where a client stands -/

/-- A client stands at a revision of its log and has counted the commits `seen`. -/
structure Stands (client : EventStream) (key : StreamKey) (seen : List Commit) (revision : Nat) : Prop where
  key : client.key = key
  revision : client.revision.toNat = revision
  sequence : client.sequence.toNat = seen.length
  ids : ∀ id ∈ client.ids, ∃ commit ∈ seen, commit.id = id

variable {client : EventStream} {key : StreamKey} {seen new : List Commit} {reached : Nat}

/-- Changes are not part of where a client stands. -/
theorem Stands.change (stands : client.Stands key seen reached) (events : List Event) (headers : Headers) :
    Stands { client with uncommitted := events, uncommittedHeaders := headers } key seen reached :=
  ⟨stands.key, stands.revision, stands.sequence, stands.ids⟩

/-- The ids that are known once some commits have been taken in. -/
theorem mem_ids_taking {least most : UInt64} {before chunk : List Commit} {id : CommitId}
    (member : id ∈ (client.taking least most before chunk).ids) :
    id ∈ client.ids ∨ ∃ commit ∈ chunk, commit.id = id := by
  have inserted : ∀ (chunk : List Commit) (ids : List CommitId),
      id ∈ chunk.foldl (fun ids commit => ids.insert commit.id) ids → id ∈ ids ∨ ∃ commit ∈ chunk, commit.id = id := by
    intro chunk
    induction chunk with
    | nil => exact fun ids known => .inl known
    | cons commit chunk ih =>
      intro ids known
      rcases ih _ known with earlier | ⟨other, later, same⟩
      · rcases List.mem_insert_iff.1 earlier with rfl | before
        · exact .inr ⟨commit, by simp, rfl⟩
        · exact .inl before
      · exact .inr ⟨other, by simp [later], same⟩
  exact inserted chunk client.ids member

variable {engine : Engine} {history : History} {journal : Journal}

/-- A conflict shows a client that stands before the end of its log all that it lacks. -/
theorem Stands.refresh (stands : client.Stands key seen reached) (reflects : engine.Reflects history journal)
    (isOpen : CommitStore.isDisposed engine = false) (known : ∀ commit ∈ journal.stream key, engine.Restores commit)
    (split : journal.stream key = seen ++ new) (more : new ≠ []) (within : reached ≤ (Commit.eventsOf seen).length) :
    ∃ refreshed, client.refresh engine = (.ok (), refreshed, engine) ∧
      refreshed.Stands key (journal.stream key) (Commit.eventsOf (journal.stream key)).length ∧
      refreshed.uncommitted = client.uncommitted ∧ refreshed.uncommittedHeaders = client.uncommittedHeaders := by
  have sound := reflects.sound
  have orderly := sound.orderly key
  have fewer : (Commit.eventsOf seen).length < (Commit.eventsOf (journal.stream key)).length := by
    rw [split] at orderly ⊢
    exact Commit.length_eventsOf_lt (fun commit member => orderly.fits commit (by simp [member])) more
  have short : client.revision.toNat ≤ (Commit.eventsOf (journal.stream key)).length := by
    rw [stands.revision]
    omega
  obtain ⟨least, before, chunk, sum, next, whole, early, read, populated⟩ :=
    populate_beyond (reflects.headed isOpen).holds sound known short
  have some : chunk ≠ [] := by
    rintro rfl
    rw [List.append_nil] at whole
    rw [← whole, stands.revision] at early
    omega
  have few := @Orderly.few (journal.stream key) [] (by rwa [List.append_nil])
  have all : (Commit.eventsOf (before ++ chunk)).take maxRevision.toNat = Commit.eventsOf (before ++ chunk) :=
    List.take_of_length_le (by rwa [← whole])
  refine ⟨client.taking least maxRevision before chunk, ?_, ⟨stands.key, ?_, ?_, fun id member => ?_⟩, rfl, rfl⟩
  · rw [EventStream.refresh, sum]
    dsimp only
    rw [stands.key, engine.getFrom_forgetful, read]
    dsimp only
    rw [populated]
  · rw [revision_taking (Nat.le_of_eq (by rw [next, Nat.add_sub_cancel])) (by rwa [all, ← whole]), all, ← whole]
  · have counted := @Orderly.sequence_foldl before chunk (by rwa [← whole]) client.sequence
    rw [if_neg some, stands.sequence, ← whole, split, List.length_append] at counted
    rw [split, List.length_append]
    refine counted.trans ?_
    omega
  · rcases mem_ids_taking member with earlier | ⟨commit, inChunk, same⟩
    · obtain ⟨commit, inSeen, same⟩ := stands.ids id earlier
      exact ⟨commit, by rw [split]; simp [inSeen], same⟩
    · exact ⟨commit, by rw [whole]; simp [inChunk], same⟩

/-- The attempt of a client, and what decides it: whether there are commits that the client has not counted, and
whether it has the events of those that it has. -/
theorem Stands.exists_attempt (stands : client.Stands key seen reached) {accepted : List Commit}
    (sound : journal.Sound accepted) (split : journal.stream key = seen ++ new) (dirty : client.uncommitted ≠ [])
    (small : reached + client.uncommitted.length ≤ maxRevision.toNat) {id : CommitId}
    (fresh : ∀ commit ∈ accepted, commit.key = key → commit.id ≠ id) (now : UInt64) :
    ∃ attempt, client.attempt id now = .ok attempt ∧ attempt.key = key ∧ attempt.id = id ∧
      attempt.events = client.uncommitted ∧ attempt.headers = client.uncommittedHeaders ∧ id ∉ client.ids ∧
      attempt.refusal (journal.postings key) =
        if new ≠ [] then some (.concurrency key (UInt64.ofNat (seen.length + 1)))
        else if reached ≠ (Commit.eventsOf seen).length then
          some (.invalidAttempt (.revisionMismatch (UInt64.ofNat (reached + 1))
            (UInt64.ofNat (Commit.eventsOf seen).length)))
        else none := by
  have length : (journal.postings key).length = seen.length + new.length := by
    rw [Journal.postings, List.length_map, split, List.length_append]
  have few := sound.length_lt key
  have unused : ∀ commit ∈ journal.stream key, commit.id ≠ id := sound.forall_stream fresh
  obtain ⟨attempt, made⟩ := EventStream.exists_attempt client id now (by rwa [stands.revision])
    (by rw [stands.sequence]; omega)
  obtain ⟨sameKey, events, revision, sequence⟩ := attempt_eq_ok made
  obtain ⟨sameId, headers⟩ := attempt_named made
  rw [stands.revision] at revision
  rw [stands.sequence] at sequence
  rw [stands.key] at sameKey
  have counted : attempt.sequence = UInt64.ofNat (seen.length + 1) := by rw [← sequence, UInt64.ofNat_toNat]
  have first : attempt.revision.toNat - attempt.events.length = reached := by rw [revision, events, Nat.add_sub_cancel]
  refine ⟨attempt, made, sameKey, sameId, events, headers, fun member => ?_, ?_⟩
  · obtain ⟨commit, inSeen, same⟩ := stands.ids id member
    exact unused commit (by rw [split]; simp [inSeen]) same
  have taken : attempt.sequence.toNat ≤ (journal.postings key).length ↔ new ≠ [] := by
    rw [sequence, length, ← List.length_pos_iff]
    omega
  rw [Attempt.refusal_of_next (by rwa [events]) (by rw [revision, events]; omega) (by omega)
    (fun posting member => ?_) (by omega) (by omega), first, sound.lastRevision_eq, Attempt.conflict, sameKey]
  · by_cases more : new ≠ []
    · rw [if_pos (taken.2 more), if_pos more, counted]
    · have whole : journal.stream key = seen := by rw [split, not_ne_iff.1 more, List.append_nil]
      rw [if_neg (mt taken.1 more), if_neg more, whole]
  · obtain ⟨commit, inStream, rfl⟩ := List.mem_map.1 member
    rw [sameId]
    exact unused commit inStream

/-- The changes of a client have become the next commit of its stream, of which the log was `log`. -/
def Appends (client : EventStream) (log : List Commit)
    (outcome : Except Error (Option Commit) × EventStream × Engine) : Prop :=
  ∃ commit, outcome.1 = .ok (some commit) ∧ commit.events = client.uncommitted ∧
    commit.headers = client.uncommittedHeaders ∧
      (outcome.2.2.Restores commit → outcome.2.2.log? client.key = .ok (log ++ [outcome.2.2.shows commit]))

/-- What is appended are the changes, whoever has them. -/
theorem Appends.of_changes {other : EventStream} {log : List Commit}
    {outcome : Except Error (Option Commit) × EventStream × Engine} (appends : other.Appends log outcome)
    (key : other.key = client.key) (events : other.uncommitted = client.uncommitted)
    (headers : other.uncommittedHeaders = client.uncommittedHeaders) : client.Appends log outcome := by
  rwa [Appends, key, events, headers] at appends

section Outcome

variable (reflects : engine.Reflects history journal) (isOpen : CommitStore.isDisposed engine = false)
  (room : history.accepted.length < 2 ^ 63 - 1) {id : CommitId}
  (fresh : ∀ commit ∈ history.accepted, commit.key = key → commit.id ≠ id) (now : UInt64)
include reflects isOpen room fresh

/-- At the end of the log the changes become the next commit. -/
theorem Stands.appends (stands : client.Stands key (journal.stream key) (Commit.eventsOf (journal.stream key)).length)
    (known : ∀ commit ∈ journal.stream key, engine.Restores commit) (dirty : client.uncommitted ≠ [])
    (small : (Commit.eventsOf (journal.stream key)).length + client.uncommitted.length ≤ maxRevision.toNat) :
    client.Appends ((journal.stream key).map engine.shows) (client.commitChanges id now engine) := by
  have sound := reflects.sound
  obtain ⟨attempt, made, sameKey, sameId, events, headers, unused, decided⟩ :=
    stands.exists_attempt sound (List.append_nil _).symm dirty small fresh now
  rw [if_neg (by simp), if_neg (by simp), ← sameKey] at decided
  obtain ⟨checkpoint, after, next, answered, logs, shows, restores⟩ :=
    (reflects.commit isOpen room (by rwa [sameKey, sameId])).2 decided
  have grown := Journal.stream_accept journal attempt checkpoint key
  rw [if_pos sameKey] at grown
  have soundAfter := sound.accept decided next
  have orderly := soundAfter.orderly key
  rw [grown] at orderly
  obtain ⟨least, -, followed⟩ := follow_eq orderly stands.revision
  rw [commitChanges_taken dirty unused made answered followed]
  refine ⟨_, rfl, events, headers, fun restored => ?_⟩
  have readable : ∀ commit ∈ (journal.accept attempt checkpoint).stream key, after.Restores commit := by
    intro commit member
    rw [grown] at member
    rw [restores]
    rcases List.mem_append.1 member with earlier | last
    · exact known commit earlier
    · rw [List.mem_singleton.1 last, ← restores]
      exact restored
  show after.log? client.key = _
  rw [stands.key, logs.log_eq soundAfter readable, grown, List.map_append, shows]
  rfl

/-- Before the end of the log there is a conflict, after which the client stands at the end. -/
theorem Stands.conflicts (stands : client.Stands key seen reached)
    (known : ∀ commit ∈ journal.stream key, engine.Restores commit) (split : journal.stream key = seen ++ new)
    (more : new ≠ []) (within : reached ≤ (Commit.eventsOf seen).length) (dirty : client.uncommitted ≠ [])
    (small : reached + client.uncommitted.length ≤ maxRevision.toNat) :
    ∃ refreshed, client.commitChanges id now engine =
        (.error (.concurrency key (UInt64.ofNat (seen.length + 1))), refreshed, engine) ∧
      refreshed.Stands key (journal.stream key) (Commit.eventsOf (journal.stream key)).length ∧
      refreshed.uncommitted = client.uncommitted ∧ refreshed.uncommittedHeaders = client.uncommittedHeaders := by
  obtain ⟨attempt, made, sameKey, sameId, events, headers, unused, decided⟩ :=
    stands.exists_attempt reflects.sound split dirty small fresh now
  rw [if_pos more, ← sameKey] at decided
  have answered := (reflects.commit isOpen room (by rwa [sameKey, sameId])).1 _ decided
  obtain ⟨refreshed, read, standsAfter, same⟩ := stands.refresh reflects isOpen known split more within
  rw [sameKey] at answered
  exact ⟨refreshed, commitChanges_conflict dirty unused made answered read, standsAfter, same⟩

/-- Within the last commit every attempt is refused, and nothing changes. -/
theorem Stands.mismatch (stands : client.Stands key (journal.stream key) reached)
    (within : reached ≠ (Commit.eventsOf (journal.stream key)).length) (dirty : client.uncommitted ≠ [])
    (small : reached + client.uncommitted.length ≤ maxRevision.toNat) :
    client.commitChanges id now engine =
      (.error (.invalidAttempt (.revisionMismatch (UInt64.ofNat (reached + 1))
        (UInt64.ofNat (Commit.eventsOf (journal.stream key)).length))), client, engine) := by
  obtain ⟨attempt, made, sameKey, sameId, events, headers, unused, decided⟩ :=
    stands.exists_attempt reflects.sound (List.append_nil _).symm dirty small fresh now
  rw [if_neg (by simp), if_pos within, ← sameKey] at decided
  have answered := (reflects.commit isOpen room (by rwa [sameKey, sameId])).1 _ decided
  rw [sameKey] at answered
  exact commitChanges_refused dirty unused made answered (by simp)

end Outcome

/-! ### Where a client is opened -/

/-- A client that is opened stands at the end of its window, and has counted all commits that start within it. -/
theorem opened_stands (reflects : engine.Reflects history journal) (isOpen : CommitStore.isDisposed engine = false)
    (known : ∀ commit ∈ journal.stream key, engine.Restores commit) {least most : UInt64}
    (opened : (openWindow key least most engine).1 = .ok client) :
    ∃ seen later, journal.stream key = seen ++ later ∧
      client.Stands key seen (min most.toNat (Commit.eventsOf seen).length) ∧
      (∀ last ∈ seen.getLast?, last.revision.toNat + 1 ≤ most.toNat + last.events.length) ∧
      ∀ commit ∈ later, most.toNat + commit.events.length < commit.revision.toNat + 1 := by
  have orderly := reflects.sound.orderly key
  obtain ⟨start, before, chunk, later, early, -, window, answered⟩ := reflects.openWindow_eq isOpen known least most
  have skipped := window.skipped orderly
  rw [answered] at opened
  dsimp only at opened
  split at opened
  · contradiction
  next found =>
  cases opened
  have holds := window.taken_of_found orderly found
  rw [window.split] at orderly
  have length : ((Commit.eventsOf (before ++ chunk)).take most.toNat).length =
      min most.toNat (Commit.eventsOf (before ++ chunk)).length := List.length_take
  -- Where nothing is taken in, the window starts at the beginning of the log and ends there.
  have none : chunk = [] → before = [] := by
    rintro rfl
    refine List.eq_nil_iff_forall_not_mem.2 fun commit member => ?_
    have below := window.before commit member
    rw [length, List.append_nil] at holds
    omega
  have revision : ((create key).taking least most before chunk).revision.toNat =
      min most.toNat (Commit.eventsOf (before ++ chunk)).length := by
    rw [revision_taking_create, ← length]
    split
    · rfl
    · omega
  refine ⟨before ++ chunk, later, window.split, ⟨rfl, revision, ?_, fun id member => ?_⟩, fun last member => ?_,
    window.later⟩
  · refine (@Orderly.sequence_foldl before chunk orderly.left 0).trans ?_
    split
    · next empty => rw [none empty, empty]; rfl
    · exact Nat.max_eq_right (Nat.zero_le _)
  · rcases mem_ids_taking member with earlier | ⟨commit, inChunk, same⟩
    · contradiction
    · exact ⟨commit, by simp [inChunk], same⟩
  · rcases List.eq_nil_or_concat chunk with empty | ⟨others, final, rfl⟩
    · rw [none empty, empty] at member
      contradiction
    · rw [List.concat_eq_append, ← List.append_assoc, List.getLast?_concat] at member
      cases member
      exact (window.within last (by simp)).2

end EventStream

/-- A window up to `most` ends within the last commit of a log: after its first event, and before its last. -/
def Commit.EndsWithin (most : UInt64) (log : List Commit) : Prop :=
  ∃ last ∈ log.getLast?, last.revision.toNat < most.toNat + last.events.length ∧ most.toNat < last.revision.toNat

instance (most : UInt64) (log : List Commit) : Decidable (Commit.EndsWithin most log) :=
  inferInstanceAs (Decidable (∃ last ∈ log.getLast?,
    last.revision.toNat < most.toNat + last.events.length ∧ most.toNat < last.revision.toNat))

/-- So does a window that does not reach the end of the log, if the last commit starts within it. -/
theorem Orderly.endsWithin_iff {most : UInt64} {log : List Commit} (orderly : Orderly log)
    (starts : ∀ last ∈ log.getLast?, last.revision.toNat + 1 ≤ most.toNat + last.events.length) :
    Commit.EndsWithin most log ↔ most.toNat < (Commit.eventsOf log).length := by
  rcases List.eq_nil_or_concat log with rfl | ⟨before, last, rfl⟩
  · simp [Commit.EndsWithin, Commit.eventsOf]
  · rw [List.concat_eq_append] at orderly starts ⊢
    have first := starts last (by simp)
    rw [Commit.EndsWithin, ← orderly.last.1, List.getLast?_concat]
    constructor
    · rintro ⟨other, member, -, above⟩
      cases member
      exact above
    · exact fun above => ⟨last, rfl, by omega, above⟩

/-- A window that ends before the last commit does not end within it. -/
theorem Commit.not_endsWithin {most : UInt64} {seen new : List Commit} (more : new ≠ [])
    (beyond : ∀ commit ∈ new, most.toNat + commit.events.length < commit.revision.toNat + 1) :
    ¬ EndsWithin most (seen ++ new) := by
  have found := List.getLast?_eq_some_getLast more
  rintro ⟨last, member, first, -⟩
  rw [List.getLast?_append, found] at member
  cases member
  have past := beyond _ (List.mem_of_getLast? found)
  omega

theorem Engine.endsWithin_shows (engine : Engine) (most : UInt64) (log : List Commit) :
    Commit.EndsWithin most (log.map engine.shows) ↔ Commit.EndsWithin most log := by
  rw [Commit.EndsWithin, Commit.EndsWithin, List.getLast?_map]
  cases log.getLast? with
  | none => simp
  | some last => cases engine <;> simp [Engine.shows, Commit.stored]

/-- In every state that an open store can reach, and while nobody else writes, a client that is opened on a window
gets its changes committed at once, or after one conflict; unless the window ends within the last commit. Then no
attempt has the revision that the stream expects, the client is never refreshed, and nothing can be committed. -/
theorem windowed_writes {engine : Engine} {history : History} (reached : engine.Reached history)
    (isOpen : CommitStore.isDisposed engine = false) (room : history.accepted.length < 2 ^ 63 - 1) {key : StreamKey}
    (legible : engine.Legible key history) {least most : UInt64} {opened : EventStream}
    (found : (EventStream.openWindow key least most engine).1 = .ok opened) :
    ∃ log, engine.log? key = .ok log ∧
      ∀ (events : List Event) (headers : Headers) (first second : CommitId) (now later : UInt64), events ≠ [] →
        (Commit.eventsOf log).length + events.length ≤ maxRevision.toNat →
        (∀ commit ∈ history.accepted, commit.key = key → commit.id ≠ first ∧ commit.id ≠ second) →
          let client := { opened with uncommitted := events, uncommittedHeaders := headers }
          let one := client.commitChanges first now engine
          let two := one.2.1.commitChanges second later one.2.2
          (Commit.EndsWithin most log →
            one = (.error (.invalidAttempt (.revisionMismatch (most + 1) (UInt64.ofNat (Commit.eventsOf log).length))),
              client, engine)) ∧
          (¬ Commit.EndsWithin most log →
            client.Appends log one ∨ (∃ sequence, one.1 = .error (.concurrency key sequence)) ∧ client.Appends log two) := by
  obtain ⟨journal, reflects⟩ := reached.reflects
  have sound := reflects.sound
  have orderly := sound.orderly key
  have known := reflects.known legible
  obtain ⟨seen, new, split, stands, starts, beyond⟩ := EventStream.opened_stands reflects isOpen known found
  refine ⟨_, reflects.logs.log_eq sound known, fun events headers first second now later dirty small fresh => ?_⟩
  intro client one two
  rw [engine.eventsOf_shows] at small ⊢
  rw [engine.endsWithin_shows]
  have standing : client.Stands key seen (min most.toNat (Commit.eventsOf seen).length) := stands.change events headers
  have freshFirst := fun commit member same => (fresh commit member same).1
  have freshSecond := fun commit member same => (fresh commit member same).2
  have changes : client.uncommitted.length = events.length := rfl
  by_cases more : new = []
  · subst more
    rw [List.append_nil] at split
    rw [← split] at standing starts
    rw [orderly.endsWithin_iff starts]
    refine ⟨fun cut => ?_, fun whole => .inl ?_⟩
    · rw [Nat.min_eq_left (Nat.le_of_lt cut)] at standing
      have refused := standing.mismatch reflects isOpen room freshFirst now (Nat.ne_of_lt cut) dirty (by omega)
      rwa [UInt64.ofNat_add, UInt64.ofNat_toNat] at refused
    · rw [Nat.min_eq_right (Nat.not_lt.1 whole)] at standing
      exact standing.appends reflects isOpen room freshFirst now known dirty small
  · have outside : ¬ Commit.EndsWithin most (journal.stream key) := by
      rw [split]
      exact Commit.not_endsWithin more beyond
    refine ⟨fun cut => absurd cut outside, fun _ => .inr ?_⟩
    have fewer : min most.toNat (Commit.eventsOf seen).length ≤ (Commit.eventsOf (journal.stream key)).length := by
      rw [split, Commit.eventsOf_append, List.length_append]
      omega
    obtain ⟨refreshed, conflict, standsAfter, sameEvents, sameHeaders⟩ := standing.conflicts reflects isOpen room
      freshFirst now known split more (Nat.min_le_right _ _) dirty (by omega)
    have first : one = _ := conflict
    refine ⟨⟨_, congrArg Prod.fst first⟩, ?_⟩
    have appended := standsAfter.appends reflects isOpen room freshSecond later known (by rwa [sameEvents])
      (by rwa [sameEvents])
    show client.Appends _ (one.2.1.commitChanges second later one.2.2)
    rw [first]
    exact appended.of_changes (standsAfter.key.trans standing.key.symm) sameEvents sameHeaders

/-- Two commits, and a client that is opened in the midst of the first. -/
theorem windowed_writes_after_conflict :
    let key : StreamKey := ⟨⟨"orders"⟩, ⟨"7"⟩⟩
    let attempt (name : String) (revision sequence : UInt64) (bodies : List Bytes) : Attempt :=
      ⟨key.bucket, key.stream, revision, ⟨name⟩, sequence, 0, [], bodies.map fun body => { body }⟩
    let calls : List Call := [.commit (attempt "placed" 2 1 [[1], [2]]), .commit (attempt "paid" 3 2 [[3]])]
    let run := Call.serveAll calls (MemoryStore.create {})
    let engine : Engine := .memory run.2
    engine.Reached (calls.zip run.1) ∧ CommitStore.isDisposed engine = false ∧
      (History.accepted (calls.zip run.1)).length < 2 ^ 63 - 1 ∧ engine.Legible key (calls.zip run.1) ∧
      ∃ opened log, (EventStream.openWindow key 0 1 engine).1 = .ok opened ∧ engine.log? key = .ok log ∧
        let client := { opened with uncommitted := [{ body := [4] }], uncommittedHeaders := [] }
        let one := client.commitChanges ⟨"sent"⟩ 0 engine
        let two := one.2.1.commitChanges ⟨"sent"⟩ 0 one.2.2
        (∃ sequence, one.1 = .error (.concurrency key sequence)) ∧ client.Appends log two := by
  intro key attempt calls run engine
  have reached : engine.Reached (calls.zip run.1) := .inMemory {} calls
  have isOpen : CommitStore.isDisposed engine = false := by decide +kernel
  have room : (History.accepted (calls.zip run.1)).length < 2 ^ 63 - 1 := by decide +kernel
  have legible : engine.Legible key (calls.zip run.1) := fun _ _ _ => trivial
  have fresh : ∀ commit ∈ History.accepted (calls.zip run.1), commit.key = key →
      commit.id ≠ ⟨"sent"⟩ ∧ commit.id ≠ ⟨"sent"⟩ := by
    decide +kernel
  obtain ⟨opened, found, conflict⟩ : ∃ opened, (EventStream.openWindow key 0 1 engine).1 = .ok opened ∧
      (EventStream.commitChanges ⟨"sent"⟩ 0
        { opened with uncommitted := [{ body := [4] }], uncommittedHeaders := [] } engine).1 =
          .error (.concurrency key 2) := ⟨_, rfl, rfl⟩
  obtain ⟨log, stored, writes⟩ := windowed_writes reached isOpen room legible found
  have same : run.2.log key = log := Except.ok.inj stored
  have small : (Commit.eventsOf log).length + 1 ≤ maxRevision.toNat := by
    rw [← same]
    decide +kernel
  have outside : ¬ Commit.EndsWithin 1 log := by
    rw [← same]
    decide +kernel
  refine ⟨reached, isOpen, room, legible, opened, log, found, stored, ?_⟩
  rcases (writes [{ body := [4] }] [] ⟨"sent"⟩ ⟨"sent"⟩ 0 0 (by simp) small fresh).2 outside with
    ⟨commit, taken, -⟩ | written
  · cases conflict.symm.trans taken
  · exact written

/-- A client that is opened on the first of two events that were committed together cannot commit: it has counted
the commit, but its next event would have the revision of the second. Its attempt is taken for a malformed one, so
that it is not refreshed, and it can only fail again. -/
theorem write_refused_within_commit :
    let key : StreamKey := ⟨⟨"orders"⟩, ⟨"7"⟩⟩
    let first : Attempt := ⟨key.bucket, key.stream, 2, ⟨"placed"⟩, 1, 0, [], [{ body := [1] }, { body := [2] }]⟩
    let engine : Engine := .memory (Call.serveAll [.commit first] (MemoryStore.create {})).2
    ∃ opened, (EventStream.openWindow key 0 1 engine).1 = .ok opened ∧
      let client := opened.add { body := [3] }
      client.commitChanges ⟨"paid"⟩ 0 engine = (.error (.invalidAttempt (.revisionMismatch 2 2)), client, engine) :=
  ⟨_, rfl, rfl⟩

end CommitLog
