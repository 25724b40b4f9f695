import CommitLog.Proofs.DamagedRows
import CommitLog.Proofs.Database.Streams
import CommitLog.Proofs.Duplicates

/-!
Removals are exact and complete (`removals_exact`). What a removal does not cover it leaves as it is
(`Spares`), and what it covers is afterwards as if it had never been written (`Clears`): not only is nothing
left of it, but whatever is called from then on is answered as in a new store. Only checkpoints are not given
out again.
-/

namespace CommitLog

/-- The ways to remove streams. -/
inductive Removal where
  | ofStream (key : StreamKey)
  | ofBucket (bucket : BucketId)
  | ofAll

namespace Removal

def call : Removal → Call
  | .ofStream key => .deleteStream key
  | .ofBucket bucket => .purgeBucket bucket
  | .ofAll => .purge

/-- Whether a stream is removed. -/
def covers (removal : Removal) : StreamKey → Bool := removal.call.removes

end Removal

section

variable {σ α : Type} [CommitStore σ]

/-- What a removal leaves of the streams that it does not cover, where `contents` are the commits of a stream
with their checkpoints and their marks: everything. -/
structure Spares (contents : σ → StreamKey → List α) (gone : StreamKey → Bool) (before after : σ) : Prop where
  contents : ∀ key, gone key = false → contents after key = contents before key
  /-- Any call about such a stream is answered as it would have been, also an attempt to add to it. -/
  answers : ∀ (key : StreamKey) (call : Call), gone key = false → call.concerns key = true →
    (call.serve after).1 = (call.serve before).1
  listed : ∀ (bucket : BucketId) (threshold : UInt64) (head : StreamHead), gone head.key = false →
    (((Call.streamsToSnapshot bucket threshold).serve after).1.Lists head ↔
      ((Call.streamsToSnapshot bucket threshold).serve before).1.Lists head)
  /-- A feed that could be read shows what it would have shown of such streams. -/
  feeds : ∀ (scope : Scope) (start : Checkpoint) (commits : List Commit),
    ((Call.readFeed scope start).serve before).1 = .ok (.items (commits.map .ok)) →
    ((Call.readFeed scope start).serve after).1 =
      .ok (.items ((commits.filter fun commit => !gone commit.key).map .ok))

/-- What a removal leaves of the streams that it covers: nothing, now and for all later calls. There have been
`accepted` commits so far, and `fresh` is a store in which nothing has been written. -/
structure Clears (contents : σ → StreamKey → List α) (gone : StreamKey → Bool) (fresh : σ) (accepted : List Commit)
    (after : σ) : Prop where
  contents : ∀ key, gone key = true → contents after key = []
  window : ∀ key least most, gone key = true → ((Call.getFrom key least most).serve after).1 = .ok (.commits [])
  head : ∀ key, gone key = true → ((Call.head key).serve after).1 = .ok (.head none)
  snapshot : ∀ key most, gone key = true → ((Call.snapshot key most).serve after).1 = .ok (.snapshot none)
  unlisted : ∀ (bucket : BucketId) (threshold : UInt64) (head : StreamHead),
    ((Call.streamsToSnapshot bucket threshold).serve after).1.Lists head → gone head.key = false
  absent : ∀ (scope : Scope) (start : Checkpoint) (commit : Commit),
    ((Call.readFeed scope start).serve after).1.Shows commit → gone commit.key = false
  /-- The stream begins again, with any id, as long as there are checkpoints. -/
  begins : accepted.length < 2 ^ 63 - 1 → ∀ attempt : Attempt, gone attempt.key = true → attempt.validate = .ok () →
    attempt.sequence = 1 → attempt.revision.toNat = attempt.events.length →
      ((Call.commit attempt).serve after).1 = .ok (.commit (attempt.toCommit ⟨Int64.ofNat (accepted.length + 1)⟩))
  /-- Whatever has been called since, about this stream or others, the answers about it are those of a store in
  which it was never written, apart from the checkpoints. -/
  anew : ∀ calls : List Call, (accepted ++ Call.accepted (Call.serveAll calls after).1).length < 2 ^ 63 - 1 →
    (Call.accepted (Call.serveAll calls fresh).1).length < 2 ^ 63 - 1 → ∀ key, gone key = true →
      (∀ call : Call, call.concerns key = true → (call.serve (Call.serveAll calls after).2).1.unnumbered =
        (call.serve (Call.serveAll calls fresh).2).1.unnumbered) ∧
      ∀ (bucket : BucketId) (threshold : UInt64) (head : StreamHead), head.key = key →
        (((Call.streamsToSnapshot bucket threshold).serve (Call.serveAll calls after).2).1.Lists head ↔
          ((Call.streamsToSnapshot bucket threshold).serve (Call.serveAll calls fresh).2).1.Lists head)
  /-- Whatever has been called since, a feed shows only what has been added since. -/
  since : ∀ (calls : List Call) (scope : Scope) (start : Checkpoint) (commit : Commit),
    ((Call.readFeed scope start).serve (Call.serveAll calls after).2).1.Shows commit → gone commit.key = true →
      ∃ made ∈ Call.accepted (Call.serveAll calls after).1,
        made.key = commit.key ∧ made.checkpoint = commit.checkpoint

/-- A removal that has succeeded, done what it should and nothing else, and given no checkpoint free. -/
structure RemovesExactly (contents : σ → StreamKey → List α) (fresh : σ) (accepted : List Commit) (removal : Removal)
    (store : σ) : Prop where
  done : (removal.call.serve store).1 = .ok .done
  spares : Spares contents removal.covers store (removal.call.serve store).2
  clears : Clears contents removal.covers fresh accepted (removal.call.serve store).2
  ahead : ∀ calls : List Call, ∀ made ∈ Call.accepted (Call.serveAll calls (removal.call.serve store).2).1,
    ∀ earlier ∈ accepted, earlier.checkpoint < made.checkpoint

end

/-! ### Logs over a run -/

/-- Of the commits in a journal a step adds at most the one that it makes. -/
theorem Journal.Step.commits {journal after : Journal} {made : Option Commit} (step : Journal.Step journal made after) :
    ∀ commit ∈ after.commits, commit ∈ journal.commits ∨ made = some commit := by
  intro commit member
  cases step with
  | stay => exact .inl member
  | accept taken next =>
    rw [Journal.commits_accept, List.mem_append, List.mem_singleton] at member
    exact member.imp_right fun same => congrArg some same.symm
  | dispatch checkpoint =>
    rw [Journal.commits_dispatch] at member
    exact .inl member
  | remove gone =>
    rw [Journal.commits_remove] at member
    exact .inl (List.mem_filter.1 member).1

theorem Journal.not_removed {journal : Journal} {gone : StreamKey → Bool} :
    ∀ commit ∈ (journal.remove gone).commits, gone commit.key = false := by
  intro commit member
  rw [commits_remove] at member
  simpa using (List.mem_filter.1 member).2

/-- What was accepted later has the greater checkpoint. -/
theorem Journal.Sound.ahead {journal : Journal} {earlier later : List Commit} (sound : journal.Sound (earlier ++ later))
    {first second : Commit} (before : first ∈ earlier) (after : second ∈ later) :
    first.checkpoint < second.checkpoint := by
  obtain ⟨i, found⟩ := List.getElem?_of_mem before
  obtain ⟨j, foundLater⟩ := List.getElem?_of_mem after
  have bound := (List.getElem?_eq_some_iff.1 found).1
  have one := sound.numbered i first (by rw [List.getElem?_append_left bound, found])
  have two := sound.numbered (earlier.length + j) second
    (by rw [List.getElem?_append_right (Nat.le_add_right _ _), Nat.add_sub_cancel_left, foundLater])
  rw [Checkpoint.lt_iff]
  omega

/-- Stores whose log is a journal, as `holds` says, and whose feeds show nothing else. -/
structure Logging {σ : Type} [CommitStore σ] (holds : σ → Journal → Prop) : Prop where
  step : ∀ {store : σ} {journal : Journal} {accepted : List Commit}, holds store journal → journal.Sound accepted →
    ∀ call : Call, ∃ after, Journal.Step journal (call.serve store).1.accepted after ∧ holds (call.serve store).2 after
  shown : ∀ {store : σ} {journal : Journal} {accepted : List Commit}, holds store journal → journal.Sound accepted →
    ∀ {scope : Scope} {start : Checkpoint} {commit : Commit}, ((Call.readFeed scope start).serve store).1.Shows commit →
      ∃ kept ∈ journal.commits, kept.key = commit.key ∧ kept.checkpoint = commit.checkpoint

section

variable {σ : Type} [CommitStore σ] {holds : σ → Journal → Prop} {store : σ} {journal : Journal} {accepted : List Commit}

/-- After a run the log holds what it held before, as far as it is still there, and what the run has added. -/
theorem Logging.serveAll (logging : Logging holds) (held : holds store journal) (sound : journal.Sound accepted)
    (calls : List Call) :
    ∃ after, holds (Call.serveAll calls store).2 after ∧
      after.Sound (accepted ++ Call.accepted (Call.serveAll calls store).1) ∧
      ∀ commit ∈ after.commits, commit ∈ journal.commits ∨ commit ∈ Call.accepted (Call.serveAll calls store).1 := by
  induction calls generalizing store journal accepted with
  | nil => exact ⟨journal, held, by simpa [Call.serveAll, Call.accepted] using sound, fun _ => .inl⟩
  | cons call calls ih =>
    obtain ⟨middle, step, heldNext⟩ := logging.step held sound call
    obtain ⟨after, heldAfter, soundAfter, known⟩ := ih heldNext (sound.step step)
    rw [List.append_assoc, ← Call.accepted_cons] at soundAfter
    refine ⟨after, heldAfter, soundAfter, fun commit member => ?_⟩
    rw [Call.serveAll, Call.accepted_cons, List.mem_append, Option.mem_toList]
    rcases known commit member with earlier | later
    · rcases step.commits commit earlier with old | new
      · exact .inl old
      · exact .inr (.inl new)
    · exact .inr (.inr later)

theorem Logging.since (logging : Logging holds) (held : holds store journal) (sound : journal.Sound accepted)
    {gone : StreamKey → Bool} (removed : ∀ commit ∈ journal.commits, gone commit.key = false) {calls : List Call}
    {scope : Scope} {start : Checkpoint} {commit : Commit}
    (shows : ((Call.readFeed scope start).serve (Call.serveAll calls store).2).1.Shows commit)
    (covered : gone commit.key = true) :
    ∃ made ∈ Call.accepted (Call.serveAll calls store).1, made.key = commit.key ∧ made.checkpoint = commit.checkpoint := by
  obtain ⟨after, heldAfter, soundAfter, known⟩ := logging.serveAll held sound calls
  obtain ⟨kept, member, sameKey, samePlace⟩ := logging.shown heldAfter soundAfter shows
  rcases known kept member with old | new
  · have stays := removed kept old
    rw [sameKey, covered] at stays
    cases stays
  · exact ⟨kept, new, sameKey, samePlace⟩

theorem Logging.absent (logging : Logging holds) (held : holds store journal) (sound : journal.Sound accepted)
    {gone : StreamKey → Bool} (removed : ∀ commit ∈ journal.commits, gone commit.key = false) {scope : Scope}
    {start : Checkpoint} {commit : Commit} (shows : ((Call.readFeed scope start).serve store).1.Shows commit) :
    gone commit.key = false := by
  obtain ⟨kept, member, sameKey, -⟩ := logging.shown held sound shows
  rw [← sameKey]
  exact removed kept member

theorem Logging.ahead (logging : Logging holds) (held : holds store journal) (sound : journal.Sound accepted)
    {calls : List Call} {made earlier : Commit} (later : made ∈ Call.accepted (Call.serveAll calls store).1)
    (before : earlier ∈ accepted) : earlier.checkpoint < made.checkpoint := by
  obtain ⟨after, -, soundAfter, -⟩ := logging.serveAll held sound calls
  exact soundAfter.ahead before later

end

/-- The first attempt on an empty stream is taken, whatever its id is. -/
theorem Attempt.refusal_nil {attempt : Attempt} (valid : attempt.validate = .ok ()) (first : attempt.sequence = 1)
    (revision : attempt.revision.toNat = attempt.events.length) : attempt.refusal [] = none := by
  have small := (bounds_of_valid valid).2
  refine refusal_eq_none.2 ⟨?_, small, by simp, by rw [first]; rfl, by rw [revision]; exact (Nat.zero_add _).symm⟩
  intro none
  simp [validate, none] at valid

/-! ### In memory -/

namespace MemoryStore

/-- The commits of a stream, and whether each has been dispatched. -/
def contents (store : MemoryStore) (key : StreamKey) : List (Commit × Bool) :=
  (store.feed.filter fun commit => commit.key = key).map fun commit =>
    (commit, store.dispatched.contains commit.checkpoint)

variable {store : MemoryStore} {ledger : Ledger} {accepted : List Commit}

theorem Keeps.contents_eq (keeps : store.Keeps ledger) (key : StreamKey) :
    store.contents key = (ledger.entriesOf key).map fun entry => (entry.commit, entry.dispatched) := by
  rw [contents, keeps.feed, Journal.commits, List.filter_map, List.map_map]
  refine List.map_congr_left fun entry member => ?_
  rw [Function.comp_apply, keeps.dispatched entry (List.mem_filter.1 member).1]

theorem logging : Logging fun (store : MemoryStore) journal =>
    ∃ ledger : Ledger, ledger.toJournal = journal ∧ store.Keeps ledger where
  step := by
    rintro store _ accepted ⟨ledger, rfl, keeps⟩ sound call
    obtain ⟨same, kept⟩ := serve_agrees keeps sound call
    rw [same]
    exact ⟨_, ledger.answer_step call, _, rfl, kept⟩
  shown := by
    rintro store _ accepted ⟨ledger, rfl, keeps⟩ sound scope start commit ⟨items, answered, member⟩
    rw [(serve_agrees keeps sound (.readFeed scope start)).1] at answered
    cases disposed : ledger.disposed with
    | true =>
      rw [Ledger.answer_of_disposed disposed] at answered
      cases answered
    | false =>
      rw [Ledger.answer_of_open disposed] at answered
      cases answered
      obtain ⟨entry, inLedger, same⟩ := List.mem_map.1 member
      cases same
      exact ⟨entry.commit, List.mem_map_of_mem (List.mem_filter.1 inLedger).1, rfl, rfl⟩

theorem serve_removal (keeps : store.Keeps ledger) (sound : ledger.Sound accepted) (isOpen : store.disposed = false)
    (removal : Removal) :
    (removal.call.serve store).1 = .ok .done ∧ (removal.call.serve store).2.Keeps (ledger.remove removal.covers) := by
  have served : removal.call.serve store = Call.answering (fun _ => .done) (store.remove removal.covers) := by
    cases removal <;> rfl
  rw [served]
  exact remove_agrees keeps sound isOpen removal.covers

/-- A removal spares what it does not cover. -/
theorem Keeps.spares {after : MemoryStore} {gone : StreamKey → Bool} (keeps : store.Keeps ledger)
    (sound : ledger.Sound accepted) (isOpen : store.disposed = false) (kept : after.Keeps (ledger.remove gone)) :
    Spares contents gone store after := by
  have soundAfter : (ledger.remove gone).Sound accepted := sound.remove gone
  have served := fun call => (serve_agrees keeps sound call).1
  have servedAfter := fun call => (serve_agrees kept soundAfter call).1
  refine ⟨fun key stays => ?_, fun key call stays concerns => ?_, fun bucket threshold head stays => ?_,
    fun scope start commits read => ?_⟩
  · rw [kept.contents_eq, keeps.contents_eq]
    refine congrArg _ ((filter_removed (fun entry : Entry => entry.commit.key) gone key ledger.entries).trans ?_)
    exact if_neg (by simp [stays])
  · rw [servedAfter, served]
    refine (Ledger.alike_remove_kept stays ledger).answer_eq ?_ rfl concerns
    exact (Journal.stream_remove ledger.toJournal gone key).trans (if_neg (by simp [stays]))
  · rw [servedAfter, served]
    exact (Ledger.alike_remove_kept stays ledger).lists rfl bucket threshold
  · have ledgerOpen : ledger.disposed = false := by rw [← keeps.disposed, isOpen]
    have openAfter : (ledger.remove gone).disposed = false := ledgerOpen
    rw [served, Ledger.answer_of_open ledgerOpen] at read
    rw [servedAfter, Ledger.answer_of_open openAfter]
    simp only [Ledger.respond, Except.ok.injEq, Call.Reply.items.injEq] at read ⊢
    have whole : (ledger.entries.filter (Entry.shown scope start)).map Entry.commit = commits := by
      refine List.map_injective_iff.2 (fun _ _ same => Except.ok.inj same) (Eq.trans ?_ read)
      rw [List.map_map]
      rfl
    show ((ledger.entries.filter fun entry => !gone entry.commit.key).filter (Entry.shown scope start)).map _ = _
    rw [← whole, List.filter_comm, List.filter_map, List.map_map]
    rfl

/-- A removal clears what it covers. -/
theorem Keeps.clears {after : MemoryStore} {gone : StreamKey → Bool} (isOpen : ledger.disposed = false)
    (sound : ledger.Sound accepted) (kept : after.Keeps (ledger.remove gone)) (config : MemoryConfig) :
    Clears contents gone (MemoryStore.create config) accepted after := by
  have soundAfter : (ledger.remove gone).Sound accepted := sound.remove gone
  have openAfter : (ledger.remove gone).disposed = false := isOpen
  have empty : Journal.Sound ({} : Ledger).toJournal [] := .empty
  have served := fun call => (serve_agrees kept soundAfter call).1
  have cleared : ∀ {key : StreamKey}, gone key = true → (ledger.remove gone).stream key = [] := fun removed =>
    (Journal.stream_remove ledger.toJournal gone _).trans (if_pos removed)
  have alike : ∀ {key : StreamKey}, gone key = true → Ledger.Alike key (ledger.remove gone) {} := fun removed =>
    Ledger.alike_remove_gone removed isOpen
  have nothing : ∀ commit ∈ (ledger.remove gone).commits, gone commit.key = false :=
    @Journal.not_removed ledger.toJournal gone
  constructor
  case contents =>
    intro key removed
    rw [kept.contents_eq]
    refine List.map_eq_nil_iff.2 ((filter_removed (fun entry : Entry => entry.commit.key) gone key ledger.entries).trans ?_)
    exact if_pos removed
  case window =>
    intro key least most removed
    rw [served, Ledger.answer_of_open openAfter, Ledger.respond, cleared removed]
    rfl
  case head =>
    intro key removed
    rw [served, Ledger.answer_of_open openAfter, Ledger.respond, (alike removed).head?]
    rfl
  case snapshot =>
    intro key most removed
    rw [served, Ledger.answer_of_open openAfter, Ledger.respond, (alike removed).upTo]
    rfl
  case unlisted =>
    intro bucket threshold head listed
    by_contra covered
    rw [served, (alike (Bool.eq_true_of_not_eq_false covered)).lists rfl] at listed
    exact List.not_mem_nil (Ledger.mem_due.1 (Call.Answer.lists_ok.1 listed)).1
  case absent => exact fun scope start commit shows => logging.absent ⟨_, rfl, kept⟩ soundAfter nothing shows
  case begins =>
    intro room attempt removed valid first revision
    have taken : attempt.refusal ((ledger.remove gone).postings attempt.key) = none := by
      rw [Journal.postings, cleared removed]
      exact Attempt.refusal_nil valid first revision
    rw [served, Ledger.answer_of_open openAfter, Ledger.respond, Ledger.commit, taken, soundAfter.next_eq room]
  case anew =>
    intro calls roomAfter roomFresh key removed
    obtain ⟨sameAfter, keepsAfter⟩ := serveAll_agrees kept soundAfter calls
    obtain ⟨sameFresh, keepsFresh⟩ := serveAll_agrees (.create config) empty calls
    rw [sameAfter] at roomAfter
    rw [sameFresh] at roomFresh
    have soundLater := Ledger.answerAll_sound soundAfter calls
    have soundFresh := Ledger.answerAll_sound empty calls
    have still := (alike removed).afterAll soundAfter empty roomAfter roomFresh
    constructor
    · intro call concerns
      rw [(serve_agrees keepsAfter soundLater call).1, (serve_agrees keepsFresh soundFresh call).1]
      exact still.answer soundLater soundFresh roomAfter roomFresh concerns
    · intro bucket threshold head same
      rw [(serve_agrees keepsAfter soundLater _).1, (serve_agrees keepsFresh soundFresh _).1]
      exact still.lists same bucket threshold
  case since =>
    exact fun calls scope start commit shows covered => logging.since ⟨_, rfl, kept⟩ soundAfter nothing shows covered

theorem Keeps.removesExactly (keeps : store.Keeps ledger) (sound : ledger.Sound accepted)
    (isOpen : store.disposed = false) (config : MemoryConfig) (removal : Removal) :
    RemovesExactly contents (MemoryStore.create config) accepted removal store := by
  obtain ⟨done, kept⟩ := serve_removal keeps sound isOpen removal
  have soundAfter : (ledger.remove removal.covers).Sound accepted := sound.remove removal.covers
  exact ⟨done, keeps.spares sound isOpen kept, Keeps.clears (keeps.disposed ▸ isOpen) sound kept config,
    fun calls made later earlier before => logging.ahead ⟨_, rfl, kept⟩ soundAfter later before⟩

end MemoryStore

/-! ### In a database -/

namespace Database

variable {db : Database} {journal : Journal} {accepted : List Commit}

theorem Holds.keyed (holds : db.Holds journal) (sound : journal.Sound accepted) : db.Keyed := by
  have ascending := sound.ascending
  rw [Journal.commits, List.pairwise_map] at ascending
  rw [Keyed, holds.rows, List.map_map]
  exact List.pairwise_map.2 (ascending.imp fun less same => by
    have same : _ = _ := congrArg Checkpoint.toInt same
    exact absurd same (Int.ne_of_lt less))

/-- A feed after a removal has the rows that it had before, without those of the removed streams. -/
theorem Holds.later_removeWhere (holds : db.Holds journal) (sound : journal.Sound accepted) (gone : StreamKey → Bool)
    (scope : Scope) (start : Checkpoint) :
    (db.removeWhere gone).later scope start = (db.later scope start).filter fun row => !gone row.key := by
  have soundAfter : (journal.remove gone).Sound accepted := sound.remove gone
  rw [holds.later_eq sound, (holds.removeWhere gone).later_eq soundAfter, List.filter_map]
  refine congrArg (List.map Entry.row) ?_
  show List.filter _ (journal.entries.filter _) = _
  rw [List.filter_comm]
  rfl

end Database

namespace DatabaseStore

/-- The rows of a stream. -/
def contents (store : DatabaseStore) (key : StreamKey) : List Row := store.db.stream key

variable {store : DatabaseStore} {journal : Journal} {accepted : List Commit}

theorem readFeed_answer (holds : store.db.Holds journal) (sound : journal.Sound accepted)
    (isOpen : store.handle.disposed = false) (scope : Scope) (start : Checkpoint) :
    ((Call.readFeed scope start).serve store).1 =
      .ok (.items (Row.itemsByPage store.handle.pageLimit (store.db.later scope start))) := by
  show (CommitStore.readFeed scope start store).1.map Call.Reply.items = _
  rw [readFeed_rows (holds.keyed sound) isOpen]
  rfl

theorem logging : Logging (Logs True) where
  step logs sound call := serve_step logs sound call
  shown := by
    rintro store journal accepted logs sound scope start commit ⟨items, answered, member⟩
    cases isOpen : store.handle.disposed with
    | true =>
      rw [(closed isOpen).serve (by simp) (by simp)] at answered
      cases answered
    | false =>
      rw [readFeed_answer logs.holds sound isOpen] at answered
      cases answered
      obtain ⟨row, inLater, decoded⟩ := Row.mem_itemsByPage member
      have stored := (mem_later.1 inLater).1
      rw [logs.holds.rows] at stored
      obtain ⟨entry, inJournal, rfl⟩ := List.mem_map.1 stored
      exact ⟨entry.commit, List.mem_map_of_mem inJournal, (Row.decode_key decoded).symm, (decode_checkpoint decoded).symm⟩

/-- What a removal makes of an open store. -/
theorem serve_removal (unlocked : store.db.writeLocked = false) (isOpen : store.handle.disposed = false)
    (removal : Removal) :
    removal.call.serve store = (.ok .done, ⟨store.db.removeWhere removal.covers,
      { store.handle with recent := store.handle.recent.forget removal.covers }⟩) := by
  have served : removal.call.serve store = Call.answering (fun _ => .done) (store.remove removal.covers) := by
    cases removal <;> rfl
  rw [served, remove, update_eq isOpen unlocked]
  rfl

/-- A removal spares what it does not cover. -/
theorem Logs.spares {after : DatabaseStore} {gone : StreamKey → Bool} (logs : store.Logs True journal)
    (sound : journal.Sound accepted) (isOpen : store.handle.disposed = false)
    (kept : after.Logs True (journal.remove gone)) (tables : after.db = store.db.removeWhere gone)
    (disposed : after.handle.disposed = store.handle.disposed) :
    Spares contents gone store after := by
  have soundAfter : (journal.remove gone).Sound accepted := sound.remove gone
  have alike : ∀ {key : StreamKey}, gone key = false → Alike key after store := fun stays =>
    ⟨tables ▸ Database.alike_removeWhere_kept stays store.db, disposed⟩
  have stream : ∀ {key : StreamKey}, gone key = false → after.db.stream key = store.db.stream key := by
    intro key stays
    rw [tables, Database.stream_removeWhere, if_neg (by simp [stays])]
  refine ⟨fun key stays => stream stays, fun key call stays concerns => ?_, fun bucket threshold head stays => ?_,
    fun scope start commits read => ?_⟩
  · exact (alike stays).answer_eq kept logs soundAfter sound (stream stays) rfl concerns
  · exact (alike stays).lists rfl bucket threshold
  · rw [readFeed_answer logs.holds sound isOpen] at read
    simp only [Except.ok.injEq, Call.Reply.items.injEq] at read
    obtain ⟨whole, commits⟩ := Row.readable_of_itemsByPage read
    obtain ⟨none, shown⟩ := Row.readable_filter whole fun key => !gone key
    rw [readFeed_answer kept.holds soundAfter (disposed.trans isOpen), tables,
      logs.holds.later_removeWhere sound, Row.itemsByPage, none, shown, commits]

theorem fresh_db (config : DatabaseConfig) : (DatabaseStore.fresh config).db = { version := some Database.schemaVersion } :=
  rfl

/-- A removal clears what it covers. -/
theorem Logs.clears {after : DatabaseStore} {gone : StreamKey → Bool} (sound : journal.Sound accepted)
    (kept : after.Logs True (journal.remove gone))
    (tables : after.db = store.db.removeWhere gone) (isOpen : after.handle.disposed = false) (config : DatabaseConfig) :
    Clears contents gone (DatabaseStore.fresh config) accepted after := by
  have soundAfter : (journal.remove gone).Sound accepted := sound.remove gone
  have new : (DatabaseStore.fresh config).Logs True {} := .fresh config
  have alike : ∀ {key : StreamKey}, gone key = true → Alike key after (DatabaseStore.fresh config) := by
    intro key removed
    have bare : Database.Alike key {} (DatabaseStore.fresh config).db := ⟨rfl, rfl, rfl⟩
    exact ⟨tables ▸ (Database.alike_removeWhere_gone removed store.db).trans bare, isOpen⟩
  have cleared : ∀ {key : StreamKey}, gone key = true → after.db.stream key = [] := by
    intro key removed
    rw [tables, Database.stream_removeWhere, if_pos removed]
  constructor
  case contents => exact fun key removed => cleared removed
  case window =>
    intro key least most removed
    show (after.getFrom key least most).map Call.Reply.commits = _
    rw [getFrom, query_eq isOpen, Database.range, cleared removed, List.filter_nil, List.mergeSort_nil]
    rfl
  case head =>
    intro key removed
    show (after.head key).map Call.Reply.head = _
    rw [head, query_eq isOpen, (alike removed).db.head?]
    rfl
  case snapshot =>
    intro key most removed
    show (after.snapshot key most).map Call.Reply.snapshot = _
    rw [snapshot, query_eq isOpen, (alike removed).db.snapshot?, Database.snapshot?, fresh_db, List.filter_nil,
      List.mergeSort_nil]
    rfl
  case unlisted =>
    intro bucket threshold head listed
    by_contra covered
    have none : ((Call.streamsToSnapshot bucket threshold).serve (DatabaseStore.fresh config)).1 = .ok (.heads []) := by
      show ((DatabaseStore.fresh config).streamsToSnapshot bucket threshold).map Call.Reply.heads = _
      rw [streamsToSnapshot, query_eq rfl, Database.streamsToSnapshot, fresh_db, List.filter_nil, List.mergeSort_nil]
      rfl
    rw [(alike (Bool.eq_true_of_not_eq_false covered)).lists rfl, none] at listed
    exact List.not_mem_nil (Call.Answer.lists_ok.1 listed)
  case absent => exact fun scope start commit shows => logging.absent kept soundAfter Journal.not_removed shows
  case begins =>
    intro room attempt removed valid first revision
    have taken : attempt.refusal ((journal.remove gone).postings attempt.key) = none := by
      rw [← kept.holds.postings_eq soundAfter, cleared removed]
      exact Attempt.refusal_nil valid first revision
    show (after.commit attempt).1.map Call.Reply.commit = _
    rw [commit_eq kept.holds soundAfter isOpen attempt (kept.cached trivial), taken, soundAfter.next_eq room]
    rfl
  case anew =>
    intro calls roomAfter roomFresh key removed
    obtain ⟨journalAfter, soundLater, logsLater⟩ := serveAll_sound kept soundAfter calls
    obtain ⟨journalFresh, soundFresh, logsFresh⟩ := serveAll_sound new .empty calls
    have still := (alike removed).afterAll kept new soundAfter .empty roomAfter roomFresh
    exact ⟨fun call concerns => still.answer logsLater logsFresh soundLater soundFresh roomAfter roomFresh concerns,
      fun bucket threshold head same => still.lists same bucket threshold⟩
  case since =>
    exact fun calls scope start commit shows covered => logging.since kept soundAfter Journal.not_removed shows covered

theorem Logs.removesExactly (logs : store.Logs True journal) (sound : journal.Sound accepted)
    (isOpen : store.handle.disposed = false) (config : DatabaseConfig) (removal : Removal) :
    RemovesExactly contents (DatabaseStore.fresh config) accepted removal store := by
  have served := serve_removal logs.holds.unlocked isOpen removal
  have kept := logs.removed removal.covers
  have soundAfter : (journal.remove removal.covers).Sound accepted := sound.remove removal.covers
  constructor
  case done => rw [served]
  case spares =>
    rw [served]
    exact logs.spares sound isOpen kept rfl rfl
  case clears =>
    rw [served]
    exact Logs.clears sound kept rfl isOpen config
  case ahead =>
    rw [served]
    exact fun calls made later earlier before => logging.ahead kept soundAfter later before

end DatabaseStore

/-- In every state that a run can reach, a store in memory, and one that is alone on its database, removes
exactly what it is asked to remove. -/
theorem removals_exact :
    (∀ (config other : MemoryConfig) (calls : List Call),
      let run := Call.serveAll calls (MemoryStore.create config)
      run.2.disposed = false →
        ∀ removal, RemovesExactly MemoryStore.contents (MemoryStore.create other) (Call.accepted run.1) removal run.2) ∧
    (∀ (config other : DatabaseConfig) (calls : List Call),
      let run := Call.serveAll calls (DatabaseStore.fresh config)
      run.2.handle.disposed = false →
        ∀ removal, RemovesExactly DatabaseStore.contents (DatabaseStore.fresh other) (Call.accepted run.1) removal run.2) := by
  constructor
  · intro config other calls run isOpen removal
    have empty : Journal.Sound ({} : Ledger).toJournal [] := .empty
    obtain ⟨same, keeps⟩ := MemoryStore.serveAll_agrees (.create config) empty calls
    have sound := Ledger.answerAll_sound empty calls
    rw [← same, List.nil_append] at sound
    exact keeps.removesExactly sound isOpen other removal
  · intro config other calls run isOpen removal
    obtain ⟨journal, sound, logs⟩ := DatabaseStore.serveAll_sound (.fresh config) .empty calls
    rw [List.nil_append] at sound
    exact logs.removesExactly sound isOpen other removal

/-- A stream with a snapshot is deleted beside another, in both engines. -/
theorem removals_exact_beside_other :
    let attempt (name : String) : Attempt := ⟨⟨"orders"⟩, ⟨name⟩, 1, ⟨"placed"⟩, 1, 0, [], [{ body := [1] }]⟩
    let calls : List Call := [.commit (attempt "7"), .commit (attempt "8"), .addSnapshot ⟨(attempt "7").key, 1, [0]⟩]
    let inMemory := Call.serveAll calls (MemoryStore.create {})
    let inDatabase := Call.serveAll calls (DatabaseStore.fresh {})
    (inMemory.2.disposed = false ∧
        RemovesExactly MemoryStore.contents (MemoryStore.create {}) (Call.accepted inMemory.1)
          (.ofStream (attempt "7").key) inMemory.2) ∧
      (inDatabase.2.handle.disposed = false ∧
        RemovesExactly DatabaseStore.contents (DatabaseStore.fresh {}) (Call.accepted inDatabase.1)
          (.ofStream (attempt "7").key) inDatabase.2) := by
  intro attempt calls inMemory inDatabase
  have isOpen : inMemory.2.disposed = false := by decide +kernel
  have rowsOpen : inDatabase.2.handle.disposed = false := by decide +kernel
  exact ⟨⟨isOpen, removals_exact.1 {} {} calls isOpen _⟩, ⟨rowsOpen, removals_exact.2 {} {} calls rowsOpen _⟩⟩

end CommitLog
