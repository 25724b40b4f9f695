import CommitLog.Proofs.EngineCalls

/-!
Feeds that are read while their store changes. A feed takes what it shows from the store as it is at the
moment, so all that can be promised of a commit depends on when it is in the feed's scope: one that is in
scope all the time is shown, and one that is shown has been in scope at some time (`feed_faithful`). What the
feed has reached carries over from one moment to the next (`Reading.OnTrack`).
-/

namespace CommitLog

namespace Engine

/-! ### What a feed is about -/

/-- A commit is stored, lies beyond a checkpoint, and is one that a feed of the scope is about. -/
def InScope (scope : Scope) (after : Checkpoint) (commit : Commit) : Engine → Prop
  | .memory store => commit ∈ store.feed ∧ after < commit.checkpoint ∧ store.wanted scope commit = true
  | .database store =>
    ∃ row ∈ store.db.rows, row.decode = .ok commit ∧ after < row.checkpoint ∧ row.inScope scope = true

/-- Everything that is stored can be read. -/
def Readable : Engine → Prop
  | .memory _ => True
  | .database store => ∀ row ∈ store.db.rows, ∃ commit, row.decode = .ok commit

instance : DecidablePred Readable
  | .memory _ => isTrue trivial
  | .database store =>
    decidable_of_iff (∀ row ∈ store.db.rows, row.decode.isOk = true) (forall₂_congr fun row _ => by
      cases row.decode <;> simp [Except.isOk, Except.toBool])

/-- The feeds of an engine, as long as it stays as it is, take from `view` what they show. -/
structure Views (engine : Engine) (view : Scope → Checkpoint → List Commit) : Prop where
  turns : Turns (fun cursor => ((engine.next cursor).1, (engine.next cursor).2.1)) view
  still : ∀ cursor, (engine.next cursor).2.2 = engine
  ascending : ∀ scope after, (view scope after).Pairwise fun a b => a.checkpoint.toInt < b.checkpoint.toInt
  mem_iff : ∀ scope after commit, commit ∈ view scope after ↔ engine.InScope scope after commit

variable {engine : Engine} {scope : Scope} {after : Checkpoint} {commit : Commit}

theorem InScope.beyond (inScope : engine.InScope scope after commit) : after < commit.checkpoint := by
  cases engine with
  | memory store => exact inScope.2.1
  | database store =>
    obtain ⟨row, -, decoded, ahead, -⟩ := inScope
    rw [DatabaseStore.decode_checkpoint decoded]
    exact ahead

/-- What is in scope is so beyond any place before it. -/
theorem InScope.from_place (inScope : engine.InScope scope after commit) {place : Checkpoint}
    (ahead : place < commit.checkpoint) : engine.InScope scope place commit := by
  cases engine with
  | memory store => exact ⟨inScope.1, ahead, inScope.2.2⟩
  | database store =>
    obtain ⟨row, stored, decoded, -, wanted⟩ := inScope
    rw [DatabaseStore.decode_checkpoint decoded] at ahead
    exact ⟨row, stored, decoded, ahead, wanted⟩

/-- The feeds of an open engine show what is in scope. -/
theorem Holds.views {journal : Journal} {accepted : List Commit} (holds : engine.Holds (fun _ => False) journal)
    (sound : journal.Sound accepted) (readable : engine.Readable) : ∃ view, engine.Views view := by
  cases holds with
  | @memory store ledger keeps isOpen =>
    have ascending : store.feed.Pairwise fun a b => a.checkpoint.toInt < b.checkpoint.toInt := by
      rw [keeps.feed]
      exact sound.ascending
    refine ⟨fun scope after => (store.later after).filter (store.wanted scope),
      MemoryStore.turns ascending, fun cursor => rfl, fun scope after => ?_, fun scope after commit => ?_⟩
    · exact (MemoryStore.later_ascending ascending after).sublist List.filter_sublist
    · simp [MemoryStore.later, InScope, and_comm]
  | @database store _ logs isOpen _ =>
    -- What each row is read back as.
    let back (entry : Entry) : Commit := entry.row.decode.toOption.getD entry.commit
    have reads : DatabaseStore.ReadsBack journal back := by
      intro entry member
      have stored : entry.row ∈ store.db.rows := by
        rw [logs.holds.rows]
        exact List.mem_map_of_mem member
      obtain ⟨commit, decoded⟩ := readable entry.row stored
      simp only [back, decoded, Except.toOption, Option.getD_some]
    refine ⟨DatabaseStore.shown back journal, DatabaseStore.turns logs.holds sound reads isOpen, fun cursor => rfl,
      DatabaseStore.shown_ascending sound reads, fun scope after commit => ?_⟩
    constructor
    · intro member
      obtain ⟨entry, shown, rfl⟩ := List.mem_map.1 member
      obtain ⟨known, visible⟩ := List.mem_filter.1 shown
      unfold Entry.shown at visible
      rw [Bool.and_eq_true, decide_eq_true_eq] at visible
      refine ⟨entry.row, ?_, reads entry known, visible.1, ?_⟩
      · rw [logs.holds.rows]
        exact List.mem_map_of_mem known
      · cases scope <;> exact visible.2
    · rintro ⟨row, stored, decoded, ahead, wanted⟩
      rw [logs.holds.rows] at stored
      obtain ⟨entry, known, rfl⟩ := List.mem_map.1 stored
      have same : back entry = commit := Except.ok.inj ((reads entry known).symm.trans decoded)
      refine List.mem_map.2 ⟨entry, List.mem_filter.2 ⟨known, ?_⟩, same⟩
      unfold Entry.shown
      rw [Bool.and_eq_true, decide_eq_true_eq]
      refine ⟨ahead, ?_⟩
      cases scope <;> exact wanted

end Engine

/-! ### The work of a turn -/

namespace MemoryStore

/-- One look at the feed, at its next chunk. -/
def look (cursor : Cursor) (store : MemoryStore) : Cursor :=
  let chunk := (store.later cursor.after).take Memory.scanLimit
  { cursor with
    after := (chunk.getLast?.map fun last => last.checkpoint).getD cursor.after
    page := chunk.filter (store.wanted cursor.scope)
    exhausted := chunk.length < Memory.scanLimit }

/-- Looks at chunks of the feed until one holds a wanted commit or the feed ends, but only so many times. -/
def lookUpTo (times : Nat) (cursor : Cursor) (store : MemoryStore) : Option Cursor :=
  match times with
  | 0 => none
  | times + 1 =>
    let found := look cursor store
    if found.page.isEmpty ∧ found.exhausted = false then lookUpTo times found store else some found

/-- Every look but the last gets a whole chunk ahead. -/
theorem lookUpTo_eq {store : MemoryStore} {cursor : Cursor} {times : Nat}
    (ascending : store.feed.Pairwise fun a b => a.checkpoint.toInt < b.checkpoint.toInt)
    (unfinished : cursor.exhausted = false) (enough : (store.later cursor.after).length < times * Memory.scanLimit) :
    store.lookUpTo times cursor = some (store.refill cursor) := by
  obtain ⟨times, rfl⟩ : ∃ before, times = before + 1 := by
    refine Nat.exists_eq_succ_of_ne_zero fun none => ?_
    rw [none, Nat.zero_mul] at enough
    exact Nat.not_lt_zero _ enough
  fun_induction refill cursor store generalizing times with
  | case1 cursor chunk page none =>
    have found : look cursor store = { cursor with page, exhausted := true } := by
      have nothing : chunk = [] := List.getLast?_eq_none_iff.1 none
      have short : chunk.length < Memory.scanLimit := by rw [nothing]; decide
      simp only [look, chunk, page, none, decide_eq_true short, Option.map_none, Option.getD_none]
    rw [lookUpTo, found, if_neg (by simp)]
  | case2 cursor chunk page last isLast cursor' short =>
    have found : look cursor store = { cursor' with exhausted := true } := by
      simp only [look, chunk, page, cursor', isLast, decide_eq_true short, Option.map_some, Option.getD_some]
    rw [lookUpTo, found, if_neg (by simp)]
  | case3 cursor chunk page last isLast cursor' full unwanted ih =>
    have found : look cursor store = cursor' := by
      simp only [look, chunk, page, cursor', isLast, decide_eq_false full, Option.map_some, Option.getD_some, unfinished]
    have further : (store.later last.checkpoint).length + Memory.scanLimit = (store.later cursor.after).length := by
      simp only [chunk, List.length_take] at full
      rw [later_chunk ascending isLast, List.length_drop]
      omega
    rw [Nat.succ_mul] at enough
    obtain ⟨others, rfl⟩ : ∃ others, times = others + 1 := by
      refine Nat.exists_eq_succ_of_ne_zero fun none => ?_
      rw [none, Nat.zero_mul] at enough
      omega
    rw [lookUpTo, found, if_pos ⟨unwanted, unfinished⟩]
    exact ih unfinished others (by show (store.later last.checkpoint).length < _; omega)
  | case4 cursor chunk page last isLast cursor' full filled =>
    have found : look cursor store = cursor' := by
      simp only [look, chunk, page, cursor', isLast, decide_eq_false full, Option.map_some, Option.getD_some, unfinished]
    rw [lookUpTo, found, if_neg fun more => filled more.1]

end MemoryStore

/-! ### Readings -/

/-- A feed in the course of being read, while its store goes on. -/
structure Reading where
  engine : Engine
  cursor : Cursor
  /-- What the feed has answered. -/
  answers : List (Option FeedItem) := []
  /-- The engine as it was at each moment since the feed was opened. -/
  moments : List Engine

namespace Reading

inductive Move where
  /-- The feed is asked for its next item. -/
  | next
  | call (call : Call)

/-- Opens a feed. -/
def begin (scope : Scope) (start : Checkpoint) (engine : Engine) : Except Error Reading :=
  (CommitStore.openFeed (σ := Engine) scope start engine).1.map fun cursor => { engine, cursor, moments := [engine] }

def act (reading : Reading) : Move → Reading
  | .next =>
    let (item, cursor, engine) := reading.engine.next reading.cursor
    { reading with engine, cursor, answers := reading.answers ++ [item] }
  | .call call =>
    let (_, engine) := call.serve reading.engine
    { reading with engine, moments := reading.moments ++ [engine] }

def actAll (moves : List Move) (reading : Reading) : Reading := moves.foldl act reading

/-- The commits that the feed has shown. -/
def yielded (reading : Reading) : List Commit :=
  reading.answers.filterMap fun answer => answer.bind Except.toOption

/-- What holds of a reading at any time. -/
structure OnTrack (scope : Scope) (start : Checkpoint) (reading : Reading) : Prop where
  about : reading.cursor.scope = scope
  /-- The feed has shown commits, and after its end nothing. -/
  answers : ∃ ends, reading.answers = reading.yielded.map (fun commit => some (.ok commit)) ++ List.replicate ends none ∧
    (0 < ends → reading.cursor.page = [] ∧ reading.cursor.exhausted = true)
  ascending : (start :: (reading.yielded ++ reading.cursor.page).map Commit.checkpoint).Pairwise (· < ·)
  /-- All that has been taken from the store lies before the place that is reached. -/
  behind : ∀ checkpoint ∈ start :: (reading.yielded ++ reading.cursor.page).map Commit.checkpoint,
    checkpoint ≤ reading.cursor.after
  seen : ∀ commit ∈ reading.yielded ++ reading.cursor.page,
    ∃ moment ∈ reading.moments, moment.InScope scope start commit
  /-- A commit that has been in scope all the time has been taken from the store or is still ahead. -/
  reached : ∀ commit, (∀ moment ∈ reading.moments, moment.InScope scope start commit) →
    commit ∈ reading.yielded ++ reading.cursor.page ∨
      reading.cursor.exhausted = false ∧ reading.cursor.after < commit.checkpoint
  now : reading.engine ∈ reading.moments

variable {reading : Reading} {scope : Scope} {start : Checkpoint} {view : Scope → Checkpoint → List Commit}

theorem OnTrack.begin (scope : Scope) (start : Checkpoint) (engine : Engine) :
    OnTrack scope start { engine, cursor := Cursor.start scope start, moments := [engine] } where
  about := rfl
  answers := ⟨0, rfl, fun none => absurd none (Nat.lt_irrefl 0)⟩
  ascending := by simp [yielded, Cursor.start]
  behind checkpoint member := by
    have same : checkpoint = start := by simpa [yielded, Cursor.start] using member
    exact Int.le_of_eq (congrArg Checkpoint.toInt same)
  seen commit member := by simp [yielded, Cursor.start] at member
  reached commit always := .inr ⟨rfl, (always engine (List.mem_singleton.2 rfl)).beyond⟩
  now := List.mem_singleton.2 rfl

/-- Whatever happens to the store, the feed keeps to its track. -/
theorem OnTrack.call (onTrack : reading.OnTrack scope start) (call : Call) :
    (reading.act (.call call)).OnTrack scope start where
  about := onTrack.about
  answers := onTrack.answers
  ascending := onTrack.ascending
  behind := onTrack.behind
  seen commit member := by
    obtain ⟨moment, earlier, inScope⟩ := onTrack.seen commit member
    exact ⟨moment, List.mem_append_left _ earlier, inScope⟩
  reached commit always := onTrack.reached commit fun moment earlier => always moment (List.mem_append_left _ earlier)
  now := List.mem_append_right _ (List.mem_singleton.2 rfl)

/-- A look for a new page takes from the store what lies next. -/
theorem OnTrack.refill (onTrack : reading.OnTrack scope start) (views : reading.engine.Views view) {ready : Cursor}
    (refilled : reading.cursor.Refilled view ready) : OnTrack scope start { reading with cursor := ready } := by
  have empty := refilled.empty
  have split : ready.page ++ (if ready.exhausted then [] else view ready.scope ready.after) =
      view reading.cursor.scope reading.cursor.after :=
    (List.map_inj_right fun _ _ => Except.ok.inj).1 refilled.left
  rw [onTrack.about] at split
  have taken : ∀ commit ∈ ready.page, reading.engine.InScope scope reading.cursor.after commit := by
    intro commit member
    rw [← views.mem_iff, ← split]
    exact List.mem_append_left _ member
  have before : ∀ checkpoint ∈ start :: reading.yielded.map Commit.checkpoint, checkpoint ≤ reading.cursor.after := by
    have behind := onTrack.behind
    rwa [empty, List.append_nil] at behind
  have given : (start :: reading.yielded.map Commit.checkpoint).Pairwise (· < ·) := by
    have ascending := onTrack.ascending
    rwa [empty, List.append_nil] at ascending
  constructor
  · exact refilled.scope.trans onTrack.about
  · obtain ⟨ends, answers, finished⟩ := onTrack.answers
    refine ⟨ends, answers, fun some => ?_⟩
    exact absurd refilled.unfinished (by simp [(finished some).2])
  · show (start :: (reading.yielded ++ ready.page).map Commit.checkpoint).Pairwise (· < ·)
    rw [List.map_append, ← List.cons_append, List.pairwise_append]
    refine ⟨given, ?_, fun early member late inPage => ?_⟩
    · have whole := views.ascending scope reading.cursor.after
      rw [← split] at whole
      exact List.pairwise_map.2 (List.pairwise_append.1 whole).1
    · obtain ⟨commit, found, rfl⟩ := List.mem_map.1 inPage
      exact Checkpoint.lt_of_le_of_lt (before early member) (taken commit found).beyond
  · show ∀ checkpoint ∈ start :: (reading.yielded ++ ready.page).map Commit.checkpoint, checkpoint ≤ ready.after
    intro checkpoint member
    rw [List.map_append, ← List.cons_append, List.mem_append] at member
    rcases member with early | inPage
    · exact Int.le_trans (before checkpoint early) refilled.ahead
    · obtain ⟨commit, found, rfl⟩ := List.mem_map.1 inPage
      exact refilled.behind commit found
  · intro commit member
    rcases List.mem_append.1 member with early | inPage
    · exact onTrack.seen commit (List.mem_append_left _ early)
    · refine ⟨reading.engine, onTrack.now, (taken commit inPage).from_place ?_⟩
      exact Checkpoint.lt_of_le_of_lt (before start List.mem_cons_self) (taken commit inPage).beyond
  · intro commit always
    show commit ∈ reading.yielded ++ ready.page ∨ ready.exhausted = false ∧ ready.after < commit.checkpoint
    rcases onTrack.reached commit always with early | ⟨-, ahead⟩
    · rw [empty, List.append_nil] at early
      exact .inl (List.mem_append_left _ early)
    · have visible := (views.mem_iff _ _ _).2 ((always _ onTrack.now).from_place ahead)
      rw [← split, List.mem_append] at visible
      rcases visible with inPage | later
      · exact .inl (List.mem_append_right _ inPage)
      · cases finished : ready.exhausted with
        | true => simp [finished] at later
        | false =>
          rw [finished, if_neg (by simp)] at later
          exact .inr ⟨rfl, ((views.mem_iff _ _ _).1 later).beyond⟩
  · exact onTrack.now

/-- The first commit of the page is handed out, and nothing only at the end. -/
theorem OnTrack.pop (onTrack : reading.OnTrack scope start)
    (full : reading.cursor.page = [] → reading.cursor.exhausted = true) :
    OnTrack scope start
      { reading with cursor := reading.cursor.pop.2, answers := reading.answers ++ [reading.cursor.pop.1] } := by
  obtain ⟨ends, answers, finished⟩ := onTrack.answers
  cases held : reading.cursor.page with
  | nil =>
    have popped : reading.cursor.pop = (none, reading.cursor) := by
      unfold Cursor.pop
      rw [held]
    rw [popped]
    have same : yielded { reading with answers := reading.answers ++ [none] } = reading.yielded := by
      simp [yielded]
    refine ⟨onTrack.about, ⟨ends + 1, ?_, fun _ => ⟨held, full held⟩⟩, ?_, ?_, ?_, ?_, onTrack.now⟩
    · show reading.answers ++ [none] = _
      rw [same, answers, List.append_assoc, List.replicate_succ']
    all_goals dsimp only; rw [same]
    · exact onTrack.ascending
    · exact onTrack.behind
    · exact onTrack.seen
    · exact onTrack.reached
  | cons commit page =>
    have popped : reading.cursor.pop = (some (.ok commit), { reading.cursor with page }) := by
      unfold Cursor.pop
      rw [held]
    rw [popped]
    have going : ends = 0 := by
      refine Nat.eq_zero_of_not_pos fun some => ?_
      rw [(finished some).1] at held
      cases held
    have more : ∀ cursor, yielded { reading with cursor, answers := reading.answers ++ [some (.ok commit)] } =
        reading.yielded ++ [commit] := by
      simp [yielded, Except.toOption]
    have both : reading.yielded ++ [commit] ++ page = reading.yielded ++ reading.cursor.page := by
      rw [held, List.append_assoc]
      rfl
    refine ⟨onTrack.about, ⟨0, ?_, fun none => absurd none (Nat.lt_irrefl 0)⟩, ?_, ?_, ?_, ?_, onTrack.now⟩
    · dsimp only
      rw [more, answers, going]
      simp
    all_goals dsimp only; rw [more, both]
    · exact onTrack.ascending
    · exact onTrack.behind
    · exact onTrack.seen
    · exact onTrack.reached

theorem OnTrack.next (onTrack : reading.OnTrack scope start) (views : reading.engine.Views view) :
    (reading.act .next).OnTrack scope start := by
  obtain ⟨ready, popped, taken⟩ := views.turns reading.cursor
  have item : (reading.engine.next reading.cursor).1 = ready.pop.1 := congrArg Prod.fst popped
  have rest : (reading.engine.next reading.cursor).2.1 = ready.pop.2 := congrArg Prod.snd popped
  have acted : reading.act .next =
      { reading with cursor := ready.pop.2, answers := reading.answers ++ [ready.pop.1] } := by
    show { reading with
      engine := (reading.engine.next reading.cursor).2.2
      cursor := (reading.engine.next reading.cursor).2.1
      answers := reading.answers ++ [(reading.engine.next reading.cursor).1] } = _
    rw [views.still, item, rest]
  rw [acted]
  rcases taken with ⟨rfl, full⟩ | refilled
  · exact onTrack.pop full
  · exact (onTrack.refill views refilled).pop refilled.full

theorem mem_moments_act {moment : Engine} (move : Move) (known : moment ∈ reading.moments) :
    moment ∈ (reading.act move).moments := by
  cases move with
  | next => exact known
  | call => exact List.mem_append_left _ known

theorem mem_moments_actAll {moment : Engine} (moves : List Move) (known : moment ∈ reading.moments) :
    moment ∈ (reading.actAll moves).moments := by
  induction moves generalizing reading with
  | nil => exact known
  | cons move moves ih => exact ih (mem_moments_act move known)

/-- A feed keeps to its track as long as its store stays open and what is stored can be read. -/
theorem OnTrack.actAll {journal : Journal} {accepted : List Commit} {moves : List Move}
    (onTrack : reading.OnTrack scope start) (holds : reading.engine.Holds (fun _ => False) journal)
    (sound : journal.Sound accepted) (others : .call .dispose ∉ moves)
    (readable : ∀ moment ∈ (reading.actAll moves).moments, moment.Readable) :
    ∃ after made, after.Sound made ∧ (reading.actAll moves).engine.Holds (fun _ => False) after ∧
      (reading.actAll moves).OnTrack scope start := by
  induction moves generalizing reading journal accepted with
  | nil => exact ⟨journal, accepted, sound, holds, onTrack⟩
  | cons move moves ih =>
    rw [List.mem_cons, not_or] at others
    cases move with
    | next =>
      obtain ⟨view, views⟩ := holds.views sound (readable _ (mem_moments_actAll (.next :: moves) onTrack.now))
      refine ih (onTrack.next views) ?_ sound others.2 readable
      show (reading.engine.next reading.cursor).2.2.Holds (fun _ => False) journal
      rw [views.still]
      exact holds
    | call call =>
      have other : call ≠ .dispose := fun same => others.1 (by rw [same])
      obtain ⟨after, step, held⟩ := holds.serve sound other
      exact ih (onTrack.call call) held (sound.step step) others.2 readable

/-! ### What a feed promises -/

/-- What a feed promises its reader, at any time. -/
structure Faithful (scope : Scope) (start : Checkpoint) (reading : Reading) : Prop where
  /-- The feed answers with commits, and from its first end on with nothing. -/
  answers : ∃ ends,
    reading.answers = reading.yielded.map (fun commit => some (.ok commit)) ++ List.replicate ends none
  /-- The checkpoints ascend, and all are beyond the start. -/
  ascending : (start :: reading.yielded.map Commit.checkpoint).Pairwise (· < ·)
  /-- A commit that has been shown has been in scope. -/
  seen : ∀ commit ∈ reading.yielded, ∃ moment ∈ reading.moments, moment.InScope scope start commit
  /-- At its end a feed has shown all that has been in scope all the time. -/
  complete : none ∈ reading.answers → ∀ commit,
    (∀ moment ∈ reading.moments, moment.InScope scope start commit) → commit ∈ reading.yielded
  /-- The next turn takes no more looks at the feed than it has chunks. -/
  prompt : ∀ store, reading.engine = .memory store → reading.cursor.exhausted = false →
    store.lookUpTo (store.feed.length / Memory.scanLimit + 1) reading.cursor = some (store.refill reading.cursor)

theorem OnTrack.faithful {journal : Journal} {accepted : List Commit} (onTrack : reading.OnTrack scope start)
    (holds : reading.engine.Holds (fun _ => False) journal) (sound : journal.Sound accepted) :
    reading.Faithful scope start := by
  obtain ⟨ends, answers, finished⟩ := onTrack.answers
  refine ⟨⟨ends, answers⟩, ?_, fun commit member => onTrack.seen commit (List.mem_append_left _ member),
    fun ended commit always => ?_, fun store same unfinished => ?_⟩
  · have ascending := onTrack.ascending
    rw [List.map_append, ← List.cons_append] at ascending
    exact (List.pairwise_append.1 ascending).1
  · have some : 0 < ends := by
      refine Nat.pos_of_ne_zero fun none => ?_
      rw [answers, none] at ended
      simp at ended
    obtain ⟨empty, exhausted⟩ := finished some
    rcases onTrack.reached commit always with taken | ⟨unfinished, -⟩
    · rwa [empty, List.append_nil] at taken
    · rw [exhausted] at unfinished
      cases unfinished
  · rw [same] at holds
    cases holds with
    | memory keeps isOpen =>
      refine MemoryStore.lookUpTo_eq ?_ unfinished ?_
      · rw [keeps.feed]
        exact sound.ascending
      · have fewer : (store.later reading.cursor.after).length ≤ store.feed.length := List.length_filter_le _ _
        have enough := Nat.lt_div_mul_add (a := store.feed.length) (b := Memory.scanLimit) (by decide)
        rw [Nat.succ_mul]
        omega

end Reading

/-- An engine that has been started empty. -/
inductive Engine.Fresh : Engine → Prop where
  | memory (config : MemoryConfig) : Fresh (.memory (MemoryStore.create config))
  | database (config : DatabaseConfig) : Fresh (.database (DatabaseStore.fresh config))

theorem Engine.Fresh.holds {engine : Engine} (fresh : engine.Fresh) : engine.Holds (fun _ => False) {} := by
  cases fresh with
  | memory config =>
    have keeps : (MemoryStore.create config).Keeps {} := .create config
    exact .memory keeps rfl
  | database config => exact .database (.fresh config) rfl fun _ never => never.elim

/-- Opening a feed of an open engine works. -/
theorem Engine.Holds.begin {readable : Commit → Prop} {engine : Engine} {journal : Journal}
    (holds : engine.Holds readable journal) (scope : Scope) (start : Checkpoint) :
    Reading.begin scope start engine =
      .ok { engine, cursor := Cursor.start scope start, moments := [engine] } := by
  cases holds with
  | @memory store _ _ isOpen =>
    have opened : store.openFeed scope start = .ok (Cursor.start scope start) := by
      rw [MemoryStore.openFeed, MemoryStore.ensureOpen, if_neg (by simp [isOpen])]
      rfl
    show (store.openFeed scope start).map _ = _
    rw [opened]
    rfl
  | @database store _ _ isOpen _ =>
    have opened : store.openFeed scope start = .ok (Cursor.start scope start) := by
      rw [DatabaseStore.openFeed, DatabaseStore.ensureOpen, if_neg (by simp [isOpen])]
      rfl
    show (store.openFeed scope start).map _ = _
    rw [opened]
    rfl

/-- A feed of an open store, read while whatever is called goes on, keeps its promises at every time, as long
as what is stored can be read. -/
theorem feed_faithful {engine : Engine} (fresh : engine.Fresh) {earlier : List Call} (kept : .dispose ∉ earlier)
    (scope : Scope) (start : Checkpoint) :
    ∃ reading, Reading.begin scope start (Call.serveAll earlier engine).2 = .ok reading ∧
      ∀ moves, .call .dispose ∉ moves → (∀ moment ∈ (reading.actAll moves).moments, moment.Readable) →
        (reading.actAll moves).Faithful scope start := by
  obtain ⟨journal, accepted, sound, holds⟩ := fresh.holds.serveAll .empty kept
  refine ⟨_, holds.begin scope start, fun moves others readable => ?_⟩
  obtain ⟨after, made, soundAfter, held, onTrack⟩ :=
    (Reading.OnTrack.begin scope start _).actAll holds sound others readable
  exact onTrack.faithful held soundAfter

/-- A feed with pages of one commit. The third commit is deleted before the feed gets to it, and it is not shown;
the first is deleted after it has been shown. -/
theorem feed_faithful_over_deletion :
    let attempt (name : String) : Attempt := ⟨⟨"orders"⟩, ⟨name⟩, 1, ⟨name⟩, 1, 0, [], [{ body := [1] }]⟩
    let earlier : List Call := [.commit (attempt "1")]
    let moves : List Reading.Move :=
      [.next, .call (.commit (attempt "2")), .next, .call (.deleteStream (attempt "1").key),
        .call (.commit (attempt "3")), .call (.deleteStream (attempt "3").key), .call (.commit (attempt "4")), .next,
        .next, .next]
    ∃ reading, Reading.begin .all ⟨0⟩ (Call.serveAll earlier (.database (DatabaseStore.fresh { pageSize := 0 }))).2 =
        .ok reading ∧
      (∀ moment ∈ (reading.actAll moves).moments, moment.Readable) ∧
      (reading.actAll moves).yielded.map (fun commit => commit.checkpoint.toInt) = [1, 2, 4] ∧
      (reading.actAll moves).answers.map Option.isSome = [true, true, true, false, false] ∧
      (reading.actAll moves).Faithful .all ⟨0⟩ := by
  intro attempt earlier moves
  have fresh : Engine.Fresh (.database (DatabaseStore.fresh { pageSize := 0 })) := .database _
  have kept : .dispose ∉ earlier := by simp [earlier]
  obtain ⟨_, _, _, holds⟩ := fresh.holds.serveAll .empty kept
  obtain ⟨reading, opened, faithful⟩ := feed_faithful fresh kept .all ⟨0⟩
  have known := Except.ok.inj (opened.symm.trans (holds.begin .all ⟨0⟩))
  have readable : ∀ moment ∈ (reading.actAll moves).moments, moment.Readable := by
    rw [known]; decide +kernel
  have shown : (reading.actAll moves).yielded.map (fun commit => commit.checkpoint.toInt) = [1, 2, 4] := by
    rw [known]; decide +kernel
  have answered : (reading.actAll moves).answers.map Option.isSome = [true, true, true, false, false] := by
    rw [known]; decide +kernel
  exact ⟨reading, opened, readable, shown, answered, faithful moves (by simp [moves]) readable⟩

end CommitLog
