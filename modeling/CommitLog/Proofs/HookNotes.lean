import CommitLog.Hooked
import CommitLog.Proofs.Call

/-!
Hooks that write down what they are asked and told (`Hook.noting`), and a store behind them that writes down what it is
asked (`Logged`). They do what they did before, and for each round of the hooks it can be said what has been written:
who was asked in which order, what came back, and who was not asked any more (`Consulted`, `Passage`, `Sifted`).
-/

namespace CommitLog

variable {σ ρ : Type}

namespace Hook

/-! ### Hooks that write down -/

/-- What the hook at a place in the order was asked or told, and what it answered. -/
inductive Note where
  | select (place : Nat) (commit : Commit) (shown : Option Commit)
  | preCommit (place : Nat) (attempt : Attempt) (answer : Except Error Unit)
  | postCommit (place : Nat) (commit : Commit)
  | onPurge (place : Nat) (bucket : Option BucketId)
  | onDeleteStream (place : Nat) (key : StreamKey)

/-- Does what a hook does, and writes down what it is asked and told. -/
def noting (place : Nat) (hook : Hook ρ) : Hook (List Note × ρ) where
  select commit memory :=
    let (shown, after) := hook.select commit memory.2
    (shown, memory.1 ++ [.select place commit shown], after)
  preCommit attempt memory :=
    let (answer, after) := hook.preCommit attempt memory.2
    (answer, memory.1 ++ [.preCommit place attempt answer], after)
  postCommit commit memory := (memory.1 ++ [.postCommit place commit], hook.postCommit commit memory.2)
  onPurge bucket memory := (memory.1 ++ [.onPurge place bucket], hook.onPurge bucket memory.2)
  onDeleteStream key memory := (memory.1 ++ [.onDeleteStream place key], hook.onDeleteStream key memory.2)

/-- Hooks that write down, the first at a place and each at the place after the one before it. -/
def notingFrom : Nat → List (Hook ρ) → List (Hook (List Note × ρ))
  | _, [] => []
  | place, hook :: rest => hook.noting place :: notingFrom (place + 1) rest

/-- Hooks from a place on, so many of them, are asked about an attempt, up to the first that keeps it away. -/
inductive Consulted (attempt : Attempt) : Nat → Nat → List Note → Except Error Unit → Prop where
  | allowed {place : Nat} : Consulted attempt place 0 [] (.ok ())
  | vetoed {place more : Nat} {error : Error} :
    Consulted attempt place (more + 1) [.preCommit place attempt (.error error)] (.error error)
  | onward {place more : Nat} {notes : List Note} {answer : Except Error Unit}
    (later : Consulted attempt (place + 1) more notes answer) :
    Consulted attempt place (more + 1) (.preCommit place attempt (.ok ()) :: notes) answer

/-- A commit passes through hooks from a place on, so many of them, each of which gets it as the one before has left it.
The first that hides it is the last to see it. -/
inductive Passage : Nat → Nat → Commit → List Note → Option Commit → Prop where
  | through {place : Nat} {commit : Commit} : Passage place 0 commit [] (some commit)
  | hidden {place more : Nat} {commit : Commit} : Passage place (more + 1) commit [.select place commit none] none
  | onward {place more : Nat} {commit left : Commit} {notes : List Note} {shown : Option Commit}
    (later : Passage (place + 1) more left notes shown) :
    Passage place (more + 1) commit (.select place commit (some left) :: notes) shown

/-- Items pass through so many hooks, one after the other. What is hidden is left out, and an error keeps its place. -/
inductive Sifted (count : Nat) : List FeedItem → List Note → List FeedItem → Prop where
  | nil : Sifted count [] [] []
  | error {error : Error} {items shown : List FeedItem} {notes : List Note} (later : Sifted count items notes shown) :
    Sifted count (.error error :: items) notes (.error error :: shown)
  | commit {commit : Commit} {left : Option Commit} {items shown : List FeedItem} {notes more : List Note}
    (passage : Passage 0 count commit notes left) (later : Sifted count items more shown) :
    Sifted count (.ok commit :: items) (notes ++ more) ((left.map .ok).toList ++ shown)

theorem Sifted.append {count : Nat} {items others shown further : List FeedItem} {notes more : List Note}
    (first : Sifted count items notes shown) (second : Sifted count others more further) :
    Sifted count (items ++ others) (notes ++ more) (shown ++ further) := by
  induction first with
  | nil => exact second
  | error _ ih => exact .error ih
  | commit passage _ ih =>
    rw [List.append_assoc, List.append_assoc]
    exact .commit passage ih

/-! ### Rounds of hooks -/

theorem preCommitAll_noting (hooks : List (Hook ρ)) (place : Nat) (attempt : Attempt) (notes : List Note) (memory : ρ) :
    ∃ written, preCommitAll (notingFrom place hooks) attempt (notes, memory) =
        ((preCommitAll hooks attempt memory).1, notes ++ written, (preCommitAll hooks attempt memory).2) ∧
      Consulted attempt place hooks.length written (preCommitAll hooks attempt memory).1 := by
  induction hooks generalizing place notes memory with
  | nil => exact ⟨[], by rw [List.append_nil]; rfl, .allowed⟩
  | cons hook rest ih =>
    cases answered : hook.preCommit attempt memory with | mk answer after
    simp only [notingFrom, preCommitAll, noting, answered]
    cases answer with
    | error error => exact ⟨_, rfl, .vetoed⟩
    | ok =>
      obtain ⟨written, run, consulted⟩ := ih (place + 1) (notes ++ [.preCommit place attempt (.ok ())]) after
      refine ⟨.preCommit place attempt (.ok ()) :: written, run.trans ?_, .onward consulted⟩
      rw [List.append_assoc]
      rfl

theorem selectAll_noting (hooks : List (Hook ρ)) (place : Nat) (commit : Commit) (notes : List Note) (memory : ρ) :
    ∃ written, selectAll (notingFrom place hooks) commit (notes, memory) =
        ((selectAll hooks commit memory).1, notes ++ written, (selectAll hooks commit memory).2) ∧
      Passage place hooks.length commit written (selectAll hooks commit memory).1 := by
  induction hooks generalizing place commit notes memory with
  | nil => exact ⟨[], by rw [List.append_nil]; rfl, .through⟩
  | cons hook rest ih =>
    cases answered : hook.select commit memory with | mk shown after
    simp only [notingFrom, selectAll, noting, answered]
    cases shown with
    | none => exact ⟨_, rfl, .hidden⟩
    | some left =>
      obtain ⟨written, run, passage⟩ := ih (place + 1) left (notes ++ [.select place commit (some left)]) after
      refine ⟨.select place commit (some left) :: written, run.trans ?_, .onward passage⟩
      rw [List.append_assoc]
      rfl

theorem selectEach_noting (hooks : List (Hook ρ)) (commits : List Commit) (notes : List Note) (memory : ρ) :
    ∃ written, selectEach (notingFrom 0 hooks) commits (notes, memory) =
        ((selectEach hooks commits memory).1, notes ++ written, (selectEach hooks commits memory).2) ∧
      Sifted hooks.length (commits.map .ok) written ((selectEach hooks commits memory).1.map .ok) := by
  induction commits generalizing notes memory with
  | nil => exact ⟨[], by rw [List.append_nil]; rfl, .nil⟩
  | cons commit rest ih =>
    obtain ⟨written, run, passage⟩ := selectAll_noting hooks 0 commit notes memory
    cases selected : selectAll hooks commit memory with | mk left after
    rw [selected] at run passage
    simp only [selectEach, run, selected]
    obtain ⟨more, others, sifted⟩ := ih (notes ++ written) after
    refine ⟨written ++ more, by rw [others, List.append_assoc], ?_⟩
    have both := Sifted.commit passage sifted
    cases left <;> exact both

/-- All hooks are told, one after the other. -/
theorem tellAll_noting {tell : Hook (List Note × ρ) → List Note × ρ → List Note × ρ} {told : Hook ρ → ρ → ρ}
    {note : Nat → Note}
    (single : ∀ place hook notes memory,
      tell (noting place hook) (notes, memory) = (notes ++ [note place], told hook memory))
    (hooks : List (Hook ρ)) (place : Nat) (notes : List Note) (memory : ρ) :
    tellAll tell (notingFrom place hooks) (notes, memory) =
      (notes ++ (List.range' place hooks.length).map note, tellAll told hooks memory) := by
  induction hooks generalizing place notes memory with
  | nil => rw [notingFrom]; exact Prod.ext (List.append_nil notes).symm rfl
  | cons hook rest ih =>
    have onward := ih (place + 1) (notes ++ [note place]) (told hook memory)
    rw [tellAll] at onward ⊢
    rw [notingFrom, List.foldl_cons, single, onward, List.length_cons, List.range'_succ, List.append_assoc]
    rfl

end Hook

/-! ### A store that writes down -/

/-- What a store was asked, and what it answered. -/
inductive Served where
  | call (call : Call) (answer : Call.Answer)
  | openFeed (scope : Scope) (after : Checkpoint) (answer : Except Error Unit)
  /-- The next item of a feed, or none at its end. -/
  | next (item : Option FeedItem)

/-- A store that writes down what it is asked, and what it answers. -/
structure Logged (σ : Type) where
  inner : σ
  log : List Served := []

namespace Logged

def writing {α : Type} (line : α → Served) (operation : σ → α × σ) (store : Logged σ) : α × Logged σ :=
  let (answer, inner) := operation store.inner
  (answer, { inner, log := store.log ++ [line answer] })

/-- An operation that is one of the calls. -/
def calling {α : Type} (call : Call) (reply : α → Call.Reply) (operation : σ → Except Error α × σ) (store : Logged σ) :
    Except Error α × Logged σ :=
  writing (fun answer => .call call (answer.map reply)) operation store

variable [CommitStore σ]

def next (feed : CommitStore.Feed σ) (store : Logged σ) : Option FeedItem × CommitStore.Feed σ × Logged σ :=
  let (item, rest, inner) := CommitStore.next feed store.inner
  (item, rest, { inner, log := store.log ++ [.next item] })

instance : CommitStore (Logged σ) where
  Feed := CommitStore.Feed σ
  prepare := calling .prepare (fun _ => .done) CommitStore.prepare
  commit attempt := calling (.commit attempt) .commit (CommitStore.commit attempt)
  getFrom key least most := calling (.getFrom key least most) .commits (CommitStore.getFrom key least most)
  openFeed scope after :=
    writing (fun answer => .openFeed scope after (answer.map fun _ => ())) (CommitStore.openFeed scope after)
  next := next
  markDispatched checkpoint :=
    calling (.markDispatched checkpoint) (fun _ => .done) (CommitStore.markDispatched checkpoint)
  head key := calling (.head key) .head (CommitStore.head key)
  snapshot key most := calling (.snapshot key most) .snapshot (CommitStore.snapshot key most)
  addSnapshot snapshot := calling (.addSnapshot snapshot) .flag (CommitStore.addSnapshot snapshot)
  streamsToSnapshot bucket threshold :=
    calling (.streamsToSnapshot bucket threshold) .heads (CommitStore.streamsToSnapshot bucket threshold)
  deleteStream key := calling (.deleteStream key) (fun _ => .done) (CommitStore.deleteStream key)
  purgeBucket bucket := calling (.purgeBucket bucket) (fun _ => .done) (CommitStore.purgeBucket bucket)
  purge := calling .purge (fun _ => .done) CommitStore.purge
  dispose := calling .dispose (fun _ => .done) CommitStore.dispose
  isDisposed store := CommitStore.isDisposed store.inner
  remaining feed store := CommitStore.remaining feed store.inner
  remaining_next := by
    intro feed store item rest after found
    refine CommitStore.remaining_next (?_ : CommitStore.next feed store.inner = (some item, rest, after.inner))
    simp only [next, Prod.mk.injEq] at found
    obtain ⟨same, left, rfl⟩ := found
    exact Prod.ext same (Prod.ext left rfl)

theorem next_eq {feed rest : CommitStore.Feed σ} {inner after : σ} {item : Option FeedItem} (log : List Served)
    (found : CommitStore.next feed inner = (item, rest, after)) :
    @CommitStore.next (Logged σ) _ feed ⟨inner, log⟩ = (item, rest, ⟨after, log ++ [.next item]⟩) := by
  simp only [CommitStore.next, Logged.next, found]

end Logged

/-! ### Hooks before a store, both writing down -/

/-- What hooks are told of the outcome of an operation: all of them, in order, if it has succeeded. -/
def Hook.announcements {α : Type} (count : Nat) (note : α → Nat → Hook.Note) : Except Error α → List Hook.Note
  | .ok answer => (List.range count).map (note answer)
  | .error _ => []

/-- What a feed behind so many hooks draws from the store to hand out an item, and what the hooks do to it. -/
inductive Hook.Turned (count : Nat) : List Served → List Hook.Note → Option FeedItem → Prop where
  | ended : Turned count [.next none] [] none
  | error {error : Error} : Turned count [.next (some (.error error))] [] (some (.error error))
  | kept {commit shown : Commit} {notes : List Hook.Note} (passage : Hook.Passage 0 count commit notes (some shown)) :
    Turned count [.next (some (.ok commit))] notes (some (.ok shown))
  | hidden {commit : Commit} {lines : List Served} {notes more : List Hook.Note} {item : Option FeedItem}
    (passage : Hook.Passage 0 count commit notes none) (later : Turned count lines more item) :
    Turned count (.next (some (.ok commit)) :: lines) (notes ++ more) item

/-- What is drawn passes through the hooks up to the item that is handed out, or to the end. -/
theorem Hook.Turned.drawn {count : Nat} {lines : List Served} {notes : List Hook.Note} {item : Option FeedItem}
    (turned : Hook.Turned count lines notes item) :
    ∃ items : List FeedItem, Hook.Sifted count items notes item.toList ∧
      lines = (items.map fun item => .next (some item)) ++ if item.isSome then [] else [.next none] := by
  induction turned with
  | ended => exact ⟨[], .nil, rfl⟩
  | @error error => exact ⟨[.error error], .error .nil, rfl⟩
  | @kept commit shown notes passage =>
    have alone := Hook.Sifted.commit passage .nil
    rw [List.append_nil] at alone
    exact ⟨[.ok commit], alone, rfl⟩
  | @hidden commit lines notes more item passage _ ih =>
    obtain ⟨items, sifted, drawn⟩ := ih
    exact ⟨.ok commit :: items, .commit passage sifted, by rw [drawn]; rfl⟩

/-- A store that writes down, behind hooks that write down. -/
abbrev Noting (σ ρ : Type) := Hooked (Logged σ) (List Hook.Note × ρ)

namespace Hooked

/-- The same hooks and the same store, with what they have written down so far. -/
def noted (log : List Served) (notes : List Hook.Note) (store : Hooked σ ρ) : Noting σ ρ :=
  ⟨⟨store.inner, log⟩, Hook.notingFrom 0 store.hooks, (notes, store.memory)⟩

theorem announced_hooks {α : Type} {operation : σ → Except Error α × σ} {tell : α → Hook ρ → ρ → ρ}
    {store : Hooked σ ρ} : (announced operation tell store).2.hooks = store.hooks := by
  rw [announced]
  split <;> rfl

theorem announced_noted {α : Type} {call : Call} {reply : α → Call.Reply} {operation : σ → Except Error α × σ}
    {tell : α → Hook ρ → ρ → ρ} {telling : α → Hook (List Hook.Note × ρ) → List Hook.Note × ρ → List Hook.Note × ρ}
    {note : α → Nat → Hook.Note}
    (single : ∀ answer place hook notes memory,
      telling answer (Hook.noting place hook) (notes, memory) = (notes ++ [note answer place], tell answer hook memory))
    (store : Hooked σ ρ) (log : List Served) (notes : List Hook.Note) :
    announced (Logged.calling call reply operation) telling (store.noted log notes) =
      ((announced operation tell store).1, (announced operation tell store).2.noted
        (log ++ [.call call ((announced operation tell store).1.map reply)])
        (notes ++ Hook.announcements store.hooks.length note (announced operation tell store).1)) := by
  simp only [announced, noted, Logged.calling, Logged.writing]
  cases operation store.inner with | mk answer inner
  cases answer with
  | error error => simp [Hook.announcements]
  | ok value =>
    dsimp only
    rw [Hook.tellAll_noting (single value), ← List.range_eq_range']
    rfl

variable [CommitStore σ]

/-- One item of the store behind the hooks. -/
theorem next_eq (feed : CommitStore.Feed σ) (store : Hooked σ ρ) :
    Hooked.next feed store =
      match CommitStore.next feed store.inner with
      | (none, rest, inner) => (none, rest, { store with inner })
      | (some (.error error), rest, inner) => (some (.error error), rest, { store with inner })
      | (some (.ok commit), rest, inner) =>
        match Hook.selectAll store.hooks commit store.memory with
        | (some commit, memory) => (some (.ok commit), rest, { store with inner, memory })
        | (none, memory) => Hooked.next rest { store with inner, memory } := by
  rw [Hooked.next]
  split
  · next found => rw [found]
  · next found => rw [found]
  · next commit _ _ found =>
    cases selected : Hook.selectAll store.hooks commit store.memory with | mk shown memory
    cases shown <;> simp only [found, selected]

theorem next_noted (feed : CommitStore.Feed σ) (store : Hooked σ ρ) (log : List Served) (notes : List Hook.Note) :
    ∃ lines written, @Hooked.next (Logged σ) _ _ feed (store.noted log notes) =
        ((Hooked.next feed store).1, (Hooked.next feed store).2.1,
          (Hooked.next feed store).2.2.noted (log ++ lines) (notes ++ written)) ∧
      Hook.Turned store.hooks.length lines written (Hooked.next feed store).1 ∧
      (Hooked.next feed store).2.2.hooks = store.hooks := by
  fun_induction Hooked.next feed store generalizing log notes with
  | case1 feed store rest inner found =>
    refine ⟨[.next none], [], ?_, .ended, rfl⟩
    rw [Hooked.next_eq, noted, Logged.next_eq log found, List.append_nil]
    rfl
  | case2 feed store error rest inner found =>
    refine ⟨[.next (some (.error error))], [], ?_, .error, rfl⟩
    rw [Hooked.next_eq, noted, Logged.next_eq log found, List.append_nil]
    rfl
  | case3 feed store commit rest inner found shown memory kept =>
    obtain ⟨written, run, passage⟩ := Hook.selectAll_noting store.hooks 0 commit notes store.memory
    rw [kept] at run passage
    refine ⟨[.next (some (.ok commit))], written, ?_, .kept passage, rfl⟩
    rw [Hooked.next_eq, noted, Logged.next_eq log found]
    dsimp only
    rw [run]
    rfl
  | case4 feed store commit rest inner found memory hidden ih =>
    obtain ⟨written, run, passage⟩ := Hook.selectAll_noting store.hooks 0 commit notes store.memory
    rw [hidden] at run passage
    obtain ⟨lines, more, onward, turned, same⟩ := ih (log ++ [.next (some (.ok commit))]) (notes ++ written)
    refine ⟨.next (some (.ok commit)) :: lines, written ++ more, ?_, .hidden passage turned, same⟩
    rw [Hooked.next_eq, noted, Logged.next_eq log found]
    dsimp only
    rw [run]
    dsimp only
    refine onward.trans ?_
    rw [List.append_assoc, List.append_assoc]
    rfl

end Hooked
end CommitLog
