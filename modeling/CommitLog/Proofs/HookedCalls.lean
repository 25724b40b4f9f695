import CommitLog.Proofs.Feed
import CommitLog.Proofs.HookNotes

/-!
What hooks do to the calls of a client (`hooks_in_order`). The client makes calls, and opens feeds and takes single
items from them in any order. Hooks and store write down what they are asked, which changes nothing for the client, and
what they write is what is promised (`Ask.Lawful`).
-/

namespace CommitLog

variable {σ ρ τ : Type}

/-! ### Clients -/

/-- What a client asks of a store. -/
inductive Ask where
  | call (call : Call)
  | openFeed (scope : Scope) (after : Checkpoint)
  /-- The next item of a feed that has been opened, by its place among them. -/
  | next (place : Nat)

/-- What a client is told. -/
inductive Told where
  | call (answer : Call.Answer)
  /-- A feed is open, or cannot be opened. -/
  | opened (answer : Except Error Unit)
  | item (item : Option FeedItem)
  /-- There is no such feed. -/
  | nothing

/-- The item of a feed that a client is told. -/
def Told.item? : Told → Option FeedItem
  | .item handed => handed
  | _ => none

/-- A store and its open feeds. -/
structure Client (τ : Type) [CommitStore τ] where
  store : τ
  feeds : List (CommitStore.Feed τ) := []

/-- An ask, and the client before and after it. -/
structure Exchange (τ : Type) [CommitStore τ] where
  ask : Ask
  before : Client τ
  told : Told
  after : Client τ

namespace Ask

variable [CommitStore τ]

def make : Ask → Client τ → Told × Client τ
  | .call asked, client =>
    let (answer, store) := asked.serve client.store
    (.call answer, { client with store })
  | .openFeed scope after, client =>
    match CommitStore.openFeed scope after client.store with
    | (.error error, store) => (.opened (.error error), { client with store })
    | (.ok feed, store) => (.opened (.ok ()), ⟨store, client.feeds ++ [feed]⟩)
  | .next place, client =>
    match client.feeds[place]? with
    | none => (.nothing, client)
    | some feed =>
      let (item, feed, store) := CommitStore.next feed client.store
      (.item item, ⟨store, client.feeds.set place feed⟩)

def run : List Ask → Client τ → List (Exchange τ)
  | [], _ => []
  | ask :: asks, client =>
    let (told, after) := ask.make client
    ⟨ask, client, told, after⟩ :: run asks after

end Ask

/-! ### What is promised -/

/-- A call that has nothing to do with hooks. -/
def Call.unhooked : Call → Bool
  | .prepare | .markDispatched _ | .head _ | .addSnapshot _ | .snapshot _ _ | .streamsToSnapshot _ _ | .dispose => true
  | _ => false

/-- What is asked of the store behind so many hooks, and what of the hooks, for an ask and what the client is told. -/
inductive Ask.Lawful (count : Nat) : Ask → Told → List Served → List Hook.Note → Prop where
  | vetoed {attempt : Attempt} {error : Error} {notes : List Hook.Note}
    (consulted : Hook.Consulted attempt 0 count notes (.error error)) :
    Lawful count (.call (.commit attempt)) (.call (.error error)) [] notes
  | committed {attempt : Attempt} {answer : Except Error Commit} {notes : List Hook.Note}
    (consulted : Hook.Consulted attempt 0 count notes (.ok ())) :
    Lawful count (.call (.commit attempt)) (.call (answer.map .commit)) [.call (.commit attempt) (answer.map .commit)]
      (notes ++ Hook.announcements count (fun commit place => .postCommit place commit) answer)
  | deletedStream {key : StreamKey} {answer : Except Error Unit} :
    Lawful count (.call (.deleteStream key)) (.call (answer.map fun _ => .done))
      [.call (.deleteStream key) (answer.map fun _ => .done)]
      (Hook.announcements count (fun _ place => .onDeleteStream place key) answer)
  | purgedBucket {bucket : BucketId} {answer : Except Error Unit} :
    Lawful count (.call (.purgeBucket bucket)) (.call (answer.map fun _ => .done))
      [.call (.purgeBucket bucket) (answer.map fun _ => .done)]
      (Hook.announcements count (fun _ place => .onPurge place (some bucket)) answer)
  | purged {answer : Except Error Unit} :
    Lawful count (.call .purge) (.call (answer.map fun _ => .done)) [.call .purge (answer.map fun _ => .done)]
      (Hook.announcements count (fun _ place => .onPurge place none) answer)
  | notGot {key : StreamKey} {least most : UInt64} {error : Error} :
    Lawful count (.call (.getFrom key least most)) (.call (.error error))
      [.call (.getFrom key least most) (.error error)] []
  | got {key : StreamKey} {least most : UInt64} {commits shown : List Commit} {notes : List Hook.Note}
    (sifted : Hook.Sifted count (commits.map .ok) notes (shown.map .ok)) :
    Lawful count (.call (.getFrom key least most)) (.call (.ok (.commits shown)))
      [.call (.getFrom key least most) (.ok (.commits commits))] notes
  | notRead {scope : Scope} {after : Checkpoint} {error : Error} :
    Lawful count (.call (.readFeed scope after)) (.call (.error error)) [.openFeed scope after (.error error)] []
  | read {scope : Scope} {after : Checkpoint} {items shown : List FeedItem} {notes : List Hook.Note}
    (sifted : Hook.Sifted count items notes shown) :
    Lawful count (.call (.readFeed scope after)) (.call (.ok (.items shown)))
      (.openFeed scope after (.ok ()) :: (items.map fun item => .next (some item)) ++ [.next none]) notes
  | passed {call : Call} {answer : Call.Answer} (unhooked : call.unhooked = true) :
    Lawful count (.call call) (.call answer) [.call call answer] []
  | isDisposed {answer : Call.Answer} : Lawful count (.call .isDisposed) (.call answer) [] []
  | opened {scope : Scope} {after : Checkpoint} {answer : Except Error Unit} :
    Lawful count (.openFeed scope after) (.opened answer) [.openFeed scope after answer] []
  | handed {place : Nat} {lines : List Served} {notes : List Hook.Note} {item : Option FeedItem}
    (turned : Hook.Turned count lines notes item) : Lawful count (.next place) (.item item) lines notes
  | absent {place : Nat} : Lawful count (.next place) .nothing [] []

/-! ### One ask -/

namespace Hooked

/-- What is written down for an ask is what is promised, and a store of which nothing is asked stays as it is. -/
structure Wrote (ask : Ask) (told : Told) (before after : Hooked σ ρ) (lines : List Served) (notes : List Hook.Note) :
    Prop where
  lawful : Ask.Lawful before.hooks.length ask told lines notes
  untouched : lines = [] → after.inner = before.inner
  hooks : after.hooks = before.hooks

/-- Where something is asked of the store, it may change. -/
theorem Wrote.of_line {ask : Ask} {told : Told} {before after : Hooked σ ρ} {line : Served} {lines : List Served}
    {notes : List Hook.Note} (lawful : Ask.Lawful before.hooks.length ask told (line :: lines) notes)
    (hooks : after.hooks = before.hooks) : Wrote ask told before after (line :: lines) notes :=
  ⟨lawful, fun nothing => absurd nothing (List.cons_ne_nil line lines), hooks⟩

variable [CommitStore σ] {call : Call} {log : List Served} {notes : List Hook.Note} {store : Hooked σ ρ}

/-- Hooks and a store that write down serve a call like those that do not. -/
def NotedAs (call : Call) (log : List Served) (notes : List Hook.Note) (store : Hooked σ ρ) : Prop :=
  ∃ lines written,
    call.serve (store.noted log notes) =
        ((call.serve store).1, (call.serve store).2.noted (log ++ lines) (notes ++ written)) ∧
      Wrote (.call call) (.call (call.serve store).1) store (call.serve store).2 lines written

/-- A call of which no hook is asked or told. -/
theorem NotedAs.of_unhooked {α : Type} {reply : α → Call.Reply} {operation : σ → Except Error α × σ}
    (unhooked : call.unhooked = true) (served : call.serve store = Call.answering reply (onInner operation store))
    (logged : call.serve (store.noted log notes) =
      Call.answering reply (onInner (Logged.calling call reply operation) (store.noted log notes))) :
    NotedAs call log notes store := by
  refine ⟨[.call call (call.serve store).1], [], ?_, .of_line (.passed unhooked) ?_⟩
  · rw [logged, served, List.append_nil]
    rfl
  · rw [served]
    rfl

/-- A call that the hooks are told of when it has succeeded. -/
theorem NotedAs.of_announced {operation : σ → Except Error Unit × σ} {tell : Hook ρ → ρ → ρ}
    {telling : Hook (List Hook.Note × ρ) → List Hook.Note × ρ → List Hook.Note × ρ} {note : Nat → Hook.Note}
    (single : ∀ place hook notes memory,
      telling (Hook.noting place hook) (notes, memory) = (notes ++ [note place], tell hook memory))
    (served : call.serve store = Call.answering (fun _ => .done) (announced operation (fun _ => tell) store))
    (logged : call.serve (store.noted log notes) = Call.answering (fun _ => .done)
      (announced (Logged.calling call (fun _ => .done) operation) (fun _ => telling) (store.noted log notes)))
    (lawful : ∀ answer : Except Error Unit, Ask.Lawful store.hooks.length (.call call)
      (.call (answer.map fun _ => .done)) [.call call (answer.map fun _ => .done)]
      (Hook.announcements store.hooks.length (fun _ => note) answer)) :
    NotedAs call log notes store := by
  rw [NotedAs, served, logged, announced_noted fun _ : Unit => single]
  exact ⟨_, _, rfl, .of_line (lawful _) announced_hooks⟩

theorem commit_noted (attempt : Attempt) : NotedAs (.commit attempt) log notes store := by
  obtain ⟨asked, run, consulted⟩ := Hook.preCommitAll_noting store.hooks 0 attempt notes store.memory
  have served : (Call.commit attempt).serve store = Call.answering .commit (store.commit attempt) := rfl
  have logged : (Call.commit attempt).serve (store.noted log notes) =
    Call.answering .commit ((store.noted log notes).commit attempt) := rfl
  replace run : Hook.preCommitAll (store.noted log notes).hooks attempt (store.noted log notes).memory = _ := run
  rw [NotedAs, served, logged, Hooked.commit, Hooked.commit, run]
  cases answered : Hook.preCommitAll store.hooks attempt store.memory with | mk answer memory
  rw [answered] at consulted
  cases answer with
  | error error =>
    refine ⟨[], asked, ?_, .vetoed consulted, fun _ => rfl, rfl⟩
    rw [List.append_nil]
    rfl
  | ok =>
    have told : announced (Logged.calling (.commit attempt) .commit (CommitStore.commit attempt))
        (fun commit hook => hook.postCommit commit) (noted log (notes ++ asked) { store with memory }) = _ :=
      announced_noted (fun _ _ _ _ _ => rfl) _ log (notes ++ asked)
    refine ⟨_, _, (congrArg (Call.answering .commit) told).trans ?_, .of_line (.committed consulted) announced_hooks⟩
    rw [List.append_assoc]
    rfl

theorem getFrom_noted (key : StreamKey) (least most : UInt64) : NotedAs (.getFrom key least most) log notes store := by
  have served : (Call.getFrom key least most).serve store =
    Call.answering .commits (store.getFrom key least most) := rfl
  have logged : (Call.getFrom key least most).serve (store.noted log notes) =
    Call.answering .commits ((store.noted log notes).getFrom key least most) := rfl
  have asked : CommitStore.getFrom key least most (store.noted log notes).inner =
    Logged.calling (.getFrom key least most) .commits (CommitStore.getFrom key least most) ⟨store.inner, log⟩ := rfl
  rw [NotedAs, served, logged, Hooked.getFrom, Hooked.getFrom, asked, Logged.calling, Logged.writing]
  cases CommitStore.getFrom key least most store.inner with | mk answer inner
  cases answer with
  | error error =>
    refine ⟨[.call (.getFrom key least most) (.error error)], [], ?_, .of_line .notGot rfl⟩
    rw [List.append_nil]
    rfl
  | ok commits =>
    obtain ⟨written, run, sifted⟩ := Hook.selectEach_noting store.hooks commits notes store.memory
    replace run : Hook.selectEach (store.noted log notes).hooks commits (store.noted log notes).memory = _ := run
    refine ⟨[.call (.getFrom key least most) (.ok (.commits commits))], written, ?_, .of_line (.got sifted) rfl⟩
    dsimp only
    rw [run]
    rfl

/-- A feed that is read to its end shows what the hooks leave of the items of the store behind them. -/
theorem rest_noted (feed : CommitStore.Feed σ) (store : Hooked σ ρ) (log : List Served) (notes : List Hook.Note) :
    ∃ (items : List FeedItem) (written : List Hook.Note),
      @CommitStore.rest (Noting σ ρ) _ feed (store.noted log notes) =
        ((@CommitStore.rest (Hooked σ ρ) _ feed store).1, (@CommitStore.rest (Hooked σ ρ) _ feed store).2.noted
          (log ++ ((items.map fun item => .next (some item)) ++ [.next none])) (notes ++ written)) ∧
      Hook.Sifted store.hooks.length items written (@CommitStore.rest (Hooked σ ρ) _ feed store).1 ∧
      (@CommitStore.rest (Hooked σ ρ) _ feed store).2.hooks = store.hooks := by
  fun_induction @CommitStore.rest (Hooked σ ρ) _ feed store generalizing log notes with
  | case1 feed store rest after found =>
    obtain ⟨lines, written, turn, turned, same⟩ := @next_noted σ ρ _ feed store log notes
    replace found : @Hooked.next σ ρ _ feed store = (none, rest, after) := found
    replace turn : @CommitStore.next (Noting σ ρ) _ feed (store.noted log notes) = _ := turn
    rw [found] at turn turned same
    -- Whatever is drawn before the end is hidden.
    obtain ⟨items, sifted, drawn⟩ := turned.drawn
    refine ⟨items, written, ?_, sifted, same⟩
    rw [CommitStore.rest_eq, turn, drawn]
    rfl
  | case2 feed store item rest after found shown left step ih =>
    obtain ⟨lines, written, turn, turned, same⟩ := @next_noted σ ρ _ feed store log notes
    replace found : @Hooked.next σ ρ _ feed store = (some item, rest, after) := found
    replace turn : @CommitStore.next (Noting σ ρ) _ feed (store.noted log notes) = _ := turn
    rw [found] at turn turned same
    obtain ⟨items, sifted, drawn⟩ := turned.drawn
    obtain ⟨others, more, onward, siftedOn, sameOn⟩ := ih (log ++ lines) (notes ++ written)
    rw [step] at onward siftedOn sameOn
    rw [same] at siftedOn
    refine ⟨items ++ others, written ++ more, ?_, sifted.append siftedOn, sameOn.trans same⟩
    rw [CommitStore.rest_eq, turn]
    dsimp only
    rw [onward, drawn]
    simp

theorem readFeed_noted (scope : Scope) (after : Checkpoint) : NotedAs (.readFeed scope after) log notes store := by
  have opened : CommitStore.openFeed scope after (store.noted log notes) =
      ((CommitStore.openFeed scope after store).1, (CommitStore.openFeed scope after store).2.noted
        (log ++ [.openFeed scope after ((CommitStore.openFeed scope after store).1.map fun _ => ())]) notes) := rfl
  have same : (CommitStore.openFeed scope after store).2.hooks = store.hooks := rfl
  rw [NotedAs, Call.serve, Call.serve, CommitStore.readFeed, CommitStore.readFeed, opened]
  cases found : CommitStore.openFeed scope after store with | mk answer left
  rw [found] at same
  cases answer with
  | error error =>
    refine ⟨[.openFeed scope after (.error error)], [], ?_, .of_line .notRead same⟩
    rw [List.append_nil]
    rfl
  | ok feed =>
    obtain ⟨items, written, run, sifted, kept⟩ :=
      @rest_noted σ ρ _ feed left (log ++ [.openFeed scope after (.ok ())]) notes
    rw [same] at sifted
    refine ⟨_, written, ?_, .of_line (.read sifted) (kept.trans same)⟩
    have read := congrArg (fun rest => Call.answering Call.Reply.items ((.ok rest.1 : Except Error _), rest.2)) run
    refine read.trans ?_
    rw [List.append_assoc]
    rfl

theorem serve_noted (call : Call) (store : Hooked σ ρ) (log : List Served) (notes : List Hook.Note) :
    NotedAs call log notes store := by
  cases call with
  | commit attempt => exact commit_noted attempt
  | getFrom key least most => exact getFrom_noted key least most
  | readFeed scope after => exact readFeed_noted scope after
  | prepare | markDispatched | head | addSnapshot | snapshot | streamsToSnapshot | dispose =>
    exact .of_unhooked rfl rfl rfl
  | deleteStream key => exact .of_announced (fun _ _ _ _ => rfl) rfl rfl fun _ => .deletedStream
  | purgeBucket bucket => exact .of_announced (fun _ _ _ _ => rfl) rfl rfl fun _ => .purgedBucket
  | purge => exact .of_announced (fun _ _ _ _ => rfl) rfl rfl fun _ => .purged
  | isDisposed =>
    refine ⟨[], [], ?_, .isDisposed, fun _ => rfl, rfl⟩
    rw [List.append_nil, List.append_nil]
    rfl

end Hooked

/-! ### Many asks -/

/-- The client of the same hooks and the same store, with what they have written down so far. -/
def Client.noted [CommitStore σ] (log : List Served) (notes : List Hook.Note) (client : Client (Hooked σ ρ)) :
    Client (Noting σ ρ) :=
  ⟨client.store.noted log notes, client.feeds⟩

/-- The client as it is if nothing is written down. -/
def Client.forget [CommitStore σ] (hooks : List (Hook ρ)) (client : Client (Noting σ ρ)) :
    Client (Hooked σ ρ) :=
  ⟨⟨client.store.inner.inner, hooks, client.store.memory.2⟩, client.feeds⟩

/-- The item of a feed that a line is about. -/
def Served.item? : Served → Option FeedItem
  | .next item => item
  | _ => none

namespace Exchange

variable [CommitStore σ]

def forget (hooks : List (Hook ρ)) (exchange : Exchange (Noting σ ρ)) : Exchange (Hooked σ ρ) :=
  ⟨exchange.ask, exchange.before.forget hooks, exchange.told, exchange.after.forget hooks⟩

/-- What the store behind the hooks has written down for an ask. -/
def lines (exchange : Exchange (Noting σ ρ)) : List Served :=
  exchange.after.store.inner.log.drop exchange.before.store.inner.log.length

/-- What the hooks have written down for an ask. -/
def notes (exchange : Exchange (Noting σ ρ)) : List Hook.Note :=
  exchange.after.store.memory.1.drop exchange.before.store.memory.1.length

end Exchange

namespace Ask

/-- Asks for the next item of a feed. -/
def wants (place : Nat) : Ask → Bool
  | .next other => other = place
  | _ => false

variable [CommitStore σ]

theorem make_noted (ask : Ask) (client : Client (Hooked σ ρ)) (log : List Served) (notes : List Hook.Note) :
    ∃ lines written, ask.make (client.noted log notes) =
        ((ask.make client).1, (ask.make client).2.noted (log ++ lines) (notes ++ written)) ∧
      Hooked.Wrote ask (ask.make client).1 client.store (ask.make client).2.store lines written := by
  cases ask with
  | call call =>
    obtain ⟨lines, written, run, wrote⟩ := Hooked.serve_noted call client.store log notes
    refine ⟨lines, written, ?_, wrote⟩
    rw [make, make, Client.noted, run]
    rfl
  | openFeed scope after =>
    have opened : CommitStore.openFeed scope after (client.store.noted log notes) =
        ((CommitStore.openFeed scope after client.store).1, (CommitStore.openFeed scope after client.store).2.noted
          (log ++ [.openFeed scope after ((CommitStore.openFeed scope after client.store).1.map fun _ => ())])
          notes) := rfl
    have same : (CommitStore.openFeed scope after client.store).2.hooks = client.store.hooks := rfl
    rw [make, make, Client.noted, opened]
    cases found : CommitStore.openFeed scope after client.store with | mk answer left
    rw [found] at same
    cases answer with
    | error error =>
      refine ⟨[.openFeed scope after (.error error)], [], ?_, .of_line .opened same⟩
      rw [List.append_nil]
      rfl
    | ok feed =>
      refine ⟨[.openFeed scope after (.ok ())], [], ?_, .of_line .opened same⟩
      rw [List.append_nil]
      rfl
  | next place =>
    have feeds : (client.noted log notes).feeds[place]? = client.feeds[place]? := rfl
    rw [make, make, feeds]
    cases client.feeds[place]? with
    | none =>
      refine ⟨[], [], ?_, .absent, fun _ => rfl, rfl⟩
      rw [List.append_nil, List.append_nil]
    | some feed =>
      obtain ⟨lines, written, turn, turned, same⟩ := @Hooked.next_noted σ ρ _ feed client.store log notes
      replace turn : @CommitStore.next (Noting σ ρ) _ feed (client.noted log notes).store = _ := turn
      refine ⟨lines, written, ?_, .handed turned, ?_, same⟩
      · dsimp only
        rw [turn]
        rfl
      · rintro rfl
        cases turned

/-- What is drawn from the store for the asks for a feed. -/
def drawn (place : Nat) (exchanges : List (Exchange (Noting σ ρ))) : List FeedItem :=
  (exchanges.filter fun exchange => exchange.ask.wants place).flatMap fun exchange =>
    exchange.lines.filterMap Served.item?

/-- What the hooks are asked for them. -/
def noted (place : Nat) (exchanges : List (Exchange (Noting σ ρ))) : List Hook.Note :=
  (exchanges.filter fun exchange => exchange.ask.wants place).flatMap Exchange.notes

/-- What the client gets for them. -/
def shown (place : Nat) (exchanges : List (Exchange (Noting σ ρ))) : List FeedItem :=
  (exchanges.filter fun exchange => exchange.ask.wants place).flatMap fun exchange =>
    exchange.told.item?.toList

theorem Lawful.sifted {count place : Nat} {ask : Ask} {told : Told} {lines : List Served} {notes : List Hook.Note}
    (lawful : ask.Lawful count told lines notes) (wants : ask.wants place = true) :
    Hook.Sifted count (lines.filterMap Served.item?) notes told.item?.toList := by
  cases lawful with
  | @handed place lines notes item turned =>
    obtain ⟨items, sifted, rfl⟩ := turned.drawn
    have each : (Served.item? ∘ fun item : FeedItem => .next (some item)) = some := rfl
    have drawn : List.filterMap Served.item? ((items.map fun item => .next (some item)) ++
        if item.isSome then [] else [.next none]) = items := by
      cases item <;> simp [each, Served.item?]
    rw [drawn]
    exact sifted
  | absent => exact .nil
  | _ => cases wants

theorem sifted_feed {count : Nat} (place : Nat) {exchanges : List (Exchange (Noting σ ρ))}
    (lawful : ∀ exchange ∈ exchanges, exchange.ask.Lawful count exchange.told exchange.lines exchange.notes) :
    Hook.Sifted count (drawn place exchanges) (noted place exchanges) (shown place exchanges) := by
  induction exchanges with
  | nil => exact .nil
  | cons exchange rest ih =>
    have others := ih fun exchange member => lawful exchange (List.mem_cons_of_mem _ member)
    cases wants : exchange.ask.wants place with
    | false => simpa [drawn, noted, shown, wants] using others
    | true =>
      have both := ((lawful exchange List.mem_cons_self).sifted wants).append others
      simpa [drawn, noted, shown, wants] using both

/-- What hooks do to a run of asks, one beside the other as it is and with all that is asked and told written down. -/
structure InOrder (hooks : List (Hook ρ)) (plain : List (Exchange (Hooked σ ρ)))
    (noting : List (Exchange (Noting σ ρ))) : Prop where
  /-- For the client, the store behind the hooks and the hooks it makes no difference that all is written down. -/
  same : noting.map (Exchange.forget hooks) = plain
  /-- What the hooks and the store are asked and told for each ask. -/
  lawful : ∀ exchange ∈ noting, exchange.ask.Lawful hooks.length exchange.told exchange.lines exchange.notes
  /-- A store of which nothing is asked, as when a hook keeps a commit away, stays as it is. -/
  untouched : ∀ exchange ∈ noting, exchange.lines = [] →
    exchange.after.store.inner.inner = exchange.before.store.inner.inner
  /-- Whatever is asked in between, a feed shows what the hooks leave of what is drawn from the store for it. -/
  feeds : ∀ place, Hook.Sifted hooks.length (drawn place noting) (noted place noting) (shown place noting)

theorem run_noted {hooks : List (Hook ρ)} (asks : List Ask) {client : Client (Hooked σ ρ)}
    (same : client.store.hooks = hooks) (log : List Served) (notes : List Hook.Note) :
    (run asks (client.noted log notes)).map (Exchange.forget hooks) = run asks client ∧
      ∀ exchange ∈ run asks (client.noted log notes),
        exchange.ask.Lawful hooks.length exchange.told exchange.lines exchange.notes ∧
          (exchange.lines = [] → exchange.after.store.inner.inner = exchange.before.store.inner.inner) := by
  induction asks generalizing client log notes with
  | nil => exact ⟨rfl, fun _ member => absurd member List.not_mem_nil⟩
  | cons ask asks ih =>
    obtain ⟨lines, written, made, lawful, untouched, hooksKept⟩ := make_noted ask client log notes
    obtain ⟨others, kept⟩ := ih (hooksKept.trans same) (log ++ lines) (notes ++ written)
    have before : (client.noted log notes).forget hooks = client := by
      rw [← same]
      rfl
    have after : ((ask.make client).2.noted (log ++ lines) (notes ++ written)).forget hooks = (ask.make client).2 := by
      rw [← hooksKept.trans same]
      rfl
    rw [run, run, made]
    dsimp only
    rw [List.map_cons, others, Exchange.forget]
    dsimp only
    rw [before, after]
    refine ⟨rfl, fun exchange member => ?_⟩
    rcases List.mem_cons.1 member with rfl | later
    · have read : Exchange.lines ⟨ask, client.noted log notes, (ask.make client).1,
          (ask.make client).2.noted (log ++ lines) (notes ++ written)⟩ = lines := List.drop_left
      have heard : Exchange.notes ⟨ask, client.noted log notes, (ask.make client).1,
          (ask.make client).2.noted (log ++ lines) (notes ++ written)⟩ = written := List.drop_left
      rw [read, heard, ← same]
      exact ⟨lawful, untouched⟩
    · exact kept exchange later

end Ask

/-- Hooks are applied in their order, and told of nothing that has not happened. -/
theorem hooks_in_order [CommitStore σ] (hooks : List (Hook ρ)) (inner : σ) (memory : ρ) (asks : List Ask) :
    let client : Client (Hooked σ ρ) := { store := ⟨inner, hooks, memory⟩ }
    Ask.InOrder hooks (Ask.run asks client) (Ask.run asks (client.noted [] [])) := by
  intro client
  obtain ⟨same, each⟩ := Ask.run_noted asks (rfl : client.store.hooks = hooks) [] []
  have lawful := fun exchange member => (each exchange member).1
  exact ⟨same, lawful, fun exchange member => (each exchange member).2, fun place => Ask.sifted_feed place lawful⟩

/-! ### No hooks -/

namespace Hooked

/-- A store that no hook stands before. -/
def bare (memory : ρ) (inner : σ) : Hooked σ ρ := ⟨inner, [], memory⟩

theorem announced_bare {α : Type} (operation : σ → Except Error α × σ) (tell : α → Hook ρ → ρ → ρ) (memory : ρ)
    (inner : σ) :
    announced operation tell (bare memory inner) = ((operation inner).1, bare memory (operation inner).2) := by
  simp only [announced, bare]
  cases operation inner with | mk answer after
  cases answer <;> rfl

theorem selectEach_bare (commits : List Commit) (memory : ρ) :
    Hook.selectEach [] commits memory = (commits, memory) := by
  induction commits with
  | nil => rfl
  | cons commit rest ih => simp [Hook.selectEach, Hook.selectAll, ih]

variable [CommitStore σ]

theorem next_bare (feed : CommitStore.Feed σ) (memory : ρ) (inner : σ) :
    Hooked.next feed (bare memory inner) = ((CommitStore.next feed inner).1, (CommitStore.next feed inner).2.1,
      bare memory (CommitStore.next feed inner).2.2) := by
  rw [Hooked.next_eq, bare]
  obtain ⟨item, rest, after⟩ := CommitStore.next feed inner
  cases item with
  | none => rfl
  | some item => cases item <;> rfl

theorem rest_bare (feed : CommitStore.Feed σ) (memory : ρ) (inner : σ) :
    @CommitStore.rest (Hooked σ ρ) _ feed (bare memory inner) =
      ((CommitStore.rest feed inner).1, bare memory (CommitStore.rest feed inner).2) := by
  fun_induction CommitStore.rest feed inner with
  | case1 feed inner rest after found =>
    have turn : @CommitStore.next (Hooked σ ρ) _ feed (bare memory inner) = _ := next_bare feed memory inner
    rw [CommitStore.rest_eq, turn, found]
  | case2 feed inner item rest after found items left step ih =>
    have turn : @CommitStore.next (Hooked σ ρ) _ feed (bare memory inner) = _ := next_bare feed memory inner
    rw [CommitStore.rest_eq, turn, found]
    dsimp only
    rw [ih, step]

theorem serve_bare (call : Call) (memory : ρ) (inner : σ) :
    call.serve (bare memory inner) = ((call.serve inner).1, bare memory (call.serve inner).2) := by
  cases call with
  | commit attempt => exact congrArg (Call.answering .commit) (announced_bare _ _ memory inner)
  | getFrom key least most =>
    show Call.answering .commits (Hooked.getFrom key least most (bare memory inner)) = _
    rw [Hooked.getFrom, bare, Call.serve]
    cases CommitStore.getFrom key least most inner with | mk answer after
    cases answer with
    | error => rfl
    | ok commits =>
      dsimp only
      rw [selectEach_bare]
      rfl
  | readFeed scope after =>
    have opened : CommitStore.openFeed scope after (bare memory inner) =
      ((CommitStore.openFeed scope after inner).1, bare memory (CommitStore.openFeed scope after inner).2) := rfl
    rw [Call.serve, Call.serve, CommitStore.readFeed, CommitStore.readFeed, opened]
    cases CommitStore.openFeed scope after inner with | mk answer left
    cases answer with
    | error => rfl
    | ok feed =>
      dsimp only
      rw [rest_bare]
      rfl
  | deleteStream | purgeBucket | purge =>
    exact congrArg (Call.answering fun _ => .done) (announced_bare _ _ memory inner)
  | prepare | markDispatched | head | addSnapshot | snapshot | streamsToSnapshot | dispose | isDisposed => rfl

end Hooked

/-- The client of a store that no hook stands before. -/
def Client.bare [CommitStore σ] (memory : ρ) (client : Client σ) : Client (Hooked σ ρ) :=
  ⟨.bare memory client.store, client.feeds⟩

theorem Ask.make_bare [CommitStore σ] (ask : Ask) (memory : ρ) (client : Client σ) :
    ask.make (client.bare memory) = ((ask.make client).1, (ask.make client).2.bare memory) := by
  cases ask with
  | call call =>
    rw [make, make, Client.bare, Hooked.serve_bare]
    rfl
  | openFeed scope after =>
    have opened : CommitStore.openFeed scope after (Hooked.bare memory client.store) =
      ((CommitStore.openFeed scope after client.store).1,
        Hooked.bare memory (CommitStore.openFeed scope after client.store).2) := rfl
    rw [make, make, Client.bare, opened]
    cases CommitStore.openFeed scope after client.store with | mk answer left
    cases answer <;> rfl
  | next place =>
    have feeds : (client.bare memory).feeds[place]? = client.feeds[place]? := rfl
    rw [make, make, feeds]
    cases client.feeds[place]? with
    | none => rfl
    | some feed =>
      have turn : @CommitStore.next (Hooked σ ρ) _ feed (client.bare memory).store = _ :=
        Hooked.next_bare feed memory client.store
      dsimp only
      rw [turn]
      rfl

/-- Where there are no hooks, a client is told what it is told by the store itself. -/
theorem no_hooks_unnoticed [CommitStore σ] (memory : ρ) (client : Client σ) (asks : List Ask) :
    (Ask.run asks (client.bare memory)).map Exchange.told = (Ask.run asks client).map Exchange.told := by
  induction asks generalizing client with
  | nil => rfl
  | cons ask asks ih =>
    rw [Ask.run, Ask.run, Ask.make_bare]
    exact congrArg (List.cons _) (ih _)

end CommitLog
