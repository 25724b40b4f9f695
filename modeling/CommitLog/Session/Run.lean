import CommitLog.Engine
import CommitLog.Session.Step

/-!
Runs the steps of a session one after another. Stores on the session's file hold only what is their
own; the file is lent to them for each step.
-/

namespace CommitLog

namespace Session

/-- A store as steps work with it. -/
abbrev SlotStore := Hooked (Drill.Faulty Engine) (List Hook.Record)

/-- Sets the value of a key, or removes it. -/
def place {κ α : Type} [DecidableEq κ] (key : κ) (value : Option α) (entries : List (κ × α)) :
    List (κ × α) :=
  let others := entries.filter fun entry => entry.1 ≠ key
  match value with
  | some value => (key, value) :: others
  | none => others

def at? {κ α : Type} [DecidableEq κ] (key : κ) (entries : List (κ × α)) : Option α :=
  (entries.find? fun entry => entry.1 = key).map Prod.snd

/-- What a slot keeps between two steps. -/
inductive Mount where
  | own (engine : Engine)
  | shared (handle : Handle)

structure Slot where
  mount : Mount
  hooks : List (Hook (List Hook.Record))
  down : Bool := false

end Session

structure Session where
  slots : List (Nat × Session.Slot) := []
  file : Database.File := {}
  /-- Streams with the slots of their stores. -/
  streams : List (String × (Nat × EventStream)) := []
  feeds : List (String × (Nat × CommitStore.Feed Session.SlotStore)) := []

namespace Session

/-! ## Lending -/

/-- The store of a slot, with the file if it is on it. -/
def lend (slot : Slot) (session : Session) : SlotStore where
  inner := {
    inner := match slot.mount with
      | .own engine => engine
      | .shared handle => .database ⟨session.file.db, handle⟩
    down := slot.down }
  hooks := slot.hooks
  memory := []

/-- Takes back what was lent. -/
def takeBack (number : Nat) (slot : Slot) (store : SlotStore) (session : Session) : Session :=
  let keep (mount : Mount) (session : Session) : Session :=
    { session with
      slots := place number (some { slot with mount, down := store.inner.down }) session.slots }
  match slot.mount, store.inner.inner with
  | .shared _, .database inner =>
    keep (.shared inner.handle) { session with file := { session.file with db := inner.db } }
  | _, engine => keep (.own engine) session

/-- Works with the store of a slot. -/
def withStore {α : Type} (number : Nat) (work : SlotStore → α × SlotStore) (session : Session) :
    Option (α × List Hook.Record × Session) :=
  (at? number session.slots).map fun slot =>
    let (answer, store) := work (session.lend slot)
    (answer, store.memory, session.takeBack number slot store)

/-! ## Stores -/

/-- The attempts of a fill. -/
def fillAttempt (key : StreamKey) (number : Nat) : Attempt where
  bucket := key.bucket
  stream := key.stream
  revision := UInt64.ofNat number
  id := ⟨s!"{key.stream}#{number}"⟩
  sequence := UInt64.ofNat number
  stamp := 0
  headers := []
  events := [⟨[1], []⟩]

/-- Commits one after another until one fails. -/
def fill (key : StreamKey) (first : Nat) :
    Nat → Checkpoint → SlotStore → Except Error Checkpoint × SlotStore
  | 0, last, store => (.ok last, store)
  | count + 1, _, store =>
    match CommitStore.commit (fillAttempt key first) store with
    | (.error error, store) => (.error error, store)
    | (.ok commit, store) => fill key (first + 1) count commit.checkpoint store

/-- The result of an operation as an answer. -/
def answer {α : Type} (wrap : α → Answer) (result : Except Error α × SlotStore) :
    Except Error Answer × SlotStore :=
  (result.1.map wrap, result.2)

def serve (request : Request) (store : SlotStore) : Except Error Answer × SlotStore :=
  match request with
  | .prepare => answer (fun _ => .done) (CommitStore.prepare store)
  | .commit attempt => answer .commit (CommitStore.commit attempt store)
  | .fill key first count => answer .checkpoint (fill key first count Checkpoint.start store)
  | .getFrom key least most => answer .commits (CommitStore.getFrom key least most store)
  | .feed scope after =>
    answer (fun items => .items items false) (CommitStore.readFeed scope after store)
  | .markDispatched checkpoint =>
    answer (fun _ => .done) (CommitStore.markDispatched checkpoint store)
  | .head key => answer .head (CommitStore.head key store)
  | .addSnapshot snapshot => answer .flag (CommitStore.addSnapshot snapshot store)
  | .snapshot key most => answer .snapshot (CommitStore.snapshot key most store)
  | .streamsToSnapshot bucket threshold =>
    answer .heads (CommitStore.streamsToSnapshot bucket threshold store)
  | .deleteStream key => answer (fun _ => .done) (CommitStore.deleteStream key store)
  | .purgeBucket bucket => answer (fun _ => .done) (CommitStore.purgeBucket bucket store)
  | .purge => answer (fun _ => .done) (CommitStore.purge store)
  | .dispose => answer (fun _ => .done) (CommitStore.dispose store)
  | .isDisposed => (.ok (.flag (CommitStore.isDisposed store)), store)
  | .setOutage down => (.ok .done, { store with inner := { store.inner with down } })
  | .drill drill =>
    let (report, store) := drill.run store
    (.ok (.report report), store)

/-- Makes a store for a slot. -/
def mount (engine : EngineChoice) (session : Session) : Except Error Mount × Session :=
  match engine with
  | .memory config => (.ok (.own (.memory (MemoryStore.create config))), session)
  | .privateDatabase config =>
    match DatabaseStore.open? config {} with
    | (.ok handle, db) => (.ok (.own (.database ⟨db, handle⟩)), session)
    | (.error error, _) => (.error error, session)
  | .sharedFile config =>
    let (handle, file) := session.file.open? config
    (handle.map .shared, { session with file })
  | .missingPlace => (.error (.storageUnavailable .cannotOpen), session)

/-! ## Streams -/

def change (change : Change) (stream : EventStream) (store : SlotStore) :
    (Except Error Answer × EventStream) × SlotStore :=
  match change with
  | .add event => ((.ok .done, stream.add event), store)
  | .setHeader key value => ((.ok .done, stream.addHeader key value), store)
  | .removeHeader key =>
    let (value, stream) := stream.removeHeader key
    ((.ok (.header value), stream), store)
  | .clear => ((.ok .done, stream.clearChanges), store)
  | .commit id now =>
    let (result, stream, store) := stream.commitChanges id now store
    ((result.map .maybeCommit, stream), store)
  | .look => ((.ok (.stream stream), stream), store)

def openWith (opening : Opening) (store : SlotStore) : Except Error EventStream × SlotStore :=
  match opening with
  | .fresh key => (.ok (EventStream.create key), store)
  | .window key least most => EventStream.openWindow key least most store
  | .snapshot snapshot most => EventStream.resume snapshot most store

def stream? (name : String) (session : Session) : Option EventStream :=
  (at? name session.streams).map Prod.snd

/-- The stream of the steps that do not name one. -/
def unnamed : String := "x"

/-- What a result shows of the stream of its step. Only steps that name their stream show it. -/
def shown (name : Option String) (stream : Option EventStream) : Option EventStream :=
  name.bind fun _ => stream

/-! ## The file -/

/-- What others do to the file. -/
def intrude (intrusion : Intrusion) (file : Database.File) : Except Error Answer × Database.File :=
  match intrusion with
  | .tamper checkpoint column content reseal =>
    file.meddle fun db =>
      let (rows, db) := db.tamper checkpoint column content reseal
      .ok (.count rows, db)
  | .setVersion version => file.meddle fun db => .ok (.done, { db with version })
  | .getVersion => file.meddle fun db => .ok (.version db.version, db)
  | .lock =>
    let (result, file) := file.lock
    (result.map fun _ => .done, file)
  | .unlock =>
    let (result, file) := file.unlock
    (result.map fun _ => .done, file)
  | .requireUniqueStamps =>
    file.meddle fun db => db.requireUniqueStamps.map fun db => (.done, db)

/-! ## Steps -/

def badStep (session : Session) : Result × Session := ({ outcome := .error .badStep }, session)

/-- The outcome of a step. -/
def outcome (result : Except Error Answer) : Except Fault Answer := result.mapError .error

def step (step : Step) (session : Session) : Result × Session :=
  match step with
  | .openStore number engine hooks =>
    if (at? number session.slots).isSome then session.badStep
    else
      match session.mount engine with
      | (.error error, session) => ({ outcome := .error (.error error) }, session)
      | (.ok mount, session) =>
        ({ outcome := .ok .done },
          { session with slots := place number (some { mount, hooks }) session.slots })
  | .request number request =>
    match session.withStore number (serve request) with
    | none => session.badStep
    | some (result, records, session) => ({ outcome := outcome result, records }, session)
  | .openFeed number name scope after =>
    match session.withStore number (CommitStore.openFeed scope after) with
    | none => session.badStep
    | some (.error error, records, session) =>
      ({ outcome := .error (.error error), records }, session)
    | some (.ok feed, records, session) =>
      ({ outcome := .ok .done, records },
        { session with feeds := place name (some (number, feed)) session.feeds })
  | .takeItems name count =>
    match at? name session.feeds with
    | none => session.badStep
    | some (number, feed) =>
      let work (store : SlotStore) :=
        let (items, feed, store) := CommitStore.take feed store count
        ((items, feed), store)
      match session.withStore number work with
      | none => session.badStep
      | some (((items, ended), feed), records, session) =>
        ({ outcome := .ok (.items items ended), records },
          { session with feeds := place name (some (number, feed)) session.feeds })
  | .openStream number given opening =>
    let name := given.getD unnamed
    match session.withStore number (openWith opening) with
    | none =>
      ({ outcome := .error .badStep, stream := shown given (session.stream? name) }, session)
    | some (.error (.overflow overflow), records, session) =>
      ({ outcome := .error (.error (.overflow overflow))
         stream := shown given (session.stream? name), records }, session)
    | some (.error error, records, session) =>
      ({ outcome := .error (.error error), records },
        { session with streams := place name none session.streams })
    | some (.ok stream, records, session) =>
      ({ outcome := .ok .done, stream := shown given (some stream), records },
        { session with streams := place name (some (number, stream)) session.streams })
  | .changeStream given request =>
    let name := given.getD unnamed
    match at? name session.streams with
    | none => session.badStep
    | some (number, stream) =>
      match session.withStore number (change request stream) with
      | none => session.badStep
      | some ((result, stream), records, session) =>
        ({ outcome := outcome result, stream := shown given (some stream), records },
          { session with streams := place name (some (number, stream)) session.streams })
  | .intrude intrusion =>
    let (result, file) := intrude intrusion session.file
    ({ outcome := outcome result }, { session with file })
  | .overwriteFile =>
    ({ outcome := .ok .done }, { session with file := { session.file with overwritten := true } })

/-- Runs the steps from the start of a session. -/
def run (steps : List Step) (session : Session) : List Result :=
  match steps with
  | [] => []
  | first :: rest =>
    let (result, session) := session.step first
    result :: session.run rest

end Session
end CommitLog
