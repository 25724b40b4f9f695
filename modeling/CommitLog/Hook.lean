import CommitLog.Commit

/-!
Hooks: rules of the host that watch and shape the traffic between callers and a store. A hook
works on a memory that all the hooks of a store share. Each part does nothing unless it is given.
-/

namespace CommitLog

structure Hook (ρ : Type) where
  /-- What becomes of a commit that is read; none hides it. -/
  select : Commit → ρ → Option Commit × ρ := fun commit memory => (some commit, memory)
  /-- Asked before an attempt reaches the store; an error keeps it away. -/
  preCommit : Attempt → ρ → Except Error Unit × ρ := fun _ memory => (.ok (), memory)
  /-- Told of a commit that the store has taken. -/
  postCommit : Commit → ρ → ρ := fun _ memory => memory
  /-- Told that a bucket was removed, or the whole content. -/
  onPurge : Option BucketId → ρ → ρ := fun _ memory => memory
  onDeleteStream : StreamKey → ρ → ρ := fun _ memory => memory

namespace Hook

variable {ρ : Type}

/-! ## All hooks of a store, in their order -/

/-- A commit as the hooks leave it. The first that hides it is the last to see it. -/
def selectAll : List (Hook ρ) → Commit → ρ → Option Commit × ρ
  | [], commit, memory => (some commit, memory)
  | hook :: rest, commit, memory =>
    match hook.select commit memory with
    | (none, memory) => (none, memory)
    | (some commit, memory) => selectAll rest commit memory

/-- The commits that are left of a list. -/
def selectEach (hooks : List (Hook ρ)) : List Commit → ρ → List Commit × ρ
  | [], memory => ([], memory)
  | commit :: rest, memory =>
    let (kept, memory) := selectAll hooks commit memory
    let (others, memory) := selectEach hooks rest memory
    (kept.toList ++ others, memory)

/-- The first error ends the round. -/
def preCommitAll : List (Hook ρ) → Attempt → ρ → Except Error Unit × ρ
  | [], _, memory => (.ok (), memory)
  | hook :: rest, attempt, memory =>
    match hook.preCommit attempt memory with
    | (.ok (), memory) => preCommitAll rest attempt memory
    | (.error error, memory) => (.error error, memory)

/-- Tells every hook. -/
def tellAll (tell : Hook ρ → ρ → ρ) (hooks : List (Hook ρ)) (memory : ρ) : ρ :=
  hooks.foldl (fun memory hook => tell hook memory) memory

/-! ## Some hooks -/

/-- Hides the commits of the streams of a name, whatever the bucket. -/
def hideStream (stream : StreamId) : Hook ρ where
  select commit memory := (if commit.stream = stream then none else some commit, memory)

/-- Hides the commits at odd checkpoints. -/
def hideOdd : Hook ρ where
  select commit memory := (if commit.checkpoint.toInt % 2 = 0 then some commit else none, memory)

/-- Sets a header on every commit that is read. -/
def tag (key : String) (value : Json) : Hook ρ where
  select commit memory :=
    (some { commit with headers := commit.headers.insert key value }, memory)

def dropLastEvent : Hook ρ where
  select commit memory := (some { commit with events := commit.events.dropLast }, memory)

/-- Keeps attempts with a header away. -/
def veto (key reason : String) : Hook ρ where
  preCommit attempt memory :=
    (if (attempt.headers.find? key).isSome then .error (.invalidAttempt (.refused reason))
      else .ok (), memory)

/-- What a hook was asked or told. -/
inductive Call where
  | select (checkpoint : Checkpoint)
  | preCommit (id : CommitId)
  | postCommit (checkpoint : Checkpoint)
  | onPurge (bucket : Option BucketId)
  | onDeleteStream (key : StreamKey)

/-- A call and the name of the hook it went to. -/
structure Record where
  name : String
  call : Call

/-- Writes down every call. -/
def record (name : String) : Hook (List Record) where
  select commit records := (some commit, records ++ [⟨name, .select commit.checkpoint⟩])
  preCommit attempt records := (.ok (), records ++ [⟨name, .preCommit attempt.id⟩])
  postCommit commit records := records ++ [⟨name, .postCommit commit.checkpoint⟩]
  onPurge bucket records := records ++ [⟨name, .onPurge bucket⟩]
  onDeleteStream key records := records ++ [⟨name, .onDeleteStream key⟩]

end Hook
end CommitLog
