import CommitLog.Database.File
import CommitLog.Proofs.Call
import CommitLog.Proofs.Database.Calls

/-!
A feed over a table in which some rows cannot be read. A feed ought to show every commit before the
first such row, and then why that row cannot be read (`Row.itemsUpToDamage`). It decodes a page as a
whole, so it loses what comes before that row within its page (`Row.itemsByPage`, `readFeed_rows`), and
what it shows depends on the size of its pages (`feed_up_to_damage`).
-/

namespace CommitLog
namespace Row

/-- The commits of rows before the first that cannot be read. -/
def readable : List Row → List Commit
  | [] => []
  | row :: rest =>
    match row.decode with
    | .ok commit => commit :: readable rest
    | .error _ => []

/-- Why the first row that cannot be read cannot. -/
def damage : List Row → Option Error
  | [] => none
  | row :: rest =>
    match row.decode with
    | .ok _ => damage rest
    | .error error => some error

/-- Every commit before the first row that cannot be read, and then why it cannot. -/
def itemsUpToDamage (rows : List Row) : List FeedItem :=
  (readable rows).map .ok ++ (damage rows).toList.map .error

/-- What is left of that if the rows are decoded `limit` at a time: the commits of whole pages. -/
def itemsByPage (limit : Nat) (rows : List Row) : List FeedItem :=
  match damage rows with
  | none => (readable rows).map .ok
  | some error => ((readable rows).take ((readable rows).length / limit * limit)).map .ok ++ [.error error]

theorem readable_cons {row : Row} {commit : Commit} (decoded : row.decode = .ok commit) (rest : List Row) :
    readable (row :: rest) = commit :: readable rest := by
  rw [readable, decoded]

theorem damage_cons {row : Row} {commit : Commit} (decoded : row.decode = .ok commit) (rest : List Row) :
    damage (row :: rest) = damage rest := by
  rw [damage, decoded]

theorem readable_of_damaged {row : Row} {error : Error} (failed : row.decode = .error error) (rest : List Row) :
    readable (row :: rest) = [] := by
  rw [readable, failed]

theorem damage_of_damaged {row : Row} {error : Error} (failed : row.decode = .error error) (rest : List Row) :
    damage (row :: rest) = some error := by
  rw [damage, failed]

/-- Rows decode as a whole if none of them is damaged. -/
theorem decodeAll_eq (rows : List Row) :
    decodeAll rows = match damage rows with
      | none => .ok (readable rows)
      | some error => .error error := by
  induction rows with
  | nil => rfl
  | cons row rest ih =>
    rw [decodeAll]
    cases decoded : row.decode with
    | error error => rw [damage_of_damaged decoded]; rfl
    | ok commit =>
      rw [damage_cons decoded, readable_cons decoded, ih]
      cases damage rest <;> rfl

theorem damage_take {rows : List Row} {count : Nat} (early : count ≤ (readable rows).length) :
    damage (rows.take count) = none := by
  induction rows generalizing count with
  | nil => rw [List.take_nil, damage]
  | cons row rest ih =>
    cases count with
    | zero => rfl
    | succ count =>
      cases decoded : row.decode with
      | error error => simp [readable_of_damaged decoded] at early
      | ok commit =>
        rw [readable_cons decoded, List.length_cons] at early
        rw [List.take_succ_cons, damage_cons decoded, ih (by omega)]

theorem damage_take_of_late {rows : List Row} {count : Nat} (late : (readable rows).length < count) :
    damage (rows.take count) = damage rows := by
  induction rows generalizing count with
  | nil => rw [List.take_nil]
  | cons row rest ih =>
    obtain ⟨count, rfl⟩ : ∃ before, count = before + 1 := ⟨count - 1, by omega⟩
    cases decoded : row.decode with
    | error error => rw [List.take_succ_cons, damage_of_damaged decoded, damage_of_damaged decoded]
    | ok commit =>
      rw [readable_cons decoded, List.length_cons] at late
      rw [List.take_succ_cons, damage_cons decoded, damage_cons decoded, ih (by omega)]

theorem readable_take (rows : List Row) (count : Nat) : readable (rows.take count) = (readable rows).take count := by
  induction rows generalizing count with
  | nil => rw [List.take_nil, readable, List.take_nil]
  | cons row rest ih =>
    cases count with
    | zero => rfl
    | succ count =>
      cases decoded : row.decode with
      | error error => rw [List.take_succ_cons, readable_of_damaged decoded, readable_of_damaged decoded, List.take_nil]
      | ok commit =>
        rw [List.take_succ_cons, readable_cons decoded, readable_cons decoded, List.take_succ_cons, ih]

/-- Beyond a page that can be read the rest is as it was. -/
theorem beyond_readable {rows : List Row} {count : Nat} (early : count ≤ (readable rows).length) :
    readable (rows.drop count) = (readable rows).drop count ∧ damage (rows.drop count) = damage rows := by
  induction rows generalizing count with
  | nil => simp [readable]
  | cons row rest ih =>
    cases count with
    | zero => exact ⟨rfl, rfl⟩
    | succ count =>
      cases decoded : row.decode with
      | error error => simp [readable_of_damaged decoded] at early
      | ok commit =>
        rw [readable_cons decoded, List.length_cons] at early
        rw [List.drop_succ_cons, readable_cons decoded, damage_cons decoded, List.drop_succ_cons]
        exact ih (by omega)

/-- The first page decides how the items go on. -/
theorem itemsByPage_eq {limit : Nat} (positive : 1 ≤ limit) (rows : List Row) :
    itemsByPage limit rows = match decodeAll (rows.take limit) with
      | .ok page => page.map .ok ++ if page.length < limit then [] else itemsByPage limit (rows.drop limit)
      | .error error => [.error error] := by
  rw [decodeAll_eq, readable_take]
  by_cases early : limit ≤ (readable rows).length
  · -- The page is full and comes before any damage.
    obtain ⟨restReadable, restDamage⟩ := beyond_readable early
    have full : ¬ ((readable rows).take limit).length < limit := by rw [List.length_take]; omega
    rw [damage_take early]
    dsimp only
    rw [if_neg full]
    unfold itemsByPage
    rw [restDamage, restReadable, List.length_drop]
    cases damage rows with
    | none => rw [← List.map_append, List.take_append_drop]
    | some error =>
      have pages : (readable rows).length / limit * limit = limit + ((readable rows).length - limit) / limit * limit := by
        obtain ⟨more, same⟩ := Nat.exists_eq_add_of_le early
        rw [same, Nat.add_sub_cancel_left, Nat.add_div_left _ positive, Nat.succ_mul, Nat.add_comm]
      dsimp only
      rw [pages, List.take_add, List.map_append, List.append_assoc]
  · rw [damage_take_of_late (Nat.lt_of_not_le early)]
    unfold itemsByPage
    cases damaged : damage rows with
    | none =>
      have short : ((readable rows).take limit).length < limit := by rw [List.length_take]; omega
      dsimp only
      rw [if_pos short, List.append_nil, List.take_of_length_le (by omega)]
    | some error =>
      dsimp only
      rw [Nat.div_eq_of_lt (Nat.lt_of_not_le early), Nat.zero_mul, List.take_zero, List.map_nil, List.nil_append]

/-- Nothing is lost exactly if no row is damaged or the damage begins a page. -/
theorem itemsByPage_eq_itemsUpToDamage (limit : Nat) (rows : List Row) :
    itemsByPage limit rows = itemsUpToDamage rows ↔ damage rows = none ∨ limit ∣ (readable rows).length := by
  unfold itemsByPage itemsUpToDamage
  cases damage rows with
  | none => simp
  | some error =>
    have whole : (readable rows).length / limit * limit ≤ (readable rows).length := Nat.div_mul_le_self _ _
    constructor
    · intro same
      have lengths := congrArg List.length same
      simp only [List.length_append, List.length_map, List.length_take, Option.toList_some, List.length_singleton]
        at lengths
      exact .inr (Dvd.intro_left _ (by omega : (readable rows).length / limit * limit = (readable rows).length))
    · rintro (impossible | divides)
      · cases impossible
      · dsimp only
        rw [Nat.div_mul_cancel divides, List.take_length]
        rfl

theorem mem_readable {rows : List Row} {commit : Commit} (member : commit ∈ readable rows) :
    ∃ row ∈ rows, row.decode = .ok commit := by
  induction rows with
  | nil => cases member
  | cons row rest ih =>
    cases decoded : row.decode with
    | error error => rw [readable_of_damaged decoded] at member; cases member
    | ok first =>
      rw [readable_cons decoded] at member
      rcases List.mem_cons.1 member with rfl | later
      · exact ⟨row, by simp, decoded⟩
      · obtain ⟨other, inRest, same⟩ := ih later
        exact ⟨other, by simp [inRest], same⟩

/-- Only what stands in a row is shown. -/
theorem mem_itemsByPage {limit : Nat} {rows : List Row} {commit : Commit} (member : .ok commit ∈ itemsByPage limit rows) :
    ∃ row ∈ rows, row.decode = .ok commit := by
  refine mem_readable ?_
  unfold itemsByPage at member
  split at member
  · obtain ⟨found, inside, same⟩ := List.mem_map.1 member
    cases same
    exact inside
  · rcases List.mem_append.1 member with shown | error
    · obtain ⟨found, inside, same⟩ := List.mem_map.1 shown
      cases same
      exact List.mem_of_mem_take inside
    · simp at error

/-- Commits and nothing else are shown only if no row is damaged. -/
theorem readable_of_itemsByPage {limit : Nat} {rows : List Row} {commits : List Commit}
    (shown : itemsByPage limit rows = commits.map .ok) : damage rows = none ∧ readable rows = commits := by
  unfold itemsByPage at shown
  cases damaged : damage rows with
  | none =>
    rw [damaged] at shown
    exact ⟨rfl, List.map_injective_iff.2 (fun _ _ same => Except.ok.inj same) shown⟩
  | some error =>
    rw [damaged] at shown
    have last : (.error error : FeedItem) ∈ commits.map Except.ok := by
      rw [← shown]
      simp
    obtain ⟨commit, -, different⟩ := List.mem_map.1 last
    cases different

theorem decode_key {row : Row} {commit : Commit} (decoded : row.decode = .ok commit) : commit.key = row.key := by
  unfold decode at decoded
  split at decoded
  · split at decoded
    · cases decoded; rfl
    · cases decoded
    · cases decoded
  · cases decoded

/-- Where no row is damaged, the commits of some streams are those of their rows. -/
theorem readable_filter {rows : List Row} (whole : damage rows = none) (keep : StreamKey → Bool) :
    damage (rows.filter fun row => keep row.key) = none ∧
      readable (rows.filter fun row => keep row.key) = (readable rows).filter fun commit => keep commit.key := by
  induction rows with
  | nil => exact ⟨rfl, rfl⟩
  | cons row rest ih =>
    cases decoded : row.decode with
    | error error => rw [damage_of_damaged decoded] at whole; cases whole
    | ok commit =>
      rw [damage_cons decoded] at whole
      obtain ⟨none, same⟩ := ih whole
      have key := decode_key decoded
      rw [readable_cons decoded, List.filter_cons, List.filter_cons, key]
      split
      · rw [damage_cons decoded, readable_cons decoded, same]
        exact ⟨none, rfl⟩
      · exact ⟨none, same⟩

end Row

/-! ### Feeds -/

/-- The rows of a table have different checkpoints, as its primary key. -/
def Database.Keyed (db : Database) : Prop := (db.rows.map Row.checkpoint).Nodup

namespace Database

variable {db : Database}

theorem later_ascending (keyed : db.Keyed) (scope : Scope) (after : Checkpoint) :
    (db.later scope after).Pairwise fun a b => a.checkpoint.toInt < b.checkpoint.toInt := by
  have sorted : (db.later scope after).Pairwise fun a b => decide (a.checkpoint ≤ b.checkpoint) = true := by
    refine List.pairwise_mergeSort (fun a b c first second => ?_) (fun a b => ?_) _
    · simp only [decide_eq_true_eq, Checkpoint.le_iff] at first second ⊢
      omega
    · simp only [Bool.or_eq_true, decide_eq_true_eq, Checkpoint.le_iff]
      omega
  have distinct : (db.later scope after).Pairwise fun a b => a.checkpoint ≠ b.checkpoint := by
    have single := (List.pairwise_map.1 keyed).sublist
      (List.filter_sublist (p := fun row => after < row.checkpoint && row.inScope scope))
    exact (List.mergeSort_perm _ _).symm.pairwise single (fun different => different.symm)
  refine (sorted.and distinct).imp fun {a b} both => ?_
  have different : a.checkpoint.toInt ≠ b.checkpoint.toInt := fun same =>
    both.2 (congrArg Checkpoint.mk (Int64.toInt_inj.1 same))
  have ordered : a.checkpoint.toInt ≤ b.checkpoint.toInt := of_decide_eq_true both.1
  omega

theorem later_of_ascending (ascending : db.rows.Pairwise fun a b => a.checkpoint ≤ b.checkpoint) (scope : Scope)
    (after : Checkpoint) :
    db.later scope after = db.rows.filter fun row => after < row.checkpoint && row.inScope scope :=
  List.mergeSort_of_pairwise ((ascending.sublist List.filter_sublist).imp decide_eq_true)

/-- A full page leaves the rows after its last one. -/
theorem later_after_page (keyed : db.Keyed) {scope : Scope} {after : Checkpoint} {count : Nat} {last : Row}
    (found : ((db.later scope after).take count).getLast? = some last) :
    db.later scope last.checkpoint = (db.later scope after).drop count := by
  have ascending := later_ascending keyed scope after
  rw [← @beyond_page _ (fun row : Row => row.checkpoint.toInt) _ ascending _ _ found]
  have ahead := (DatabaseStore.mem_later.1 (List.mem_of_mem_take (List.mem_of_getLast? found))).2.1
  have bound : ∀ row ∈ db.later scope last.checkpoint, row ∈ (db.later scope after).filter fun row =>
      last.checkpoint.toInt < row.checkpoint.toInt := by
    intro row member
    obtain ⟨stored, later, inScope⟩ := DatabaseStore.mem_later.1 member
    exact List.mem_filter.2 ⟨DatabaseStore.mem_later.2 ⟨stored, Checkpoint.lt_trans ahead later, inScope⟩,
      decide_eq_true later⟩
  have back : ∀ row ∈ (db.later scope after).filter fun row => last.checkpoint.toInt < row.checkpoint.toInt,
      row ∈ db.later scope last.checkpoint := by
    intro row member
    obtain ⟨inLater, later⟩ := List.mem_filter.1 member
    obtain ⟨stored, -, inScope⟩ := DatabaseStore.mem_later.1 inLater
    exact DatabaseStore.mem_later.2 ⟨stored, of_decide_eq_true later, inScope⟩
  -- Two ascending lists of the same rows are one list.
  have rest := later_ascending keyed scope last.checkpoint
  have kept := ascending.sublist
    (List.filter_sublist (p := fun row : Row => last.checkpoint.toInt < row.checkpoint.toInt))
  refine List.Perm.eq_of_pairwise (fun a b _ _ less more => ?_) rest kept ?_
  · omega
  · exact (List.perm_ext_iff_of_nodup (rest.imp fun less same => by rw [same] at less; omega)
      (kept.imp fun less same => by rw [same] at less; omega)).2 fun row => ⟨bound row, back row⟩

end Database

namespace DatabaseStore

variable {store : DatabaseStore}

/-- A commit has the checkpoint of its row. -/
theorem decodeAll_checkpoints {rows : List Row} {commits : List Commit} (read : Row.decodeAll rows = .ok commits) :
    commits.map (fun commit => commit.checkpoint) = rows.map Row.checkpoint := by
  induction rows generalizing commits with
  | nil => cases read; rfl
  | cons row rest ih =>
    rw [Row.decodeAll] at read
    cases first : row.decode with
    | error error => rw [first] at read; cases read
    | ok commit =>
      cases others : Row.decodeAll rest with
      | error error => rw [first, others] at read; cases read
      | ok tail =>
        rw [first, others] at read
        cases read
        rw [List.map_cons, List.map_cons, ih others, decode_checkpoint first]

/-- What a feed answers from here on. -/
def itemsLeft (store : DatabaseStore) (cursor : Cursor) : List FeedItem :=
  cursor.itemsLeft (Row.itemsByPage store.handle.pageLimit (store.db.later cursor.scope cursor.after))

/-- The last commit of a page that can be read is that of its last row. -/
theorem decodeAll_getLast {rows : List Row} {commits : List Commit} (read : Row.decodeAll rows = .ok commits)
    {last : Commit} (found : commits.getLast? = some last) :
    ∃ row, rows.getLast? = some row ∧ row.checkpoint = last.checkpoint := by
  have last_row := congrArg List.getLast? (decodeAll_checkpoints read)
  rw [List.getLast?_map, List.getLast?_map, found] at last_row
  exact Option.map_eq_some_iff.1 last_row.symm

/-- A feed hands out the first item of its page, or of a new one, or ends with why the new one cannot be
read. -/
theorem next_itemsLeft (keyed : store.db.Keyed) (isOpen : store.handle.disposed = false) (cursor : Cursor) :
    (∃ ready, next cursor store = ready.pop ∧ store.itemsLeft ready = store.itemsLeft cursor ∧
      (ready.page = [] → ready.exhausted = true)) ∨
    ∃ error after, next cursor store = (some (.error error), after) ∧ store.itemsLeft cursor = [.error error] ∧
      store.itemsLeft after = [] := by
  by_cases needed : cursor.page.isEmpty ∧ cursor.exhausted = false
  · have limit : 1 ≤ store.handle.pageLimit := Nat.le_max_left 1 _
    have items := Row.itemsByPage_eq limit (store.db.later cursor.scope cursor.after)
    have empty : cursor.page = [] := List.isEmpty_iff.1 needed.1
    have left : store.itemsLeft cursor =
        Row.itemsByPage store.handle.pageLimit (store.db.later cursor.scope cursor.after) := by
      simp [itemsLeft, Cursor.itemsLeft, empty, needed.2]
    have read : store.page cursor =
        Row.decodeAll ((store.db.later cursor.scope cursor.after).take store.handle.pageLimit) := by
      rw [page, query_eq isOpen]
    rw [next, if_pos needed, left, items, read]
    cases taken : Row.decodeAll ((store.db.later cursor.scope cursor.after).take store.handle.pageLimit) with
    | error error =>
      refine .inr ⟨error, _, rfl, rfl, ?_⟩
      simp [itemsLeft, Cursor.itemsLeft, empty]
    | ok page =>
      refine .inl ⟨_, rfl, ?_, fun empty => ?_⟩
      · by_cases short : page.length < store.handle.pageLimit
        · simp [itemsLeft, Cursor.itemsLeft, short]
        · obtain ⟨last, found⟩ : ∃ last, page.getLast? = some last := by
            cases found : page.getLast? with
            | none => simp [List.getLast?_eq_none_iff.1 found] at short; omega
            | some last => exact ⟨last, rfl⟩
          obtain ⟨row, isLast, same⟩ := decodeAll_getLast taken found
          have beyond := Database.later_after_page keyed isLast
          rw [same] at beyond
          simp [itemsLeft, Cursor.itemsLeft, short, found, beyond]
      · have empty : page = [] := empty
        exact decide_eq_true (by rw [empty, List.length_nil]; omega)
  · refine .inl ⟨cursor, if_neg needed, rfl, fun empty => ?_⟩
    simpa [empty] using needed

/-- A feed that is read to its end shows the rows after its checkpoint page by page. -/
theorem readFeed_rows (keyed : store.db.Keyed) (isOpen : store.handle.disposed = false) (scope : Scope)
    (after : Checkpoint) :
    CommitStore.readFeed scope after store =
      (.ok (Row.itemsByPage store.handle.pageLimit (store.db.later scope after)), store) := by
  have opened : CommitStore.openFeed scope after store = (.ok (Cursor.start scope after), store) := by
    show (store.openFeed scope after, store) = _
    rw [openFeed, ensureOpen_of_open isOpen]
    rfl
  have read := @CommitStore.rest_of_next DatabaseStore _ store store.itemsLeft (fun cursor nothing => ?_)
    (fun cursor item items remains => ?_) (Cursor.start scope after)
  · rw [CommitStore.readFeed, opened]
    dsimp only
    rw [read]
    simp [itemsLeft, Cursor.itemsLeft, Cursor.start]
  · obtain ⟨ready, popped, same, full⟩ | ⟨error, _, _, shown, _⟩ := next_itemsLeft keyed isOpen cursor
    · exact ⟨ready, by simp only [CommitStore.next, popped, (Cursor.pop_itemsLeft full _).1 (same.trans nothing)]⟩
    · cases shown.symm.trans nothing
  · obtain ⟨ready, popped, same, full⟩ | ⟨error, last, failed, shown, ended⟩ := next_itemsLeft keyed isOpen cursor
    · obtain ⟨page, found, fewer⟩ := (Cursor.pop_itemsLeft full _).2 item items (same.trans remains)
      exact ⟨{ ready with page }, by simp only [CommitStore.next, popped, found], fewer⟩
    · cases shown.symm.trans remains
      exact ⟨last, by simp only [CommitStore.next, failed], ended⟩

end DatabaseStore

/-- A feed shows the rows in its scope that lie after its checkpoint in ascending order, and of the commits
before the first row that cannot be read those of whole pages: it shows all of them exactly if no row is
damaged or the first damaged one begins a page. -/
theorem feed_up_to_damage {store : DatabaseStore} (keyed : store.db.Keyed) (isOpen : store.handle.disposed = false)
    (scope : Scope) (after : Checkpoint) :
    let rows := store.db.later scope after
    rows.Pairwise (fun a b => a.checkpoint < b.checkpoint) ∧
      (∀ row, row ∈ rows ↔ row ∈ store.db.rows ∧ after < row.checkpoint ∧ row.inScope scope = true) ∧
      CommitStore.readFeed scope after store = (.ok (Row.itemsByPage store.handle.pageLimit rows), store) ∧
      (Row.itemsByPage store.handle.pageLimit rows = Row.itemsUpToDamage rows ↔
        Row.damage rows = none ∨ store.handle.pageLimit ∣ (Row.readable rows).length) :=
  ⟨Database.later_ascending keyed scope after, fun _ => DatabaseStore.mem_later,
    DatabaseStore.readFeed_rows keyed isOpen scope after, Row.itemsByPage_eq_itemsUpToDamage _ _⟩

/-- Five commits, of which the fourth is overwritten behind the back of the store. -/
theorem feed_up_to_damage_within_page :
    let attempt (name : String) : Attempt := ⟨⟨"orders"⟩, ⟨name⟩, 1, ⟨name⟩, 1, 0, [], [{ body := [1] }]⟩
    let store := CommitStore.commitAll (["3", "4", "5", "6", "7"].map attempt) (DatabaseStore.fresh { pageSize := 2 })
    let damaged := { store with db := (store.db.tamper ⟨4⟩ .payload [0x5B, 0x5D] false).2 }
    let rows := damaged.db.later .all ⟨0⟩
    damaged.db.Keyed ∧ damaged.handle.disposed = false ∧
      (Row.readable rows).map (fun commit => commit.checkpoint.toInt) = [1, 2, 3] ∧
      CommitStore.readFeed .all ⟨0⟩ damaged = (.ok (Row.itemsByPage damaged.handle.pageLimit rows), damaged) ∧
      Row.itemsByPage damaged.handle.pageLimit rows ≠ Row.itemsUpToDamage rows := by
  intro attempt store damaged rows
  have keyed : damaged.db.Keyed := by unfold Database.Keyed; decide +kernel
  have isOpen : damaged.handle.disposed = false := by decide +kernel
  have inOrder : rows = damaged.db.rows.filter _ := Database.later_of_ascending (by decide +kernel) .all ⟨0⟩
  have readable : (Row.readable rows).map (fun commit => commit.checkpoint.toInt) = [1, 2, 3] := by
    rw [inOrder]
    decide +kernel
  have damage : Row.damage rows = some (.corrupted ⟨4⟩) := by
    rw [inOrder]
    decide +kernel
  obtain ⟨-, -, read, whole⟩ := feed_up_to_damage keyed isOpen .all ⟨0⟩
  refine ⟨keyed, isOpen, readable, read, fun same => ?_⟩
  have few : (Row.readable rows).length = 3 := by simpa using congrArg List.length readable
  have odd : ¬ damaged.handle.pageLimit ∣ 3 := by decide +kernel
  rcases whole.1 same with none | divides
  · cases damage.symm.trans none
  · rw [few] at divides
    exact odd divides

/-- The first of two commits can be read, but the feed shows only why the second cannot. -/
theorem feed_hides_commit_before_damage :
    let attempt (name : String) (n : UInt64) : Attempt :=
      ⟨⟨"default"⟩, ⟨"s"⟩, n, ⟨name⟩, n, 0, [], [{ body := [1] }]⟩
    let store := CommitStore.commitAll [attempt "a" 1, attempt "b" 2] (DatabaseStore.fresh {})
    let damaged := { store with db := (store.db.tamper ⟨2⟩ .payload [0x5B, 0x5D] false).2 }
    (CommitStore.readFeed .all ⟨0⟩ damaged).1 = .ok [.error (.corrupted ⟨2⟩)] ∧
      (Row.itemsUpToDamage (damaged.db.later .all ⟨0⟩)).map (Except.map fun commit => commit.id) =
        [.ok ⟨"a"⟩, .error (.corrupted ⟨2⟩)] := by
  intro attempt store damaged
  have keyed : damaged.db.Keyed := by unfold Database.Keyed; decide +kernel
  have inOrder : damaged.db.later .all ⟨0⟩ = damaged.db.rows.filter _ :=
    Database.later_of_ascending (by decide +kernel) .all ⟨0⟩
  have damage : Row.damage (damaged.db.later .all ⟨0⟩) = some (.corrupted ⟨2⟩) := by
    rw [inOrder]
    decide +kernel
  have readable : (Row.readable (damaged.db.later .all ⟨0⟩)).map (fun commit => commit.id) = [⟨"a"⟩] := by
    rw [inOrder]
    decide +kernel
  have few : (Row.readable (damaged.db.later .all ⟨0⟩)).length = 1 := by simpa using congrArg List.length readable
  constructor
  · rw [DatabaseStore.readFeed_rows keyed (by decide +kernel), Row.itemsByPage, damage]
    dsimp only
    rw [few, show 1 / damaged.handle.pageLimit * damaged.handle.pageLimit = 0 by decide +kernel]
    rfl
  · have shown := congrArg (List.map fun id => (.ok id : Except Error CommitId)) readable
    rw [List.map_map] at shown
    rw [Row.itemsUpToDamage, damage, List.map_append, List.map_map]
    exact congrArg (· ++ _) shown

end CommitLog
