import Codex.Foundation.Run
import Codex.Foundation.Paging
import Codex.Foundation.Text
import Mathlib.Algebra.Ring.Int.Defs

/-!
# Paging the thread list

Every thread is visited unless the anchor does not split the rows at a page end.
-/

namespace Codex.State

inductive SortKey
  | createdAt
  | updatedAt
  | recencyAt
  | sectionPosition
  deriving DecidableEq

inductive SortDirection
  | asc
  | desc
  deriving DecidableEq

structure ThreadRow (I : Type) where
  id : I
  createdAtMs : Int
  updatedAtMs : Int
  recencyAtMs : Int
  source : Text
  modelProvider : Text
  cwd : Text
  title : Text
  name : Option Text
  preview : Text
  archived : Bool
  threadSectionId : Option Text
  sectionPosition : Option Int
  projectId : Option Text
  deriving DecidableEq

/-- A time, by its nanoseconds since the epoch. -/
abbrev DateTime := Int

/-- The milliseconds that have a time. -/
structure Calendar where
  minMillis : Int
  maxMillis : Int

def chronoCalendar : Calendar := ⟨-8334601228800000, 8210266876799999⟩

structure Anchor (I : Type) where
  ts : DateTime
  id : Option I
  deriving DecidableEq

structure ThreadFilterOptions (I : Type) where
  archivedOnly : Bool
  allowedSources : List Text
  modelProviders : Option (List Text)
  cwdFilters : Option (List Text)
  section_ : Option (Option Text)
  projectId : Option (Option Text)
  anchor : Option (Anchor I)
  sortKey : SortKey
  sortDirection : SortDirection
  searchTerm : Option Text

variable {I : Type}

def Calendar.fromTimestampMillis (cal : Calendar) (millis : Int) : Option DateTime :=
  if cal.minMillis ≤ millis ∧ millis ≤ cal.maxMillis then some (millis * 1000000) else none

/-- The nanoseconds below a millisecond are dropped. -/
def datetimeToEpochMillis (dateTime : DateTime) : Int := dateTime / 1000000

def saturate (value : Int) : Int := max (-2 ^ 63) (min value (2 ^ 63 - 1))

def minEpochMillis : Int := 1577836800000

def epochMillisToDatetime (cal : Calendar) (value : Int) : Except Text DateTime :=
  let millis := if value < minEpochMillis then saturate (value * 1000) else value
  match cal.fromTimestampMillis millis with
  | some dateTime => .ok dateTime
  | none => .error ("invalid unix timestamp millis: " ++ (toString value).toList)

structure ThreadMetadata (I : Type) where
  row : ThreadRow I
  createdAt : DateTime
  updatedAt : DateTime
  recencyAt : DateTime

def ThreadMetadata.tryFrom (cal : Calendar) (row : ThreadRow I) :
    Except Text (ThreadMetadata I) := do
  let createdAt ← epochMillisToDatetime cal row.createdAtMs
  let updatedAt ← epochMillisToDatetime cal row.updatedAtMs
  let recencyAt ← epochMillisToDatetime cal row.recencyAtMs
  pure { row, createdAt, updatedAt, recencyAt }

def SortKey.hasThreadIdTiebreaker : SortKey → Bool
  | recencyAt | sectionPosition => true
  | createdAt | updatedAt => false

def SortKey.column : SortKey → ThreadRow I → Option Int
  | createdAt, row => some row.createdAtMs
  | updatedAt, row => some row.updatedAtMs
  | recencyAt, row => some row.recencyAtMs
  | sectionPosition, row => row.sectionPosition

def matchesOptional (wanted : Option (Option Text)) (value : Option Text) : Bool :=
  match wanted with
  | some (some wanted) => value = some wanted
  | some none => value.isNone
  | none => true

/-- `instr(text, term) > 0` -/
def containsTerm (term text : Text) : Bool := text.tails.any (term.isPrefixOf ·)

def ThreadFilterOptions.selects (opts : ThreadFilterOptions I) (row : ThreadRow I) : Bool :=
  row.archived = opts.archivedOnly &&
    ((opts.section_.bind id).isSome || row.preview ≠ []) &&
    matchesOptional opts.section_ row.threadSectionId &&
    matchesOptional opts.projectId row.projectId &&
    (opts.allowedSources.isEmpty || opts.allowedSources.contains row.source) &&
    opts.modelProviders.all (fun providers =>
      providers.isEmpty || providers.contains row.modelProvider) &&
    opts.cwdFilters.all (fun cwds => cwds.contains row.cwd) &&
    opts.searchTerm.all fun term =>
      containsTerm term (row.name.getD []) || containsTerm term row.title ||
        containsTerm term row.preview

section

variable [LinearOrder I]

def SortDirection.behind {A : Type} [LT A] [DecidableLT A] (dir : SortDirection)
    (value anchor : A) : Bool :=
  match dir with
  | .asc => anchor < value
  | .desc => value < anchor

/-- The anchor clause; a comparison with `NULL` does not hold. -/
def isBehind (key : SortKey) (dir : SortDirection) (anchor : Anchor I) (row : ThreadRow I) : Bool :=
  (key.column row).any fun value =>
    dir.behind value (datetimeToEpochMillis anchor.ts) ||
      key.hasThreadIdTiebreaker && anchor.id.any fun id =>
        value = datetimeToEpochMillis anchor.ts && dir.behind row.id id

/-- The order of two values of the sort column, `NULL` first. -/
def columnLe : Option Int → Option Int → Prop
  | none, _ => True
  | some _, none => False
  | some left, some right => left ≤ right

instance : (left right : Option Int) → Decidable (columnLe left right)
  | none, _ => isTrue trivial
  | some _, none => isFalse id
  | some left, some right => inferInstanceAs (Decidable (left ≤ right))

def KeyOrdered (key : SortKey) (dir : SortDirection) (row other : ThreadRow I) : Prop :=
  match dir with
  | .asc => columnLe (key.column row) (key.column other)
  | .desc => columnLe (key.column other) (key.column row)

instance (key : SortKey) (row other : ThreadRow I) :
    (dir : SortDirection) → Decidable (KeyOrdered key dir row other)
  | .asc => inferInstanceAs (Decidable (columnLe (key.column row) (key.column other)))
  | .desc => inferInstanceAs (Decidable (columnLe (key.column other) (key.column row)))

def SortDirection.Ordered {A : Type} [LE A] (dir : SortDirection) (value other : A) : Prop :=
  match dir with
  | .asc => value ≤ other
  | .desc => other ≤ value

instance {A : Type} [LE A] [DecidableLE A] (value other : A) :
    (dir : SortDirection) → Decidable (dir.Ordered value other)
  | .asc => inferInstanceAs (Decidable (value ≤ other))
  | .desc => inferInstanceAs (Decidable (other ≤ value))

def Precedes (key : SortKey) (dir : SortDirection) (row other : ThreadRow I) : Prop :=
  KeyOrdered key dir row other ∧ (key.hasThreadIdTiebreaker = true → KeyOrdered key dir other row →
      dir.Ordered row.id other.id)

instance (key : SortKey) (dir : SortDirection) (row other : ThreadRow I) :
    Decidable (Precedes key dir row other) :=
  inferInstanceAs (Decidable (_ ∧ _))

def selectThreads (table : List (ThreadRow I)) (opts : ThreadFilterOptions I) :
    List (ThreadRow I) :=
  (table.filter fun row => opts.selects row &&
    opts.anchor.all (isBehind opts.sortKey opts.sortDirection · row)).insertionSort
      (Precedes opts.sortKey opts.sortDirection)

def anchorFromItem (cal : Calendar) (item : ThreadMetadata I) (key : SortKey) :
    Option (Anchor I) := do
  let ts ← match key with
    | .createdAt => some item.createdAt
    | .updatedAt => some item.updatedAt
    | .recencyAt => some item.recencyAt
    | .sectionPosition => item.row.sectionPosition.bind cal.fromTimestampMillis
  some { ts, id := if key.hasThreadIdTiebreaker then some item.row.id else none }

structure ThreadsPage (I : Type) where
  items : List (ThreadMetadata I)
  nextAnchor : Option (Anchor I)
  numScannedRows : Nat

def listThreads (cal : Calendar) (table : List (ThreadRow I)) (pageSize : Nat)
    (opts : ThreadFilterOptions I) : Except Text (ThreadsPage I) := do
  let items ← ((selectThreads table opts).take (pageSize + 1)).mapM
    (ThreadMetadata.tryFrom cal)
  if pageSize < items.length then
    let kept := items.dropLast
    pure
      { items := kept
        nextAnchor := kept.getLast?.bind (anchorFromItem cal · opts.sortKey)
        numScannedRows := items.length }
  else pure { items, nextAnchor := none, numScannedRows := items.length }

end

open Option
open ThreadMetadata (tryFrom)
open Paging List

theorem columnLe_total (left right : Option Int) : columnLe left right ∨ columnLe right left := by
  cases left <;> cases right <;> simp [columnLe, Int.le_total]

theorem columnLe_trans {left middle right : Option Int} (fst : columnLe left middle)
    (snd : columnLe middle right) : columnLe left right := by
  cases left <;> cases middle <;> cases right <;> simp_all [columnLe]
  exact Int.le_trans fst snd

theorem columnLe_antisymm {left right : Option Int} (fst : columnLe left right)
    (snd : columnLe right left) : left = right := by
  cases left <;> cases right <;> simp_all [columnLe]
  exact Int.le_antisymm fst snd

namespace SortDirection

variable {A : Type} [LinearOrder A] {value middle other anchor : A} {dir : SortDirection}

theorem ordered_total (dir : SortDirection) (value other : A) :
    dir.Ordered value other ∨ dir.Ordered other value := by
  cases dir
  all_goals exact le_total _ _

theorem ordered_refl (dir : SortDirection) (value : A) : dir.Ordered value value := by
  cases dir
  all_goals exact le_refl value

theorem Ordered.trans (fst : dir.Ordered value middle)
    (snd : dir.Ordered middle other) : dir.Ordered value other := by
  cases dir
  · exact le_trans fst snd
  · exact le_trans snd fst

theorem behind_of_ordered (ord : dir.Ordered value other)
    (behind : dir.behind value anchor = true) : dir.behind other anchor = true := by
  cases dir
  · exact decide_eq_true (lt_of_lt_of_le (of_decide_eq_true behind) ord)
  · exact decide_eq_true (lt_of_le_of_lt ord (of_decide_eq_true behind))

theorem not_behind_of_ordered (ord : dir.Ordered value anchor) :
    dir.behind value anchor = false := by
  cases dir
  all_goals exact decide_eq_false (not_lt_of_ge ord)

theorem ordered_cases (ord : dir.Ordered value other) :
    dir.behind other value = true ∨ value = other := by
  cases dir
  · exact (lt_or_eq_of_le ord).imp decide_eq_true id
  · exact (lt_or_eq_of_le ord).imp decide_eq_true Eq.symm

end SortDirection

section

variable {key : SortKey} {dir : SortDirection} {row middle other : ThreadRow I}

theorem KeyOrdered.total (key : SortKey) (dir : SortDirection) (row other : ThreadRow I) :
    KeyOrdered key dir row other ∨ KeyOrdered key dir other row := by
  cases dir
  all_goals exact columnLe_total _ _

theorem KeyOrdered.trans (fst : KeyOrdered key dir row middle)
    (snd : KeyOrdered key dir middle other) : KeyOrdered key dir row other := by
  cases dir
  · exact columnLe_trans fst snd
  · exact columnLe_trans snd fst

theorem KeyOrdered.column_eq (fst : KeyOrdered key dir row other)
    (snd : KeyOrdered key dir other row) : key.column row = key.column other := by
  cases dir
  · exact columnLe_antisymm fst snd
  · exact columnLe_antisymm snd fst

theorem keyOrdered_iff {value next : Int} (column : key.column row = some value)
    (otherColumn : key.column other = some next) :
    KeyOrdered key dir row other ↔ dir.Ordered value next := by
  cases dir
  all_goals
    rw [KeyOrdered, column, otherColumn]
    rfl

variable [LinearOrder I]

instance (key : SortKey) (dir : SortDirection) :
    Std.Total (Precedes key dir : ThreadRow I → ThreadRow I → Prop) where
  total row other := by
    by_cases ordered : KeyOrdered key dir row other
    · by_cases back : KeyOrdered key dir other row
      · rcases dir.ordered_total row.id other.id with ids | ids
        · exact .inl ⟨ordered, fun _ _ => ids⟩
        · exact .inr ⟨back, fun _ _ => ids⟩
      · exact .inl ⟨ordered, fun _ equal => absurd equal back⟩
    have back := (KeyOrdered.total key dir row other).resolve_left ordered
    exact .inr ⟨back, fun _ equal => absurd equal ordered⟩

instance (key : SortKey) (dir : SortDirection) :
    IsTrans (ThreadRow I) (Precedes key dir) where
  trans row middle other first second := by
    refine ⟨first.1.trans second.1, fun tiebreaker equal => ?_⟩
    exact (first.2 tiebreaker (second.1.trans equal)).trans
      (second.2 tiebreaker (equal.trans first.1))

theorem isBehind_iff {anchor : Anchor I} : isBehind key dir anchor row = true ↔
    ∃ value, key.column row = some value ∧
      (dir.behind value (datetimeToEpochMillis anchor.ts) = true ∨
        value = datetimeToEpochMillis anchor.ts ∧ key.hasThreadIdTiebreaker = true ∧
        ∃ id, anchor.id = some id ∧ dir.behind row.id id = true) := by
  rw [isBehind]
  cases column : key.column row with
  | none => simp
  | some value =>
    cases anchor.id with
    | none => simp
    | some id =>
      simp only [any_some, Bool.or_eq_true, Bool.and_eq_true,
        Option.some.injEq, exists_eq_left', and_left_comm]
      exact or_congr_right (and_congr_left' decide_eq_true_iff)

theorem isBehind_of_precedes {anchor : Anchor I} (ord : Precedes key dir row other)
    (known : (key.column other).isSome = true) (behind : isBehind key dir anchor row = true) :
    isBehind key dir anchor other = true := by
  obtain ⟨next, column⟩ := isSome_iff_exists.mp known
  rw [isBehind_iff] at behind ⊢
  obtain ⟨value, eq, case⟩ := behind
  have keys := (keyOrdered_iff eq column).mp ord.1
  refine ⟨next, column, ?_⟩
  rcases case with behind | ⟨equal, tie, id, anchored, behind⟩
  · exact .inl (SortDirection.behind_of_ordered keys behind)
  rcases SortDirection.ordered_cases keys with later | rfl
  · exact .inl (equal ▸ later)
  have back : KeyOrdered key dir other row :=
    (keyOrdered_iff column eq).mpr (dir.ordered_refl value)
  exact .inr ⟨equal, tie, id, anchored,
    SortDirection.behind_of_ordered (ord.2 tie back) behind⟩

end

section

variable [LinearOrder I] {table : List (ThreadRow I)} {options : ThreadFilterOptions I}

def matchingThreads (table : List (ThreadRow I)) (options : ThreadFilterOptions I) :
    List (ThreadRow I) :=
  selectThreads table { options with anchor := none }

def threadsBehind (table : List (ThreadRow I)) (options : ThreadFilterOptions I)
    (anchor : Option (Anchor I)) : List (ThreadRow I) :=
  selectThreads table { options with anchor }

theorem threadsBehind_some (anchor : Anchor I) :
    threadsBehind table options (some anchor) = (matchingThreads table options).filter
      (isBehind options.sortKey options.sortDirection anchor) := by
  rw [threadsBehind, matchingThreads, selectThreads, selectThreads, filter_insertionSort,
    List.filter_filter]
  congr 1
  refine filter_congr fun row _ => ?_
  simp only [all_some, all_none, Bool.and_comm]
  rfl

theorem sorted_matchingThreads : (matchingThreads table options).Pairwise
    (Precedes options.sortKey options.sortDirection) :=
  pairwise_insertionSort _ _

theorem mem_matchingThreads {row : ThreadRow I} :
    row ∈ matchingThreads table options ↔ row ∈ table ∧ options.selects row = true := by
  rw [matchingThreads, selectThreads, mem_insertionSort, mem_filter]
  simp only [all_none, Bool.and_true]
  rfl

theorem nodup_matchingThreads (unique : (table.map (·.id)).Nodup) :
    (matchingThreads table options).Nodup :=
  (perm_insertionSort _ _).nodup_iff.mpr (unique.of_map.filter _)

end

open SortKey ThreadMetadata

section

def ThreadRow.Readable (calendar : Calendar) (row : ThreadRow I) : Prop :=
  ∃ item, tryFrom calendar row = .ok item

def anchorOfRow (calendar : Calendar) (key : SortKey) (row : ThreadRow I) : Option (Anchor I) :=
  (tryFrom calendar row).toOption.bind (anchorFromItem calendar · key)

def threadsPage [LinearOrder I] (calendar : Calendar) (table : List (ThreadRow I)) (pageSize : Nat)
    (options : ThreadFilterOptions I) (anchor : Option (Anchor I)) :
    Except Text (List (ThreadRow I) × Option (Anchor I)) :=
  (listThreads calendar table pageSize { options with anchor }).map fun page =>
    (page.items.map (·.row), page.nextAnchor)

variable {calendar : Calendar} {row : ThreadRow I} {item : ThreadMetadata I}

theorem ThreadMetadata.tryFrom_eq_ok : tryFrom calendar row = .ok item ↔
    item.row = row ∧ epochMillisToDatetime calendar row.createdAtMs = .ok item.createdAt ∧
      epochMillisToDatetime calendar row.updatedAtMs = .ok item.updatedAt ∧
      epochMillisToDatetime calendar row.recencyAtMs = .ok item.recencyAt := by
  rw [tryFrom]
  simp only [bind_eq_ok_iff, pure, Except.pure, Except.ok.injEq]
  constructor
  · rintro ⟨created, fst, updated, snd, recency, third, rfl⟩
    exact ⟨rfl, fst, snd, third⟩
  rintro ⟨rfl, fst, snd, third⟩
  exact ⟨_, fst, _, snd, _, third, rfl⟩

theorem mapM_tryFrom {rows : List (ThreadRow I)} (readable : ∀ row ∈ rows, row.Readable calendar) :
    ∃ xs, rows.mapM (tryFrom calendar) = .ok xs ∧ xs.map (·.row) = rows ∧
      ∀ item ∈ xs, tryFrom calendar item.row = .ok item := by
  induction rows with
  | nil => exact ⟨[], rfl, rfl, by simp⟩
  | cons row rows ih =>
    obtain ⟨item, fst⟩ := readable row (by simp)
    obtain ⟨xs, others, eq, origin⟩ := ih fun other mem =>
      readable other (by simp [mem])
    have itself : item.row = row := (tryFrom_eq_ok.mp fst).1
    refine ⟨item :: xs, mapM_cons_eq_ok_iff.mpr ⟨item, fst, xs, others, rfl⟩, ?_, ?_⟩
    · rw [map_cons, eq, itself]
    · exact forall_mem_cons.mpr ⟨itself ▸ fst, origin⟩

theorem anchorOfRow_eq (key : SortKey) (read : tryFrom calendar item.row = .ok item) :
    anchorOfRow calendar key item.row = anchorFromItem calendar item key := by
  rw [anchorOfRow, read]
  rfl

theorem readable_of_anchorOfRow {key : SortKey} {anchor : Anchor I}
    (made : anchorOfRow calendar key row = some anchor) : row.Readable calendar := by
  obtain ⟨item, read, _⟩ := bind_eq_some_iff.mp made
  cases converted : tryFrom calendar row with
  | ok item => exact ⟨item, converted⟩
  | error error =>
    rw [converted] at read
    cases read

def anchorTs (calendar : Calendar) (key : SortKey) (value : Int) : Option DateTime :=
  match key with
  | .sectionPosition => calendar.fromTimestampMillis value
  | _ => (epochMillisToDatetime calendar value).toOption

theorem anchorOfRow_of_readable (key : SortKey) (readable : row.Readable calendar) :
    anchorOfRow calendar key row = ((key.column row).bind (anchorTs calendar key)).map fun ts =>
      { ts, id := if key.hasThreadIdTiebreaker then some row.id else none } := by
  obtain ⟨item, read⟩ := readable
  obtain ⟨rfl, created, updated, recency⟩ := tryFrom_eq_ok.mp read
  rw [anchorOfRow_eq key read]
  cases key with
  | createdAt => simp [anchorFromItem, column, anchorTs, created, Except.toOption]
  | updatedAt => simp [anchorFromItem, column, anchorTs, updated, Except.toOption]
  | recencyAt => simp [anchorFromItem, column, anchorTs, recency, Except.toOption]
  | sectionPosition =>
    change (item.row.sectionPosition.bind calendar.fromTimestampMillis).bind _ =
      (item.row.sectionPosition.bind calendar.fromTimestampMillis).map _
    cases item.row.sectionPosition.bind calendar.fromTimestampMillis <;> rfl

theorem serves_threadsPage [LinearOrder I] (calendar : Calendar) (table : List (ThreadRow I))
    (pageSize : Nat) (options : ThreadFilterOptions I) :
    Serves (threadsPage calendar table pageSize options) pageSize (threadsBehind table options)
      (anchorOfRow calendar options.sortKey) (ThreadRow.Readable calendar) where
  reads anchor readable := by
    obtain ⟨xs, conv, eq, origin⟩ := mapM_tryFrom readable
    have count : xs.length = min (pageSize + 1) (threadsBehind table options anchor).length := by
      rw [← length_take, ← eq, length_map]
    rw [threadsPage, listThreads]
    change Except.map _ (((threadsBehind table options anchor).take (pageSize + 1)).mapM _
      >>= _) = _
    rw [conv]
    change Except.map _ (if pageSize < xs.length then _ else _) = _
    by_cases long : pageSize < (threadsBehind table options anchor).length
    · have kept : xs.dropLast.map (·.row) = (threadsBehind table options anchor).take pageSize := by
        rw [dropLast_eq_take, map_take, eq, take_take, count]
        congr 1
        omega
      rw [if_pos (by omega)]
      refine congrArg Except.ok (Prod.ext kept ?_)
      rw [nextCursor, if_pos long, ← kept, getLast?_map]
      change xs.dropLast.getLast?.bind (anchorFromItem calendar · options.sortKey) = _
      cases last : xs.dropLast.getLast? with
      | none => rfl
      | some item =>
        have mem := dropLast_subset _ (mem_of_getLast? last)
        exact (anchorOfRow_eq options.sortKey (origin item mem)).symm
    rw [if_neg (by omega)]
    refine congrArg Except.ok (Prod.ext ?_ ?_)
    · change xs.map (·.row) = _
      rw [eq, take_of_length_le (by omega), take_of_length_le (by omega)]
    · rw [nextCursor, if_neg long]
  fails anchor := by
    rintro ⟨row, mem, unreadable⟩
    cases listed : threadsPage calendar table pageSize options anchor with
    | error error => exact ⟨error, rfl⟩
    | ok res =>
      obtain ⟨page, hit, _⟩ := map_eq_ok_iff.mp listed
      obtain ⟨xs, conv, _⟩ := bind_eq_ok_iff.mp hit
      exact absurd (exists_ok_of_mapM conv mem) unreadable

end

section

variable [LinearOrder I] {calendar : Calendar} {table : List (ThreadRow I)} {pageSize : Nat}
  {options : ThreadFilterOptions I}

def HasColumn (table : List (ThreadRow I)) (options : ThreadFilterOptions I) : Prop :=
  ∀ row ∈ table, options.selects row = true → (options.sortKey.column row).isSome = true

theorem threadsBehind_suffix (columns : HasColumn table options) (anchor : Anchor I) :
    threadsBehind table options (some anchor) <:+ matchingThreads table options := by
  rw [threadsBehind_some]
  refine filter_suffix sorted_matchingThreads fun row other mem ord behind => ?_
  obtain ⟨inTable, sel⟩ := mem_matchingThreads.mp mem
  exact isBehind_of_precedes ord (columns other inTable sel) behind

variable {key : SortKey} {dir : SortDirection} {last : ThreadRow I}

/-- The ids only decide for rows that come later. -/
theorem isBehind_of_tied {first middle : ThreadRow I} {anchor : Anchor I}
    (ord : Precedes key dir first last) (equal : key.column last = key.column first)
    (eq : key.column middle = key.column last) (made : anchorOfRow calendar key last = some anchor)
    (behind : isBehind key dir anchor first = true) (readable : middle.Readable calendar) :
    ∃ other, anchorOfRow calendar key middle = some other ∧
      isBehind key dir other first = true := by
  rw [anchorOfRow_of_readable key (readable_of_anchorOfRow made)] at made
  obtain ⟨ts, stamped, rfl⟩ := map_eq_some_iff.mp made
  rw [anchorOfRow_of_readable key readable, eq, stamped]
  refine ⟨_, rfl, isBehind_iff.mpr ?_⟩
  obtain ⟨value, column, later | ⟨_, tie, id, anchored, later⟩⟩ := isBehind_iff.mp behind
  · exact ⟨value, column, .inl later⟩
  simp only [tie, if_true, Option.some.injEq] at anchored
  have back : KeyOrdered key dir last first :=
    (keyOrdered_iff (equal.trans column) column).mpr (dir.ordered_refl value)
  rw [← anchored, SortDirection.not_behind_of_ordered (ord.2 tie back)] at later
  cases later

theorem precedes_of_lt (table : List (ThreadRow I)) (options : ThreadFilterOptions I)
    {fst last : Nat} (pre : fst < last) (ins : last < (matchingThreads table options).length) :
    Precedes options.sortKey options.sortDirection
      (matchingThreads table options)[fst] (matchingThreads table options)[last] :=
  pairwise_iff_getElem.mp sorted_matchingThreads fst last (by omega) ins pre

theorem tied_matchingThreads (fst middle last : Nat) (early : fst ≤ middle)
    (late : middle < last) (firstInside : fst < (matchingThreads table options).length)
    (middleInside : middle < (matchingThreads table options).length)
    (ins : last < (matchingThreads table options).length) (anchor : Anchor I)
    (equal : KeyOrdered options.sortKey options.sortDirection
      (matchingThreads table options)[last] (matchingThreads table options)[fst])
    (made : anchorOfRow calendar options.sortKey
      (matchingThreads table options)[last] = some anchor)
    (behind : (matchingThreads table options)[fst] ∈ threadsBehind table options (some anchor))
    (readable : (matchingThreads table options)[middle].Readable calendar) :
    ∃ other, anchorOfRow calendar options.sortKey (matchingThreads table options)[middle] =
        some other ∧
      (matchingThreads table options)[fst] ∈ threadsBehind table options (some other) := by
  have ordered := precedes_of_lt table options (show fst < last by omega) ins
  have columns := equal.column_eq ordered.1
  have eq : options.sortKey.column (matchingThreads table options)[middle] =
      options.sortKey.column (matchingThreads table options)[last] := by
    refine (precedes_of_lt table options late ins).1.column_eq ?_
    rcases Nat.lt_or_eq_of_le early with pre | rfl
    · exact equal.trans (precedes_of_lt table options pre (by omega)).1
    · exact equal
  rw [threadsBehind_some, mem_filter] at behind
  obtain ⟨other, more, returns⟩ :=
    isBehind_of_tied ordered columns eq made behind.2 readable
  refine ⟨other, more, ?_⟩
  rw [threadsBehind_some, mem_filter]
  exact ⟨behind.1, returns⟩

/-- The time stamp of the anchor is between the rows, or the id decides for `next`. -/
def SplitsAt (calendar : Calendar) (key : SortKey) (dir : SortDirection)
    (last next : ThreadRow I) : Prop :=
  ∃ value other ts, key.column last = some value ∧ key.column next = some other ∧
    anchorTs calendar key value = some ts ∧ dir.Ordered value (datetimeToEpochMillis ts) ∧
    (dir.behind other (datetimeToEpochMillis ts) = true ∨ other = datetimeToEpochMillis ts ∧
      key.hasThreadIdTiebreaker = true ∧ dir.behind next.id last.id = true)

theorem SortDirection.ordered_of_not_behind {A : Type} [LinearOrder A] {value anchor : A}
    (behind : dir.behind value anchor = false) : dir.Ordered value anchor := by
  cases dir
  all_goals exact le_of_not_gt (of_decide_eq_false behind)

theorem splitsAt_iff {next : ThreadRow I} (readable : last.Readable calendar) :
    SplitsAt calendar key dir last next ↔ ∃ anchor, anchorOfRow calendar key last = some anchor ∧
        isBehind key dir anchor last = false ∧ isBehind key dir anchor next = true := by
  rw [anchorOfRow_of_readable key readable]
  constructor
  · rintro ⟨value, other, ts, column, otherColumn, stamped, ord, case⟩
    refine ⟨_, by rw [column, bind_some, stamped]; rfl, ?_, ?_⟩
    · rw [← Bool.not_eq_true, isBehind_iff]
      rintro ⟨eq, known, again | ⟨_, tie, id, anchored, again⟩⟩
      · obtain rfl := Option.some.inj (column.symm.trans known)
        rw [SortDirection.not_behind_of_ordered ord] at again
        cases again
      simp only [tie, if_true, Option.some.injEq] at anchored
      rw [← anchored, SortDirection.not_behind_of_ordered (dir.ordered_refl _)] at again
      cases again
    refine isBehind_iff.mpr ⟨other, otherColumn, ?_⟩
    rcases case with later | ⟨equal, tie, later⟩
    · exact .inl later
    · exact .inr ⟨equal, tie, last.id, if_pos tie, later⟩
  rintro ⟨anchor, made, once, later⟩
  obtain ⟨ts, stamped, rfl⟩ := map_eq_some_iff.mp made
  obtain ⟨value, column, stamped⟩ := bind_eq_some_iff.mp stamped
  obtain ⟨other, otherColumn, case⟩ := isBehind_iff.mp later
  refine ⟨value, other, ts, column, otherColumn, stamped, ?_, ?_⟩
  · refine SortDirection.ordered_of_not_behind (Bool.eq_false_iff.mpr fun again => ?_)
    rw [isBehind_iff.mpr ⟨value, column, .inl again⟩] at once
    cases once
  rcases case with later | ⟨equal, tie, id, anchored, later⟩
  · exact .inl later
  simp only [tie, if_true, Option.some.injEq] at anchored
  exact .inr ⟨equal, tie, anchored ▸ later⟩

theorem continues_iff (unique : (table.map (·.id)).Nodup) (columns : HasColumn table options)
    (pos : 0 < pageSize) (readable : ∀ row ∈ matchingThreads table options, row.Readable calendar) :
    Continues pageSize (threadsBehind table options) (anchorOfRow calendar options.sortKey) ↔
      ∀ idx last next, 0 < idx → (matchingThreads table options)[idx * pageSize - 1]? = some last →
        (matchingThreads table options)[idx * pageSize]? = some next →
        SplitsAt calendar options.sortKey options.sortDirection last next := by
  have nodup : (matchingThreads table options).Nodup := nodup_matchingThreads unique
  constructor
  · intro continues idx last next later atEnd following
    obtain ⟨ins, rfl⟩ := List.getElem?_eq_some_iff.mp following
    obtain ⟨final, anchor, eq, made, tl⟩ := continues idx later ins
    obtain rfl := Option.some.inj (atEnd.symm.trans eq)
    obtain ⟨_, rfl⟩ := List.getElem?_eq_some_iff.mp atEnd
    obtain ⟨once, shown⟩ := (eq_drop_iff nodup (threadsBehind_suffix columns anchor)
      (Nat.mul_pos later pos) ins).mp tl
    rw [threadsBehind_some, mem_filter] at once shown
    refine (splitsAt_iff (readable _ (getElem_mem _))).mpr ⟨anchor, made, ?_, shown.2⟩
    exact Bool.eq_false_iff.mpr fun again => once ⟨getElem_mem _, again⟩
  intro splits idx later ins
  have positions : 0 < idx * pageSize := Nat.mul_pos later pos
  have pre : idx * pageSize - 1 < (matchingThreads table options).length := by
    change idx * pageSize < (matchingThreads table options).length at ins
    omega
  have split := splits idx _ _ later (getElem?_eq_getElem pre)
    (getElem?_eq_getElem ins)
  obtain ⟨anchor, made, once, shown⟩ :=
    (splitsAt_iff (readable _ (getElem_mem pre))).mp split
  refine ⟨_, anchor, getElem?_eq_getElem pre, made, ?_⟩
  refine (eq_drop_iff nodup (threadsBehind_suffix columns anchor) positions ins).mpr ?_
  rw [threadsBehind_some, mem_filter, mem_filter]
  refine ⟨fun again => ?_, getElem_mem ins, shown⟩
  rw [once] at again
  cases again.2

/-- Every thread is visited once and in order exactly if all can be read and each page end is split.
-/
theorem threadsPage_visits_iff (calendar : Calendar) (table : List (ThreadRow I)) (pageSize : Nat)
    (options : ThreadFilterOptions I) (unique : (table.map (·.id)).Nodup) (pos : 0 < pageSize)
    (positions : options.sortKey = .sectionPosition →
      ∀ row ∈ table, options.selects row = true → row.sectionPosition.isSome = true) :
    (∃ visited, Visits (threadsPage calendar table pageSize options) none visited ∧
        visited.Perm (matchingThreads table options) ∧
        visited.Pairwise (KeyOrdered options.sortKey options.sortDirection)) ↔
      (∀ row ∈ table, options.selects row = true → row.Readable calendar) ∧
        ∀ index last next, 0 < index →
          (matchingThreads table options)[index * pageSize - 1]? = some last →
          (matchingThreads table options)[index * pageSize]? = some next →
          SplitsAt calendar options.sortKey options.sortDirection last next := by
  have columns : HasColumn table options := by
    intro row mem selected
    cases key : options.sortKey with
    | sectionPosition => exact positions key row mem selected
    | createdAt | updatedAt | recencyAt => rfl
  have sorted : (matchingThreads table options).Pairwise
      (KeyOrdered options.sortKey options.sortDirection) :=
    sorted_matchingThreads.imp And.left
  have all :=
    @Serves.visits_all_iff _ _ _ _ _ _ _ _ (KeyOrdered options.sortKey options.sortDirection)
    (serves_threadsPage calendar table pageSize options) pos (nodup_matchingThreads unique)
    (threadsBehind_suffix columns) tied_matchingThreads sorted
  have reads : (∀ row ∈ threadsBehind table options none, row.Readable calendar) ↔
      ∀ row ∈ table, options.selects row = true → row.Readable calendar := by
    constructor
    · exact fun readable row mem selected =>
        readable row (mem_matchingThreads.mpr ⟨mem, selected⟩)
    intro readable row mem
    obtain ⟨inTable, selected⟩ := mem_matchingThreads.mp mem
    exact readable row inTable selected
  refine all.trans ?_
  rw [← reads]
  exact and_congr_right fun readable => continues_iff unique columns pos readable

end

def threadAt (id : Nat) (millis : Int) : ThreadRow Nat :=
  { id, createdAtMs := millis, updatedAtMs := millis, recencyAtMs := millis, source := "cli",
    modelProvider := "openai", cwd := "/work", title := "fix", name := none,
    preview := "fix", archived := false, threadSectionId := none, sectionPosition := none,
    projectId := none }

def newestFirst (sortKey : SortKey) : ThreadFilterOptions Nat :=
  { archivedOnly := false, allowedSources := [], modelProviders := none, cwdFilters := none,
    section_ := none, projectId := none, anchor := none, sortKey, sortDirection := .desc,
    searchTerm := none }

theorem threadsPage_visits_two : ∃ visited, Visits (threadsPage chronoCalendar
        [threadAt 1 1700000000000, threadAt 2 1700000000001] 1
          (newestFirst .createdAt)) none visited ∧
      visited.Perm (matchingThreads [threadAt 1 1700000000000, threadAt 2 1700000000001]
        (newestFirst .createdAt)) ∧
      visited.Pairwise (KeyOrdered .createdAt .desc) := by
  refine (threadsPage_visits_iff chronoCalendar [threadAt 1 1700000000000, threadAt 2 1700000000001]
    1 (newestFirst .createdAt) (by decide) (by decide) nofun).mpr ⟨?_, ?_⟩
  · intro row mem _
    rcases mem_pair.mp mem with rfl | rfl
    all_goals exact ⟨_, rfl⟩
  have listed : matchingThreads [threadAt 1 1700000000000, threadAt 2 1700000000001]
      (newestFirst .createdAt) = [threadAt 2 1700000000001, threadAt 1 1700000000000] := by
    decide
  rw [listed]
  intro idx last next later atEnd following
  obtain ⟨bound, rfl⟩ := List.getElem?_eq_some_iff.mp following
  obtain rfl : idx = 1 := by
    simp only [length_cons, length_nil] at bound
    omega
  cases atEnd
  exact ⟨1700000000001, 1700000000000, 1700000000001000000, rfl, rfl, by decide, by decide,
    .inl (by decide)⟩

/-- Of two threads created at the same time, the one behind a page end is not visited. -/
theorem threadsPage_skips_same_time : ¬ ∃ visited, Visits (threadsPage chronoCalendar
        [threadAt 1 1700000000000, threadAt 2 1700000000000] 1
          (newestFirst .createdAt)) none visited ∧
      visited.Perm (matchingThreads [threadAt 1 1700000000000, threadAt 2 1700000000000]
        (newestFirst .createdAt)) ∧
      visited.Pairwise (KeyOrdered .createdAt .desc) := by
  have fst : threadsPage chronoCalendar [threadAt 1 1700000000000, threadAt 2 1700000000000] 1
      (newestFirst .createdAt) none =
        .ok ([threadAt 1 1700000000000], some ⟨1700000000000000000, none⟩) := by
    rfl
  have snd : threadsPage chronoCalendar [threadAt 1 1700000000000, threadAt 2 1700000000000] 1
      (newestFirst .createdAt) (some ⟨1700000000000000000, none⟩) = .ok ([], none) := by
    rfl
  rintro ⟨visited, visits, perm, _⟩
  have missing : threadAt 2 1700000000000 ∉ visited := by
    cases visits with
    | last served => cases fst.symm.trans served
    | next served later =>
      cases fst.symm.trans served
      cases later with
      | last served =>
        cases snd.symm.trans served
        decide
      | next served => cases snd.symm.trans served
  exact missing (perm.mem_iff.mpr (by decide))

end Codex.State
