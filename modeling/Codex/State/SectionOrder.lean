import Codex.State.ThreadPaging
import Mathlib.Data.Prod.Lex
import Mathlib.Order.WithBot

/-!
# The order of threads in a section

A thread is moved by a new position between its neighbours.
-/

namespace Codex.State

open List

def sectionPositionGap : Int := 1000000

inductive SectionMoveError
  | beforeWithoutSection
  | unknownSection
  | beforeItself
  | beforeElsewhere
  | noPositions
  deriving DecidableEq

variable {I : Type} [LinearOrder I]

abbrev ThreadRow.isIn (name : Text) (row : ThreadRow I) : Bool := row.threadSectionId = some name

abbrev ThreadRow.place (row : ThreadRow I) : Int := row.sectionPosition.getD 0

def Rank (I : Type) := WithBot Int ×ₗ I

instance : LinearOrder (Rank I) := inferInstanceAs (LinearOrder (WithBot Int ×ₗ I))

def ThreadRow.rank (row : ThreadRow I) : Rank I :=
  toLex ((row.sectionPosition : WithBot Int), row.id)

def ordered (rows : List (ThreadRow I)) : List (ThreadRow I) :=
  rows.insertionSort fun row other => row.rank ≤ other.rank

def sectionOrder (table : List (ThreadRow I)) (name : Text) : List I :=
  (ordered (table.filter (·.isIn name))).map (·.id)

def positionBetween (lower upper : Option Int) : Option Int :=
  match upper, lower with
  | some upper, some lower => if upper - lower > 1 then some (lower + (upper - lower) / 2) else none
  | some upper, none => if upper > 1 then some (upper / 2) else none
  | none, lower =>
    let pos := lower.getD 0 + sectionPositionGap
    if pos < 2 ^ 63 then some pos else none

section

variable (table : List (ThreadRow I)) (name : Text) (thread : I) (before : Option I)

def others : List (ThreadRow I) :=
  ordered (table.filter fun row => row.isIn name && row.id ≠ thread)

def choosePosition : Except SectionMoveError (Option Int) :=
  let positions := (others table name thread).filterMap (·.sectionPosition)
  match before with
  | some before =>
    match (table.find? fun row => row.id = before && row.isIn name).bind (·.sectionPosition) with
    | none => .error .beforeElsewhere
    | some upper => .ok (positionBetween (positions.filter (· < upper)).max? (some upper))
  | none => .ok (positionBetween positions.max? none)

def ThreadRow.numbered (ids : List I) (row : ThreadRow I) : ThreadRow I :=
  { row with sectionPosition := some ((ids.idxOf row.id + 1) * sectionPositionGap) }

def renumberSectionPositions : List (ThreadRow I) :=
  let ids := (others table name thread).map (·.id)
  table.map fun row => if row.isIn name && row.id ≠ thread then row.numbered ids else row

def sectionMovePosition : Except SectionMoveError (List (ThreadRow I) × Int) :=
  match choosePosition table name thread before with
  | .error error => .error error
  | .ok (some pos) => .ok (table, pos)
  | .ok none =>
    let table := renumberSectionPositions table name thread
    match choosePosition table name thread before with
    | .error error => .error error
    | .ok (some pos) => .ok (table, pos)
    | .ok none => .error .noPositions

def updateThread (name : Option Text) (pos : Option Int) : List (ThreadRow I) :=
  table.map fun row =>
    if row.id = thread then { row with threadSectionId := name, sectionPosition := pos }
    else row

def moveThreadToSection (sections : List Text) (name : Option Text) :
    Except SectionMoveError (List (ThreadRow I) × Bool) :=
  if name.isNone && before.isSome then .error .beforeWithoutSection
  else if (table.find? (·.id = thread)).isNone then .ok (table, false)
  else match name with
    | none => .ok (updateThread table thread none none, true)
    | some name =>
      if name ∉ sections then .error .unknownSection
      else if before = some thread then .error .beforeItself
      else if before.any fun before =>
          (table.find? (·.id = before)).bind (·.threadSectionId) ≠ some name then
        .error .beforeElsewhere
      else match sectionMovePosition table name thread before with
        | .error error => .error error
        | .ok (table, pos) => .ok (updateThread table thread (some name) (some pos), true)

end

structure SectionMove (I : Type) where
  sections : List Text
  thread : I
  target : Option Text
  before : Option I

def SectionMove.run (move : SectionMove I) (table : List (ThreadRow I)) :
    Except SectionMoveError (List (ThreadRow I) × Bool) :=
  moveThreadToSection table move.thread move.before move.sections move.target

def runMoves (table : List (ThreadRow I)) : List (SectionMove I) → Option (List (ThreadRow I))
  | [] => some table
  | move :: moves =>
    match move.run table with
    | .ok (moved, true) => runMoves moved moves
    | _ => none

def insertBefore (before : Option I) (thread : I) (ids : List I) : Option (List I) :=
  match before with
  | none => some (ids ++ [thread])
  | some before =>
    if before ∈ ids then
      some (ids.takeWhile (· ≠ before) ++ thread :: ids.dropWhile (· ≠ before))
    else none

def SectionMove.edit (order : Text → List I) (move : SectionMove I) : Option (Text → List I) :=
  let rest := fun name => (order name).erase move.thread
  match move.target with
  | none => some rest
  | some name =>
    (insertBefore move.before move.thread (rest name)).map (Function.update rest name)

/-- The threads of a section have distinct positive places. -/
structure WellPlaced (table : List (ThreadRow I)) : Prop where
  ids : (table.map (·.id)).Nodup
  positive : ∀ name, ∀ row ∈ table.filter (·.isIn name), 0 < row.place
  distinct : ∀ name, ((table.filter (·.isIn name)).map (·.place)).Nodup

structure Increasing (rows : List (ThreadRow I)) : Prop where
  positive : ∀ row ∈ rows, 0 < row.place
  sorted : rows.Pairwise fun row other => row.place < other.place

/-- Numbered by the gap, the section with the thread in it leaves the range of positions. -/
def Overflows (table : List (ThreadRow I)) (name : Text) (thread : I) : Prop :=
  2 ^ 63 ≤ ((others table name thread).length + 1) * sectionPositionGap

variable {rows list table moved front back : List (ThreadRow I)} {row : ThreadRow I} {name : Text}
  {thread : I} {before : Option I} {pos : Int} {move : SectionMove I}

omit [LinearOrder I] in
theorem sectionPosition_of_place_pos (positive : 0 < row.place) :
    row.sectionPosition = some row.place := by
  cases pos : row.sectionPosition with
  | none => simp [ThreadRow.place, pos] at positive
  | some val => rw [ThreadRow.place, pos, Option.getD_some]

theorem pairwise_ordered (list : List (ThreadRow I)) :
    (ordered list).Pairwise fun row other => row.rank ≤ other.rank := by
  have : Std.Total fun row other : ThreadRow I => row.rank ≤ other.rank := ⟨fun _ _ => le_total _ _⟩
  have : IsTrans (ThreadRow I) fun row other => row.rank ≤ other.rank := ⟨fun _ _ _ => le_trans⟩
  exact pairwise_insertionSort _ _

theorem perm_ordered (list : List (ThreadRow I)) : (ordered list).Perm list :=
  perm_insertionSort _ _

theorem rank_le_iff {other : ThreadRow I} (positive : 0 < row.place)
    (positive' : 0 < other.place) : row.rank ≤ other.rank ↔
      row.place < other.place ∨ row.place = other.place ∧ row.id ≤ other.id := by
  rw [ThreadRow.rank, ThreadRow.rank, sectionPosition_of_place_pos positive,
    sectionPosition_of_place_pos positive']
  exact Prod.Lex.toLex_le_toLex.trans
    (or_congr WithBot.coe_lt_coe (and_congr_left' WithBot.coe_inj))

theorem Increasing.ordered_eq (rising : Increasing rows) (eq : list.Perm rows) :
    ordered list = rows := by
  obtain ⟨positive, ord⟩ := rising
  refine ((perm_ordered list).trans eq).eq_of_pairwise (fun row other mem mem' less greater => ?_)
    (pairwise_ordered list) (ord.imp_of_mem fun mem mem' less =>
      (rank_le_iff (positive _ mem) (positive _ mem')).mpr (.inl less))
  have member := ((perm_ordered list).trans eq).subset mem
  rw [rank_le_iff (positive _ member) (positive _ mem')] at less
  rw [rank_le_iff (positive _ mem') (positive _ member)] at greater
  have nodup : (rows.map (·.place)).Nodup := pairwise_map.mpr (ord.imp fun less => less.ne)
  exact inj_on_of_nodup_map nodup member mem' (by omega)

theorem increasing_ordered (positive : ∀ row ∈ list, 0 < row.place)
    (nodup : (list.map (·.place)).Nodup) : Increasing (ordered list) := by
  have positive' : ∀ row ∈ ordered list, 0 < row.place :=
    fun row mem => positive row ((perm_ordered list).subset mem)
  have apart : (ordered list).Pairwise fun row other => row.place ≠ other.place :=
    pairwise_map.mp (((perm_ordered list).map _).nodup_iff.mpr nodup)
  refine ⟨positive', ((pairwise_ordered list).and apart).imp_of_mem fun mem mem' both => ?_⟩
  rcases (rank_le_iff (positive' _ mem) (positive' _ mem')).mp both.1 with less | ⟨equal, -⟩
  · exact less
  · exact absurd equal both.2

omit [LinearOrder I] in
theorem Increasing.insert (rising : Increasing (front ++ back)) (positive : 0 < row.place)
    (below : ∀ other ∈ front, other.place < row.place)
    (above : ∀ other ∈ back, row.place < other.place) : Increasing (front ++ row :: back) := by
  obtain ⟨before, ord⟩ := rising
  rw [pairwise_append] at ord
  obtain ⟨fst, last, across⟩ := ord
  refine ⟨fun other mem => ?_, pairwise_append.mpr ⟨fst, pairwise_cons.mpr ⟨above, last⟩, ?_⟩⟩
  · obtain rfl | mem := mem_cons.mp (perm_middle.subset mem)
    · exact positive
    · exact before other mem
  · exact fun other mem => forall_mem_cons.mpr ⟨below other mem, across other mem⟩

def Shows (table : List (ThreadRow I)) (name : Text) (ids : List I) : Prop :=
  ∃ rows, Increasing rows ∧ (table.filter (·.isIn name)).Perm rows ∧ rows.map (·.id) = ids

theorem Shows.sectionOrder_eq {ids : List I} (shows : Shows table name ids) :
    sectionOrder table name = ids := by
  obtain ⟨rows, rising, eq, rfl⟩ := shows
  rw [sectionOrder, rising.ordered_eq eq]

omit [LinearOrder I] in
theorem wellPlaced_of_shows (ids : (table.map (·.id)).Nodup)
    (shows : ∀ name, ∃ ids, Shows table name ids) : WellPlaced table := by
  refine ⟨ids, fun name row mem => ?_, fun name => ?_⟩
  all_goals obtain ⟨_, rows, ⟨positive, ord⟩, eq, -⟩ := shows name
  · exact positive row (eq.subset mem)
  · exact (eq.map _).nodup_iff.mpr (pairwise_map.mpr (ord.imp fun less => less.ne))

/-- Without a thread, the rest of the section keeps its order. -/
theorem WellPlaced.others (placed : WellPlaced table) (name : Text) (thread : I) :
    Increasing (others table name thread) ∧
      (State.others table name thread).map (·.id) = (sectionOrder table name).erase thread := by
  have whole := increasing_ordered (placed.positive name) (placed.distinct name)
  have part : Increasing ((ordered (table.filter (·.isIn name))).filter (·.id ≠ thread)) :=
    ⟨fun row mem => whole.positive row (mem_of_mem_filter mem), whole.sorted.filter _⟩
  have eq : (table.filter fun row => row.isIn name && row.id ≠ thread).Perm
      ((ordered (table.filter (·.isIn name))).filter (·.id ≠ thread)) := by
    rw [filter_congr fun row _ => Bool.and_comm .., ← filter_filter]
    exact (perm_ordered _).symm.filter _
  have nodup : (sectionOrder table name).Nodup :=
    ((perm_ordered _).map _).nodup_iff.mpr (placed.ids.sublist (filter_sublist.map _))
  rw [State.others, part.ordered_eq eq, nodup.erase_eq_filter, sectionOrder, filter_map]
  refine ⟨part, congr_arg _ (filter_congr fun row _ => ?_)⟩
  by_cases equal : row.id = thread <;> simp [equal]

theorem filter_updateThread (ids : (table.map (·.id)).Nodup) (hit : thread ∈ table.map (·.id))
    (tgt : Option Text) (place : Option Int) :
    ∃ row : ThreadRow I, row.id = thread ∧ row.sectionPosition = place ∧
      ∀ name, ((updateThread table thread tgt place).filter (·.isIn name)).Perm
        ((if tgt = some name then [row] else []) ++ others table name thread) := by
  obtain ⟨row, mem, eq⟩ := mem_map.mp hit
  obtain ⟨front, back, rfl⟩ := append_of_mem mem
  rw [map_append, map_cons, nodup_middle, nodup_cons, ← map_append, eq] at ids
  have apart : ∀ other ∈ front ++ back, other.id ≠ thread := fun other mem equal =>
    ids.1 (mem_map.mpr ⟨other, mem, equal⟩)
  rw [forall_mem_append] at apart
  refine ⟨{ row with threadSectionId := tgt, sectionPosition := place }, eq, rfl,
    fun name => Perm.trans ?_ ((perm_ordered _).symm.append_left _)⟩
  have kept : ∀ part : List (ThreadRow I), (∀ other ∈ part, other.id ≠ thread) →
      updateThread part thread tgt place = part ∧
        (part.filter fun row => row.isIn name && row.id ≠ thread) = part.filter (·.isIn name) :=
    fun part apart => ⟨(map_congr_left fun other mem => if_neg (apart other mem)).trans (map_id' _),
      filter_congr fun other mem => by simp [apart other mem]⟩
  have first := kept front apart.1
  have last := kept back apart.2
  rw [updateThread] at first last
  rw [updateThread, map_append, map_cons, first.1, last.1, if_pos eq, filter_append, filter_append,
    filter_cons, filter_cons_of_neg (by simp [eq]), first.2, last.2]
  by_cases here : tgt = some name <;> simp [here]

theorem nodup_ids_others (ids : (table.map (·.id)).Nodup) (name : Text) (thread : I) :
    ((others table name thread).map (·.id)).Nodup :=
  ((perm_ordered _).map _).nodup_iff.mpr (ids.sublist (filter_sublist.map _))

/-- The position that is chosen lies where the list edit puts the thread. -/
theorem choosePosition_eq (rising : Increasing (others table name thread))
    (ids : (table.map (·.id)).Nodup) (itself : before ≠ some thread) {choice : Option Int}
    (chosen : choosePosition table name thread before = .ok choice) :
    ∃ front back, others table name thread = front ++ back ∧
      insertBefore before thread ((others table name thread).map (·.id)) =
        some (front.map (·.id) ++ thread :: back.map (·.id)) ∧
      choice = positionBetween (front.map (·.place)).max? (back.map (·.place)).head? := by
  have positions : (others table name thread).filterMap (·.sectionPosition) =
      (others table name thread).map (·.place) := by
    rw [← filterMap_eq_map]
    exact filterMap_congr fun row mem => sectionPosition_of_place_pos (rising.positive row mem)
  simp only [choosePosition, positions] at chosen
  cases before with
  | none =>
    cases chosen
    exact ⟨_, [], (append_nil _).symm, rfl, rfl⟩
  | some before =>
    simp only at chosen
    split at chosen
    · cases chosen
    next upper hit =>
    cases chosen
    obtain ⟨row, hit, equal⟩ := Option.bind_eq_some_iff.mp hit
    have here := find?_some hit
    simp only [Bool.and_eq_true, decide_eq_true_eq] at here
    have apart : row.id ≠ thread := fun eq => itself (by rw [← here.1, eq])
    have mem : row ∈ others table name thread :=
      (perm_ordered _).symm.subset (mem_filter.mpr ⟨mem_of_find?_eq_some hit,
        by simp [here.2, apart]⟩)
    have place : row.place = upper := by rw [ThreadRow.place, equal, Option.getD_some]
    have sorted := rising.sorted
    have nodup := nodup_ids_others ids name thread
    obtain ⟨front, back, split⟩ := append_of_mem mem
    rw [split, map_append, map_cons, nodup_middle, nodup_cons, here.1] at nodup
    rw [split, pairwise_append, pairwise_cons, place] at sorted
    obtain ⟨-, ⟨above, -⟩, below⟩ := sorted
    refine ⟨front, row :: back, split, ?_, ?_⟩
    · have fst : ∀ id ∈ front.map (·.id), decide (id ≠ before) = true := fun id mem =>
        decide_eq_true fun eq => nodup.1 (mem_append_left _ (eq ▸ mem))
      rw [split, map_append, map_cons, here.1, insertBefore, if_pos (by simp),
        takeWhile_append_of_pos fst, dropWhile_append_of_pos fst]
      simp
    have smaller : (front.map (·.place)).filter (· < upper) = front.map (·.place) :=
      filter_eq_self.mpr <| forall_mem_map.mpr fun other mem =>
        decide_eq_true (place ▸ below other mem row mem_cons_self)
    have larger : (back.map (·.place)).filter (· < upper) = [] :=
      filter_eq_nil_iff.mpr <| forall_mem_map.mpr fun other mem =>
        by simpa using (above other mem).le
    rw [split, map_append, map_cons, filter_append, smaller, place,
      filter_cons_of_neg (by simp), larger, append_nil, head?_cons]

omit [LinearOrder I] in
theorem between_of_positionBetween (rising : Increasing (front ++ back))
    (chosen : positionBetween (front.map (·.place)).max? (back.map (·.place)).head? = some pos) :
    0 < pos ∧ (∀ row ∈ front, row.place < pos) ∧ ∀ row ∈ back, pos < row.place := by
  obtain ⟨positive, ord⟩ := rising
  rw [pairwise_append] at ord
  rw [forall_mem_append] at positive
  have le : ∀ lower ∈ (front.map (·.place)).max?, 0 < lower ∧ ∀ row ∈ front, row.place ≤ lower := by
    intro lower largest
    obtain ⟨mem, most⟩ := max?_eq_some_iff.mp largest
    exact ⟨forall_mem_map.mpr positive.1 lower mem, fun row mem => most _ (mem_map_of_mem mem)⟩
  have none : (front.map (·.place)).max? = none → front = [] := by simp
  generalize (front.map (·.place)).max? = lower at chosen le none
  cases back with
  | nil =>
    simp only [map_nil, head?_nil, positionBetween, Option.ite_none_right_eq_some,
      Option.some.injEq] at chosen
    obtain ⟨-, rfl⟩ := chosen
    cases lower with
    | none => simp [none rfl, sectionPositionGap]
    | some lower =>
      have := le lower rfl
      refine ⟨Int.add_pos this.1 (by decide), fun row mem => ?_, nofun⟩
      exact Int.lt_add_of_le_of_pos (this.2 row mem) (by decide)
  | cons next back =>
    have above := (pairwise_cons.mp ord.2.1).1
    suffices 0 < pos ∧ (∀ row ∈ front, row.place < pos) ∧ pos < next.place from
      ⟨this.1, this.2.1, forall_mem_cons.mpr
        ⟨this.2.2, fun row mem => this.2.2.trans (above row mem)⟩⟩
    cases lower with
    | none =>
      simp only [map_cons, head?_cons, positionBetween, Option.ite_none_right_eq_some,
        Option.some.injEq] at chosen
      exact ⟨by omega, by simp [none rfl], by omega⟩
    | some lower =>
      simp only [map_cons, head?_cons, positionBetween, Option.ite_none_right_eq_some,
        Option.some.injEq] at chosen
      obtain ⟨least, most⟩ := le lower rfl
      refine ⟨by omega, fun row mem => ?_, by omega⟩
      have := most row mem
      omega

theorem positionBetween_none {lower upper : Option Int} {count : ℕ}
    (fst : ∀ place ∈ lower, ∃ k : ℕ, k < count ∧ place = (k + 1) * sectionPositionGap)
    (last : ∀ place ∈ upper, (∃ k : ℕ, place = (k + 1) * sectionPositionGap) ∧
      ∀ below ∈ lower, below < place)
    (full : positionBetween lower upper = none) : 2 ^ 63 ≤ (count + 1) * sectionPositionGap := by
  simp only [sectionPositionGap] at fst last ⊢
  cases lower with
  | none =>
    cases upper with
    | none => simp [positionBetween, sectionPositionGap] at full
    | some upper =>
      obtain ⟨⟨k, rfl⟩, -⟩ := last upper rfl
      simp only [positionBetween, ite_eq_right_iff, reduceCtorEq, imp_false] at full
      omega
  | some lower =>
    obtain ⟨j, less, rfl⟩ := fst lower rfl
    cases upper with
    | none =>
      simp only [positionBetween, ite_eq_right_iff, reduceCtorEq, imp_false,
        Option.getD_some] at full
      simp only [sectionPositionGap] at full
      omega
    | some upper =>
      obtain ⟨⟨k, rfl⟩, less⟩ := last upper rfl
      simp only [positionBetween, ite_eq_right_iff, reduceCtorEq, imp_false] at full
      have := less _ rfl
      omega

open Function

theorem map_id_renumberSectionPositions :
    (renumberSectionPositions table name thread).map (·.id) = table.map (·.id) := by
  rw [renumberSectionPositions, map_map]
  refine map_congr_left fun row _ => ?_
  rw [comp_apply]
  split <;> rfl

theorem filter_renumberSectionPositions (other : Text) :
    ((renumberSectionPositions table name thread).filter fun row =>
        row.isIn other && row.id ≠ thread) =
      (table.filter fun row => row.isIn other && row.id ≠ thread).map
        (if other = name then
          ThreadRow.numbered ((others table name thread).map (·.id)) else id) := by
  simp only [renumberSectionPositions]
  generalize (others table name thread).map (·.id) = ids
  rw [filter_map]
  refine (congr_arg _ (filter_congr fun row _ => ?_)).trans (map_congr_left fun row mem => ?_)
  · rw [comp_apply]
    split <;> rfl
  have ins := (mem_filter.mp mem).2
  simp only [Bool.and_eq_true, decide_eq_true_eq] at ins
  by_cases here : other = name <;> simp [ins, here]

/-- Renumbering keeps the order of the section, at multiples of the gap. -/
theorem others_renumberSectionPositions (ids : (table.map (·.id)).Nodup)
    (name : Text) (thread : I) :
    others (renumberSectionPositions table name thread) name thread = (others table name thread).map
          (ThreadRow.numbered ((others table name thread).map (·.id))) ∧
      Increasing (others (renumberSectionPositions table name thread) name thread) := by
  have nodup := nodup_ids_others ids name thread
  have eq : (table.filter fun row => row.isIn name && row.id ≠ thread).Perm
    (others table name thread) := (perm_ordered _).symm
  rw [others, filter_renumberSectionPositions, if_pos rfl]
  generalize others table name thread = rows at nodup eq ⊢
  have rising : Increasing (rows.map (ThreadRow.numbered (rows.map (·.id)))) := by
    refine ⟨forall_mem_map.mpr fun row _ => Int.mul_pos (by omega) (by decide), ?_⟩
    rw [pairwise_map, pairwise_iff_getElem]
    intro i j hi hj less
    have index : ∀ k (hk : k < rows.length), (rows.map (·.id)).idxOf rows[k].id = k := by
      intro k hk
      have index := nodup.idxOf_getElem k ((length_map _).symm ▸ hk)
      rwa [getElem_map] at index
    simp only [ThreadRow.numbered, ThreadRow.place, Option.getD_some, index]
    exact Int.mul_lt_mul_of_pos_right (by omega) (by decide)
  rw [rising.ordered_eq (eq.map _)]
  exact ⟨rfl, rising⟩

theorem choosePosition_renumbered (ids : (table.map (·.id)).Nodup) (itself : before ≠ some thread)
    (full : choosePosition (renumberSectionPositions table name thread) name thread before =
      .ok none) : Overflows table name thread := by
  obtain ⟨eq, rising⟩ := others_renumberSectionPositions ids name thread
  rw [← map_id_renumberSectionPositions] at ids
  obtain ⟨front, back, split, -, none⟩ := choosePosition_eq rising ids itself full
  have multiple : ∀ row ∈ front ++ back, ∃ k : ℕ, k < (others table name thread).length ∧
      row.place = (k + 1) * sectionPositionGap := by
    rw [← split, eq, forall_mem_map]
    refine fun row mem => ⟨_, ?_, rfl⟩
    simpa using idxOf_lt_length_of_mem (mem_map_of_mem (f := (·.id)) mem)
  rw [split] at rising
  obtain ⟨-, -, across⟩ := pairwise_append.mp rising.sorted
  refine positionBetween_none (fun place largest => ?_) (fun place fst => ?_) none.symm
  · obtain ⟨row, mem, rfl⟩ := mem_map.mp (max?_mem largest)
    exact multiple row (mem_append_left _ mem)
  obtain ⟨row, mem, rfl⟩ := mem_map.mp (mem_of_head? fst)
  obtain ⟨k, -, equal⟩ := multiple row (mem_append_right _ mem)
  refine ⟨⟨k, equal⟩, fun below largest => ?_⟩
  obtain ⟨other, ins, rfl⟩ := mem_map.mp (max?_mem largest)
  exact across other ins row mem

theorem map_id_updateThread (tgt : Option Text) (place : Option Int) :
    (updateThread table thread tgt place).map (·.id) = table.map (·.id) := by
  rw [updateThread, map_map]
  refine map_congr_left fun row _ => ?_
  rw [comp_apply]
  split <;> rfl

theorem sectionMovePosition_spec (placed : WellPlaced table) (itself : before ≠ some thread)
    (success : sectionMovePosition table name thread before = .ok (moved, pos)) :
    moved.map (·.id) = table.map (·.id) ∧
      (∀ other ≠ name, others moved other thread = others table other thread) ∧
      ∃ front back, others moved name thread = front ++ back ∧ Increasing (front ++ back) ∧
        insertBefore before thread ((sectionOrder table name).erase thread) =
          some (front.map (·.id) ++ thread :: back.map (·.id)) ∧
        positionBetween (front.map (·.place)).max? (back.map (·.place)).head? = some pos := by
  obtain ⟨rising, tl⟩ := placed.others name thread
  simp only [sectionMovePosition] at success
  split at success
  · cases success
  next place chosen =>
    cases success
    obtain ⟨front, back, split, put, choice⟩ :=
      choosePosition_eq rising placed.ids itself chosen
    exact ⟨rfl, fun _ _ => rfl, front, back, split, split ▸ rising, tl ▸ put, choice.symm⟩
  split at success
  · cases success
  next place chosen =>
    cases success
    obtain ⟨eq, rising⟩ := others_renumberSectionPositions placed.ids name thread
    have ids := placed.ids
    rw [← map_id_renumberSectionPositions] at ids
    obtain ⟨front, back, split, put, choice⟩ := choosePosition_eq rising ids itself chosen
    rw [eq, map_map] at put
    refine ⟨map_id_renumberSectionPositions, fun other apart => ?_, front, back, split,
      split ▸ rising, tl ▸ put, choice.symm⟩
    rw [others, filter_renumberSectionPositions, if_neg apart, map_id, others]
  · cases success

/-- One move is the list edit, in a table that shows the new order of every section. -/
theorem SectionMove.run_shows (placed : WellPlaced table)
    (success : move.run table = .ok (moved, true)) :
    (moved.map (·.id)).Nodup ∧ ∃ order, move.edit (sectionOrder table) = some order ∧
      ∀ name, Shows moved name (order name) := by
  obtain ⟨secs, thread, tgt, before⟩ := move
  have present : ¬(table.find? (·.id = thread)).isNone → thread ∈ table.map (·.id) := by simp
  have left : ∀ moved : List (ThreadRow I), ∀ name,
      (moved.filter (·.isIn name)).Perm (others table name thread) →
        Shows moved name ((sectionOrder table name).erase thread) := fun moved name eq =>
    ⟨_, (placed.others name thread).1, eq, (placed.others name thread).2⟩
  cases tgt with
  | none =>
    simp only [SectionMove.run, moveThreadToSection] at success
    split_ifs at success with early absent
    · cases success
    cases success
    obtain ⟨row, -, -, eq⟩ := filter_updateThread placed.ids (present absent) none none
    rw [map_id_updateThread]
    exact ⟨placed.ids, _, rfl, fun name => left _ name (eq name)⟩
  | some name =>
    simp only [SectionMove.run, moveThreadToSection, Option.isNone_some, Bool.false_and,
      Bool.false_eq_true, if_false] at success
    split_ifs at success with absent unknown itself elsewhere
    · cases success
    split at success
    · cases success
    next renumbered pos chosen =>
    cases success
    obtain ⟨ids, apart, front, back, split, rising, put, choice⟩ :=
      sectionMovePosition_spec placed itself chosen
    have nodup := ids ▸ placed.ids
    obtain ⟨row, eq, place, parts⟩ :=
      filter_updateThread nodup (ids ▸ present absent) (some name) (some pos)
    rw [map_id_updateThread]
    refine ⟨nodup, _, congr_arg (Option.map _) put, fun other => ?_⟩
    by_cases here : other = name
    · subst here
      have val : row.place = pos := by rw [ThreadRow.place, place, Option.getD_some]
      obtain ⟨positive, below, above⟩ := between_of_positionBetween rising (val ▸ choice)
      rw [update_self]
      refine ⟨_, rising.insert positive below above, (parts other).trans ?_, ?_⟩
      · rw [if_pos rfl, singleton_append, split]
        exact perm_middle.symm
      · rw [map_append, map_cons, eq]
    rw [update_of_ne here]
    refine left _ other ((parts other).trans ?_)
    rw [if_neg (by simpa using Ne.symm here), nil_append, apart other here]

theorem choosePosition_ne_noPositions :
    choosePosition table name thread before ≠ .error .noPositions := by
  cases before with
  | none => exact nofun
  | some before =>
    simp only [choosePosition]
    split <;> exact nofun

theorem SectionMove.run_noPositions (ids : (table.map (·.id)).Nodup)
    (full : move.run table = .error .noPositions) :
    ∃ name, move.target = some name ∧ Overflows table name move.thread := by
  obtain ⟨secs, thread, tgt, before⟩ := move
  cases tgt with
  | none =>
    simp only [SectionMove.run, moveThreadToSection] at full
    split_ifs at full
    cases full
  | some name =>
    refine ⟨name, rfl, ?_⟩
    simp only [SectionMove.run, moveThreadToSection, Option.isNone_some, Bool.false_and,
      Bool.false_eq_true, if_false] at full
    split_ifs at full with absent unknown itself elsewhere
    any_goals cases full
    split at full
    next error failed =>
      cases full
      simp only [sectionMovePosition] at failed
      split at failed
      next chosen =>
        cases failed
        exact absurd chosen choosePosition_ne_noPositions
      · cases failed
      split at failed
      next chosen =>
        cases failed
        exact absurd chosen choosePosition_ne_noPositions
      · cases failed
      next chosen => exact choosePosition_renumbered ids itself chosen
    · cases full

/-- Moves that succeed edit the order of the sections, and keep it shown by positions. -/
theorem runMoves_sectionOrder {moves : List (SectionMove I)} (placed : WellPlaced table)
    (success : runMoves table moves = some moved) :
    WellPlaced moved ∧
      moves.foldlM SectionMove.edit (sectionOrder table) = some (sectionOrder moved) ∧
      ∀ move : SectionMove I, move.run moved = .error .noPositions →
        ∃ name, move.target = some name ∧ Overflows moved name move.thread := by
  induction moves generalizing table with
  | nil =>
    cases success
    exact ⟨placed, rfl, fun _ => SectionMove.run_noPositions placed.ids⟩
  | cons move moves ih =>
    rw [runMoves] at success
    split at success
    next next res =>
      obtain ⟨ids, order, edited, shows⟩ := move.run_shows placed res
      obtain rfl : sectionOrder next = order := funext fun name => (shows name).sectionOrder_eq
      rw [foldlM_cons, edited]
      exact ih (wellPlaced_of_shows ids fun name => ⟨_, shows name⟩) success
    · cases success

theorem runMoves_sectionOrder_renumbered :
    let row : ℕ → Text → Int → ThreadRow ℕ := fun id name pos =>
      ⟨id, 0, 0, 0, [], [], [], [], none, [], false, some name, some pos, none⟩
    let table := [row 1 ['a'] 1, row 2 ['a'] 2, row 3 ['b'] 3]
    let moves := [⟨[['a']], 3, some ['a'], some 2⟩, ⟨[], 1, none, none⟩]
    ∃ moved, runMoves table moves = some moved ∧ sectionOrder moved ['a'] = [3, 2] ∧
      WellPlaced moved := by
  intro row table moves
  have positive : ∀ row ∈ table, 0 < row.place := by decide
  have distinct : (table.map (·.place)).Nodup := by decide
  have placed : WellPlaced table :=
    ⟨by decide, fun name row mem => positive row (mem_of_mem_filter mem),
      fun name => distinct.sublist (filter_sublist.map _)⟩
  obtain ⟨moved, run, order⟩ := Option.map_eq_some_iff.mp
    (by decide +kernel : (runMoves table moves).map (sectionOrder · ['a']) = some [3, 2])
  exact ⟨moved, run, order, (runMoves_sectionOrder placed run).1⟩

end Codex.State
