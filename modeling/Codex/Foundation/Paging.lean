import Mathlib.Data.List.Sort

/-!
# Paging

A query returns a page of rows behind a cursor and the next cursor.
-/

namespace Codex.Paging

open List

section

variable {α : Type} (r : α → α → Prop) (p : α → Bool)

theorem filter_orderedInsert [DecidableRel r] [IsTrans α r] {rows : List α}
    (ord : rows.Pairwise r) (row : α) :
    (rows.orderedInsert r row).filter p =
      if p row then (rows.filter p).orderedInsert r row else rows.filter p := by
  induction rows with
  | nil => by_cases kept : p row = true <;> simp [kept]
  | cons fst rows ih =>
    obtain ⟨least, ord⟩ := pairwise_cons.mp ord
    by_cases pre : r row fst
    · rw [orderedInsert_cons_of_le r rows pre]
      by_cases kept : p row = true
      · -- the new row is before everything that is kept
        have all : ∀ other ∈ (fst :: rows).filter p, r row other := by
          intro other mem
          rcases mem_cons.mp (mem_of_mem_filter mem) with rfl | mem
          · exact pre
          · exact IsTrans.trans row fst other pre (least other mem)
        rw [filter_cons_of_pos kept, if_pos kept]
        cases others : (fst :: rows).filter p with
        | nil => rfl
        | cons other rest =>
          rw [orderedInsert_cons_of_le r rest (all other (by simp [others]))]
      · rw [filter_cons_of_neg kept, if_neg kept]
    rw [orderedInsert_of_not_le r rows pre]
    by_cases keptFirst : p fst = true
    · rw [filter_cons_of_pos keptFirst, filter_cons_of_pos keptFirst, ih ord]
      split_ifs
      · rw [orderedInsert_of_not_le r _ pre]
      · rfl
    · rw [filter_cons_of_neg keptFirst, filter_cons_of_neg keptFirst, ih ord]

theorem filter_insertionSort [DecidableRel r] [IsTrans α r] [Std.Total r] (rows : List α) :
    (rows.insertionSort r).filter p = (rows.filter p).insertionSort r := by
  induction rows with
  | nil => rfl
  | cons row rows ih =>
    rw [insertionSort_cons, filter_orderedInsert r p (pairwise_insertionSort r rows), ih]
    by_cases kept : p row = true
    · rw [if_pos kept, filter_cons_of_pos kept, insertionSort_cons]
    · rw [if_neg kept, filter_cons_of_neg kept]

variable {r p}

theorem filter_suffix {rows : List α} (ord : rows.Pairwise r)
    (upward : ∀ row, ∀ other ∈ rows, r row other → p row = true → p other = true) :
    rows.filter p <:+ rows := by
  induction rows with
  | nil => exact suffix_refl _
  | cons fst rows ih =>
    obtain ⟨least, ord⟩ := pairwise_cons.mp ord
    by_cases kept : p fst = true
    · have all : ∀ other ∈ fst :: rows, p other = true := by
        intro other mem
        rcases mem_cons.mp mem with rfl | below
        · exact kept
        · exact upward fst other mem (least other below) kept
      exact ⟨[], filter_eq_self.mpr all⟩
    rw [filter_cons_of_neg kept]
    have rest := ih ord fun row other mem =>
      upward row other (mem_cons_of_mem fst mem)
    exact rest.trans (suffix_cons _ _)

end

variable {α C E : Type}

/-- The rows of all pages from a cursor on. -/
inductive Visits (page : Option C → Except E (List α × Option C)) : Option C → List α → Prop
  | last {cursor rows} : page cursor = .ok (rows, none) → Visits page cursor rows
  | next {cursor rows next visited} : page cursor = .ok (rows, some next) →
      Visits page (some next) visited → Visits page cursor (rows ++ visited)

def nextCursor (size : Nat) (anchor : α → Option C) (rows : List α) : Option C :=
  if size < rows.length then (rows.take size).getLast?.bind anchor else none

structure Serves (page : Option C → Except E (List α × Option C)) (size : Nat)
    (rows : Option C → List α) (anchor : α → Option C) (readable : α → Prop) : Prop where
  reads : ∀ cursor, (∀ row ∈ (rows cursor).take (size + 1), readable row) →
    page cursor = .ok ((rows cursor).take size, nextCursor size anchor (rows cursor))
  fails : ∀ cursor, (∃ row ∈ (rows cursor).take (size + 1), ¬ readable row) →
    ∃ error, page cursor = .error error

def Continues (size : Nat) (rows : Option C → List α) (anchor : α → Option C) : Prop :=
  ∀ index, 0 < index → index * size < (rows none).length →
    ∃ last cursor, (rows none)[index * size - 1]? = some last ∧ anchor last = some cursor ∧
      rows (some cursor) = (rows none).drop (index * size)

section

variable {page : Option C → Except E (List α × Option C)} {size : Nat} {rows : Option C → List α}
  {anchor : α → Option C} {readable : α → Prop}
  {all : List α} {cursor : Option C} {visited : List α}

theorem getLast?_take_drop {start : Nat} (positive : 0 < size) (long : start + size < all.length) :
    ((all.drop start).take size).getLast? = all[start + size - 1]? := by
  rw [getLast?_take, if_neg (by omega), getElem?_drop]
  have inside : start + (size - 1) < all.length := by omega
  have eq : start + size - 1 = start + (size - 1) := by omega
  rw [eq, getElem?_eq_getElem inside]
  rfl

theorem exists_last {next : C} (some : nextCursor size anchor all = some next) :
    size < all.length ∧ ∃ last ∈ all.take size, anchor last = .some next ∧
      (all.take size).getLast? = .some last := by
  rw [nextCursor] at some
  split_ifs at some with long
  obtain ⟨last, final, made⟩ := Option.bind_eq_some_iff.mp some
  exact ⟨long, last, mem_of_getLast? final, made, final⟩

section

variable (serves : Serves page size rows anchor readable)
include serves

theorem Serves.visits_from (positive : 0 < size)
    (reads : ∀ row ∈ rows none, readable row) (goes : Continues size rows anchor) {idx : Nat}
    (eq : rows cursor = (rows none).drop (idx * size)) : Visits page cursor (rows cursor) := by
  induction left : (rows none).length - idx * size using Nat.strong_induction_on
    generalizing idx cursor with
  | _ left ih =>
    have served := serves.reads cursor fun row mem =>
      reads row (mem_of_mem_drop (eq ▸ mem_of_mem_take mem))
    have length : (rows cursor).length = (rows none).length - idx * size := by
      rw [eq, length_drop]
    have after : (idx + 1) * size = idx * size + size := Nat.succ_mul idx size
    by_cases long : size < (rows cursor).length
    · obtain ⟨last, next, atEnd, made, rest⟩ := goes (idx + 1) (by omega) (by omega)
      have cursor? : nextCursor size anchor (rows cursor) = some next := by
        rw [nextCursor, if_pos long, eq, getLast?_take_drop positive (by omega), ← after, atEnd]
        exact made
      have split : rows cursor = (rows cursor).take size ++ rows (some next) := by
        rw [rest, after, ← drop_drop, ← eq, take_append_drop]
      rw [cursor?] at served
      have visited := ih _ (by omega) rest rfl
      rw [split]
      exact .next served visited
    rw [nextCursor, if_neg long, take_of_length_le (by omega)] at served
    exact .last served

theorem Serves.visits (positive : 0 < size)
    (reads : ∀ row ∈ rows none, readable row) (goes : Continues size rows anchor) :
    Visits page none (rows none) :=
  serves.visits_from positive reads goes (by rw [Nat.zero_mul, drop_zero])

theorem Serves.visits_cases (visits : Visits page cursor visited) :
    (∀ row ∈ (rows cursor).take (size + 1), readable row) ∧
      (nextCursor size anchor (rows cursor) = none ∧ visited = (rows cursor).take size ∨
        ∃ next rest, nextCursor size anchor (rows cursor) = some next ∧
          Visits page (some next) rest ∧ visited = (rows cursor).take size ++ rest) := by
  have reads : ∀ row ∈ (rows cursor).take (size + 1), readable row := by
    by_contra unreadable
    push Not at unreadable
    obtain ⟨error, failed⟩ := serves.fails cursor unreadable
    cases visits with
    | last served => cases failed.symm.trans served
    | next served => cases failed.symm.trans served
  refine ⟨reads, ?_⟩
  have known := serves.reads cursor reads
  cases visits with
  | last served =>
    obtain ⟨eq, none⟩ := Prod.mk.inj (Except.ok.inj (known.symm.trans served))
    exact .inl ⟨none, eq.symm⟩
  | next served visited =>
    obtain ⟨eq, some⟩ := Prod.mk.inj (Except.ok.inj (known.symm.trans served))
    exact .inr ⟨_, _, some, visited, eq ▸ rfl⟩

theorem Serves.exists_page (visits : Visits page cursor visited) {row : α} (mem : row ∈ visited) :
    row ∈ (rows cursor).take size ∨ ∃ front back last next, visited = front ++ back ∧
      last ∈ front ∧ anchor last = some next ∧ Visits page (some next) back ∧
      row ∈ (rows (some next)).take size := by
  induction count : visited.length using Nat.strong_induction_on
    generalizing cursor visited with
  | _ length ih =>
    obtain ⟨_, ⟨_, rfl⟩ | ⟨next, rest, some, later, rfl⟩⟩ := serves.visits_cases visits
    · exact .inl mem
    obtain ⟨_, last, inPage, made, _⟩ := exists_last some
    rcases mem_append.mp mem with mem | mem
    · exact .inl mem
    have lt : rest.length < length := by
      rw [length_append] at count
      have := length_pos_of_mem inPage
      omega
    right
    rcases ih _ lt later mem rfl with
      fst | ⟨front, back, final, cursor, rfl, inFront, past⟩
    · exact ⟨_, rest, last, next, rfl, inPage, made, later, fst⟩
    · exact ⟨_, back, final, cursor, (append_assoc ..).symm, mem_append_right _ inFront, past⟩

end

section

variable {start pos : Nat}

theorem mem_take_of_lt (pre : pos < start) (inside : pos < all.length) :
    all[pos] ∈ all.take start := by
  rw [mem_take_iff_getElem]
  exact ⟨pos, by omega, rfl⟩

theorem mem_take_drop (fst : start ≤ pos) (last : pos < start + size)
    (inside : pos < all.length) : all[pos] ∈ (all.drop start).take size := by
  have idx : (all.drop start)[pos - start]? = some all[pos] := by
    rw [getElem?_drop, Nat.add_sub_of_le fst, getElem?_eq_getElem inside]
  have kept : ((all.drop start).take size)[pos - start]? = some all[pos] := by
    rw [getElem?_take_of_lt (by omega), idx]
  exact mem_of_getElem? kept

theorem le_of_mem_drop (unique : all.Nodup) (inside : pos < all.length)
    (mem : all[pos] ∈ all.drop start) : start ≤ pos := by
  obtain ⟨idx, bound, eq⟩ := mem_iff_getElem.mp mem
  rw [getElem_drop] at eq
  have := (unique.getElem_inj_iff).mp eq
  omega

theorem eq_drop_iff {part : List α} (unique : all.Nodup) (suffix : part <:+ all)
    (positive : 0 < start) (inside : start < all.length) :
    part = all.drop start ↔ all[start - 1] ∉ part ∧ all[start] ∈ part := by
  constructor
  · rintro rfl
    refine ⟨fun mem => ?_, mem_of_getElem? (i := 0) ?_⟩
    · have := le_of_mem_drop unique (by omega) mem
      omega
    · rw [getElem?_drop, Nat.add_zero, getElem?_eq_getElem inside]
  rintro ⟨pre, here⟩
  obtain ⟨first, rfl⟩ : ∃ first, part = all.drop first :=
    ⟨_, suffix_iff_eq_drop.mp suffix⟩
  have early := le_of_mem_drop unique inside here
  have late : start - 1 < first := by
    by_contra reaches
    refine pre (mem_of_getElem? (i := start - 1 - first) ?_)
    rw [getElem?_drop, Nat.add_sub_of_le (by omega), getElem?_eq_getElem (by omega)]
  have eq : first = start := by omega
  rw [eq]

end

section

variable {order : α → α → Prop} (serves : Serves page size rows anchor readable)
  (positive : 0 < size) (unique : (rows none).Nodup)
  (suffix : ∀ cursor, rows (some cursor) <:+ rows none)

include serves

variable {start : Nat} {rest : List α}

theorem Serves.take_subset (visits : Visits page cursor visited) :
    (rows cursor).take size ⊆ visited := by
  obtain ⟨_, ⟨_, rfl⟩ | ⟨next, rest, _, _, rfl⟩⟩ := serves.visits_cases visits
  · exact List.Subset.refl _
  · exact subset_append_left _ _

include suffix

theorem Serves.subset_rows {cursor : C} (visits : Visits page (some cursor) visited) :
    visited ⊆ rows none := by
  intro row mem
  rcases serves.exists_page visits mem with
    first | ⟨_, _, _, next, _, _, _, _, later⟩
  · exact (suffix cursor).subset (mem_of_mem_take first)
  · exact (suffix next).subset (mem_of_mem_take later)

include positive unique

theorem Serves.starts_at {cursor : C} (inside : start < (rows none).length)
    (visits : Visits page (some cursor) rest) (fresh : ∀ row ∈ (rows none).take start, row ∉ rest)
    (mem : (rows none)[start] ∈ rows (some cursor)) :
    rows (some cursor) = (rows none).drop start := by
  obtain ⟨first, eq⟩ : ∃ first, rows (some cursor) = (rows none).drop first :=
    ⟨_, suffix_iff_eq_drop.mp (suffix cursor)⟩
  have early : first ≤ start := le_of_mem_drop unique inside (eq ▸ mem)
  rcases Nat.lt_or_eq_of_le early with earlier | rfl
  · have shown : (rows none)[first] ∈ (rows (some cursor)).take size := by
      rw [eq]
      exact mem_take_drop le_rfl (by omega) (by omega)
    exact absurd (serves.take_subset visits shown)
      (fresh _ (mem_take_of_lt earlier (by omega)))
  · exact eq

variable
  -- a row that comes back behind an equal row also comes back behind the rows between them
  (tied : ∀ first middle last : Nat, first ≤ middle → middle < last →
    ∀ (firstInside : first < (rows none).length) (middleInside : middle < (rows none).length)
      (inside : last < (rows none).length) (cursor : C),
      order (rows none)[last] (rows none)[first] → anchor (rows none)[last] = some cursor →
      (rows none)[first] ∈ rows (some cursor) → readable (rows none)[middle] →
      ∃ other, anchor (rows none)[middle] = some other ∧ (rows none)[first] ∈ rows (some other))

include tied

theorem Serves.not_skipped {cursor : C} (inside : start < (rows none).length)
    (skips : (rows none)[start] ∉ rows (some cursor)) (visits : Visits page (some cursor) rest)
    (once : ((rows none).take start ++ rest).Nodup) (ord : rest.Pairwise order) :
    (rows none)[start] ∉ rest := by
  intro visited
  have fresh : ∀ row ∈ (rows none).take start, row ∉ rest := fun row mem later =>
    disjoint_of_nodup_append once mem later
  rcases serves.exists_page visits visited with
    first | ⟨front, back, last, next, rfl, inFront, made, later, inPage⟩
  · exact skips (mem_of_mem_take first)
  have freshBack : ∀ row ∈ (rows none).take start, row ∉ back := fun row mem inBack =>
    fresh row mem (mem_append_right _ inBack)
  have starts := serves.starts_at positive unique suffix inside later freshBack
    (mem_of_mem_take inPage)
  -- the page before ended with a row from behind the skipped page
  obtain ⟨pos, bound, rfl⟩ := getElem_of_mem
    (serves.subset_rows suffix visits (mem_append_left _ inFront))
  have onlyFront : (rows none)[pos] ∉ back := fun inBack =>
    disjoint_of_nodup_append (nodup_append'.mp once).2.1 inFront inBack
  have far : start + size ≤ pos := by
    by_contra near
    by_cases pre : pos < start
    · exact fresh _ (mem_take_of_lt pre bound) (mem_append_left _ inFront)
    refine onlyFront (serves.take_subset later ?_)
    rw [starts]
    exact mem_take_drop (by omega) (by omega) bound
  have inBack := serves.take_subset later inPage
  have equal : order (rows none)[pos] (rows none)[start] :=
    (pairwise_append.mp ord).2.2 _ inFront _ inBack
  obtain ⟨reads, past⟩ := serves.visits_cases later
  obtain ⟨other, more, returns⟩ := tied start (start + size - 1) pos (by omega) (by omega)
    inside (by omega) bound next equal made (mem_of_mem_take inPage)
    (reads _ (starts ▸ mem_take_drop (by omega) (by omega) (by omega)))
  have cursor? : nextCursor size anchor (rows (some next)) = some other := by
    rw [nextCursor, starts, length_drop, if_pos (by omega),
      getLast?_take_drop positive (by omega), getElem?_eq_getElem (by omega)]
    exact more
  obtain ⟨none, _⟩ | ⟨again, after, some, afterVisits, rfl⟩ := past
  · cases cursor?.symm.trans none
  obtain rfl : other = again := Option.some.inj (cursor?.symm.trans some)
  have repeats := serves.starts_at positive unique suffix inside afterVisits
    (fun row mem inAfter => freshBack row mem (mem_append_right _ inAfter)) returns
  have twice : (rows none)[start] ∈ after := by
    refine serves.take_subset afterVisits ?_
    rw [repeats]
    exact mem_take_drop le_rfl (by omega) inside
  exact disjoint_of_nodup_append
    (nodup_append'.mp (nodup_append'.mp once).2.1).2.1 inPage twice

theorem Serves.continues_from {idx : Nat} {cursor : Option C}
    (eq : rows cursor = (rows none).drop (idx * size)) (visits : Visits page cursor visited)
    (once : ((rows none).take (idx * size) ++ visited).Nodup)
    (full : ∀ row ∈ rows none, row ∈ (rows none).take (idx * size) ++ visited)
    (ord : visited.Pairwise order) :
    (∀ row ∈ rows cursor, readable row) ∧ ∀ later, idx < later → later * size < (rows none).length →
        ∃ last next, (rows none)[later * size - 1]? = some last ∧ anchor last = some next ∧
          rows (some next) = (rows none).drop (later * size) := by
  induction count : visited.length using Nat.strong_induction_on
    generalizing idx cursor visited with
  | _ length ih =>
    have after : (idx + 1) * size = idx * size + size := Nat.succ_mul idx size
    have passed : (rows none).take ((idx + 1) * size) =
        (rows none).take (idx * size) ++ (rows cursor).take size := by
      rw [after, take_add, eq]
    have total : (rows cursor).length = (rows none).length - idx * size := by
      rw [eq, length_drop]
    have notPassed : ∀ inside : (idx + 1) * size < (rows none).length,
        (rows none)[(idx + 1) * size] ∉ (rows none).take ((idx + 1) * size) := by
      intro inside mem
      obtain ⟨pos, bound, equal⟩ := mem_take_iff_getElem.mp mem
      have := unique.getElem_inj_iff.mp equal
      omega
    obtain ⟨reads, ⟨stopped, rfl⟩ | ⟨next, rest, some, later, rfl⟩⟩ := serves.visits_cases visits
    · have short : ¬ (idx + 1) * size < (rows none).length := by
        intro inside
        have hit := full _ (getElem_mem inside)
        rw [← passed] at hit
        exact notPassed inside hit
      refine ⟨fun row mem => reads row ?_, fun other past inside => ?_⟩
      · rw [take_of_length_le (by omega)]
        exact mem
      have := Nat.mul_le_mul_right size (show idx + 1 ≤ other by omega)
      omega
    obtain ⟨long, last, inPage, made, final⟩ := exists_last some
    have inside : (idx + 1) * size < (rows none).length := by omega
    rw [← append_assoc, ← passed] at once full
    have orderedRest := (pairwise_append.mp ord).2.1
    have hit : (rows none)[(idx + 1) * size] ∈ rest :=
      (mem_append.mp (full _ (getElem_mem inside))).resolve_left
        (notPassed inside)
    have shown : (rows none)[(idx + 1) * size] ∈ rows (.some next) := by
      by_contra skips
      exact serves.not_skipped positive unique suffix tied inside skips later once orderedRest
        hit
    have starts := serves.starts_at positive unique suffix inside later
      (fun row mem again => disjoint_of_nodup_append once mem again) shown
    have lt : rest.length < length := by
      rw [length_append] at count
      have := length_pos_of_mem inPage
      omega
    obtain ⟨readsRest, goes⟩ := ih _ lt starts later once full orderedRest rfl
    have split : rows cursor = (rows cursor).take size ++ rows (.some next) := by
      rw [starts, after, ← drop_drop, ← eq, take_append_drop]
    refine ⟨fun row mem => ?_, fun other past bound => ?_⟩
    · rw [split] at mem
      rcases mem_append.mp mem with mem | mem
      · exact reads row ((take_prefix_take_left (by omega)).subset mem)
      · exact readsRest row mem
    rcases Nat.lt_or_eq_of_le (show idx + 1 ≤ other by omega) with further | rfl
    · exact goes other further bound
    refine ⟨last, next, ?_, made, starts⟩
    rw [← final, eq, after, getLast?_take_drop positive (by omega)]

/-- Every row is visited once and in order exactly if all can be read and every cursor continues. -/
theorem Serves.visits_all_iff (sorted : (rows none).Pairwise order) :
    (∃ visited, Visits page none visited ∧ visited.Perm (rows none) ∧ visited.Pairwise order) ↔
      (∀ row ∈ rows none, readable row) ∧ Continues size rows anchor := by
  constructor
  · rintro ⟨visited, visits, perm, ord⟩
    have start : rows none = (rows none).drop (0 * size) := by rw [Nat.zero_mul, drop_zero]
    refine serves.continues_from positive unique suffix tied start visits ?_ ?_ ord
    · rw [Nat.zero_mul, take_zero, nil_append]
      exact perm.nodup_iff.mpr unique
    intro row mem
    exact mem_append_right _ (perm.mem_iff.mpr mem)
  rintro ⟨reads, goes⟩
  exact ⟨_, serves.visits positive reads goes, .refl _, sorted⟩

end

end

end Codex.Paging
