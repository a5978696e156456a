import Mathlib.Algebra.Order.Floor.Div

/-!
# Splices and chunks

Edits replace ranges of a list.
-/

namespace Codex

open List

variable {α : Type*} (partner : α → Option α)

def partners (items : List α) (start : Nat) : List (Nat × α) :=
  (items.zipIdx start).filterMap fun entry => (partner entry.1).map fun found => (entry.2, found)

def insertBehind (found : List (Nat × α)) (items : List α) : List α :=
  found.reverse.foldl (fun items entry => items.insertIdx (entry.1 + 1) entry.2) items

variable (drop : α → Bool)

def positions (items : List α) (start : Nat) : List Nat :=
  (items.zipIdx start).filterMap fun entry => if drop entry.1 then some entry.2 else none

def retainOutside : (dropped : List Nat) → (pos : Nat) → List α → List α
  | _, _, [] => []
  | dropped, pos, item :: items =>
    if dropped.head? = some pos then retainOutside dropped.tail (pos + 1) items
    else item :: retainOutside dropped (pos + 1) items

theorem partners_cons (x : α) (xs : List α) (start : Nat) : partners partner (x :: xs) start =
      ((partner x).map fun hit => (start, hit)).toList ++ partners partner xs (start + 1) := by
  cases hit : partner x <;> simp [partners, zipIdx_cons, hit]

theorem insertBehind_append (fst snd : List (Nat × α)) (xs : List α) :
    insertBehind (fst ++ snd) xs = insertBehind fst (insertBehind snd xs) := by
  simp [insertBehind]

theorem insertIdx_length (front back : List α) (x : α) :
    (front ++ back).insertIdx front.length x = front ++ x :: back := by
  induction front with
  | nil => rfl
  | cons fst front ih => simpa using ih

theorem insertBehind_partners (front xs : List α) :
    insertBehind (partners partner xs front.length) (front ++ xs) =
      front ++ xs.flatMap fun x => x :: (partner x).toList := by
  induction xs generalizing front with
  | nil => rfl
  | cons x xs ih =>
    have tl := ih (front ++ [x])
    rw [length_append, length_singleton, append_assoc, singleton_append] at tl
    rw [partners_cons, insertBehind_append, tl, flatMap_cons]
    cases hit : partner x with
    | none => simp [insertBehind]
    | some y =>
      have past : (front ++ [x]).length = front.length + 1 := by simp
      simp only [Option.map_some, Option.toList_some, insertBehind, reverse_singleton,
        foldl_cons, foldl_nil, ← past]
      rw [insertIdx_length]
      simp

theorem positions_cons (x : α) (xs : List α) (start : Nat) : positions drop (x :: xs) start =
      if drop x then start :: positions drop xs (start + 1)
      else positions drop xs (start + 1) := by
  cases dropped : drop x <;> simp [positions, zipIdx_cons, dropped]

theorem le_of_mem_positions {drop : α → Bool} {xs : List α} {start pos : Nat}
    (mem : pos ∈ positions drop xs start) : start ≤ pos := by
  obtain ⟨ent, indexed, hit⟩ := mem_filterMap.mp mem
  have bound := le_snd_of_mem_zipIdx indexed
  split at hit
  · cases hit
    exact bound
  · cases hit

theorem retainOutside_nil (items : List α) (pos : Nat) : retainOutside [] pos items = items := by
  induction items generalizing pos with
  | nil => rfl
  | cons x items ih => simp [retainOutside, ih]

theorem retainOutside_positions (xs : List α) (start : Nat) :
    retainOutside (positions drop xs start) start xs = xs.filter fun item => !drop item := by
  induction xs generalizing start with
  | nil => rfl
  | cons item xs ih =>
    rw [positions_cons, retainOutside]
    cases dropped : drop item with
    | true => simp [dropped, ih]
    | false =>
      have later : (positions drop xs (start + 1)).head? ≠ some start := by
        intro fst
        have bound := le_of_mem_positions (mem_of_mem_head? fst)
        omega
      simp [dropped, later, ih]

end Codex

namespace Codex.Splice

open List

variable {α β : Type}

abbrev Edit (α : Type) := Nat × Nat × List α

def mapEdit (f : α → β) (edit : Edit α) : Edit β := (edit.1, edit.2.1, edit.2.2.map f)

def stop (edit : Edit α) : Nat := edit.1 + edit.2.1

def Ordered (edits : List (Edit α)) : Prop :=
  edits.Pairwise fun fst second => stop fst ≤ second.1

def rebuild (source : List α) (index : Nat) : List (Edit α) → List α
  | [] => source
  | edit :: edits =>
    source.take (edit.1 - index) ++ edit.2.2 ++
      rebuild (source.drop (stop edit - index)) (stop edit) edits

def splice (edit : Edit α) (items : List α) : List α :=
  items.take edit.1 ++ edit.2.2 ++ items.drop (stop edit)

section

variable {r s : α → α → Prop} [DecidableRel r] {items : List α}

theorem pairwise_orderedInsert [IsTrans α r] {x : α} (ord : items.Pairwise r)
    (pairs : items.Pairwise s) (related : ∀ y ∈ items, (r x y → s x y) ∧ (¬ r x y → s y x)) :
    (items.orderedInsert r x).Pairwise s := by
  induction items with
  | nil => exact pairwise_singleton _ _
  | cons fst items ih =>
    obtain ⟨least, ord⟩ := pairwise_cons.mp ord
    obtain ⟨firsts, pairs'⟩ := pairwise_cons.mp pairs
    rw [List.orderedInsert]
    split
    · rename_i pre
      refine pairwise_cons.mpr ⟨fun y mem => ?_, pairs⟩
      refine (related y mem).1 ?_
      rcases mem_cons.mp mem with rfl | mem
      · exact pre
      · exact IsTrans.trans _ _ _ pre (least y mem)
    rename_i after
    have tl := ih ord pairs' fun y mem =>
      related y (mem_cons_of_mem _ mem)
    refine pairwise_cons.mpr ⟨fun y mem => ?_, tl⟩
    rcases (mem_orderedInsert r).mp mem with rfl | mem
    · exact (related fst mem_cons_self).2 after
    · exact firsts y mem

theorem of_pairwise_orderedInsert [IsTrans α r] {x : α}
    (ord : items.Pairwise r) (pairs : (items.orderedInsert r x).Pairwise s) :
    ∀ y ∈ items, (r x y → s x y) ∧ (¬ r x y → s y x) := by
  induction items with
  | nil => simp
  | cons fst items ih =>
    obtain ⟨least, ord⟩ := pairwise_cons.mp ord
    rw [List.orderedInsert] at pairs
    split at pairs
    · rename_i pre
      obtain ⟨related, -⟩ := pairwise_cons.mp pairs
      refine fun y mem => ⟨fun _ => related y mem, fun apart => ?_⟩
      refine absurd ?_ apart
      rcases mem_cons.mp mem with rfl | mem
      · exact pre
      · exact IsTrans.trans _ _ _ pre (least y mem)
    rename_i after
    obtain ⟨firsts, pairs⟩ := pairwise_cons.mp pairs
    refine forall_mem_cons.mpr ⟨⟨fun pre => absurd pre after, fun _ => ?_⟩, ih ord pairs⟩
    exact firsts x ((mem_orderedInsert r).mpr (.inl rfl))

theorem pairwise_insertionSort_iff [IsTrans α r] [Std.Total r] :
    (items.insertionSort r).Pairwise s ↔ items.Pairwise fun fst snd =>
      (r fst snd → s fst snd) ∧ (¬ r fst snd → s snd fst) := by
  induction items with
  | nil => exact iff_of_true .nil .nil
  | cons x items ih =>
    have sorted := pairwise_insertionSort r items
    rw [insertionSort_cons, pairwise_cons, ← ih]
    constructor
    · intro pairs
      refine ⟨fun y mem => ?_, pairs.sublist (sublist_orderedInsert _ _)⟩
      exact of_pairwise_orderedInsert sorted pairs y ((mem_insertionSort r).mpr mem)
    rintro ⟨least, related⟩
    refine pairwise_orderedInsert sorted related ?_
    exact fun y mem => least y ((mem_insertionSort r).mp mem)

end

theorem rebuild_map (f : α → β) (src : List α) (idx : Nat) (edits : List (Edit α)) :
    (rebuild src idx edits).map f = rebuild (src.map f) idx (edits.map (mapEdit f)) := by
  induction edits generalizing src idx with
  | nil => rfl
  | cons edit edits ih =>
    rw [rebuild, map_append, map_append, ih, map_cons, rebuild, map_take, map_drop]
    rfl

variable {edit : Edit α} {edits : List (Edit α)} {items : List α} {start pos fst count : Nat}

theorem infix_rebuild (mem : edit ∈ edits) (src : List α) (idx : Nat) :
    edit.2.2 <:+: rebuild src idx edits := by
  induction edits generalizing src idx with
  | nil => cases mem
  | cons fst edits ih =>
    rw [rebuild]
    rcases mem_cons.mp mem with rfl | mem
    · exact ⟨_, _, rfl⟩
    · exact (ih mem _ _).trans (suffix_append _ _).isInfix

theorem foldr_splice (ord : Ordered edits) {idx : Nat} (ins : idx ≤ items.length)
    (bounds : ∀ edit ∈ edits, idx ≤ edit.1 ∧ stop edit ≤ items.length) :
    edits.foldr splice items = items.take idx ++ rebuild (items.drop idx) idx edits := by
  induction edits generalizing idx with
  | nil => exact (take_append_drop idx items).symm
  | cons edit edits ih =>
    obtain ⟨least, ord⟩ := pairwise_cons.mp ord
    obtain ⟨early, late⟩ := bounds edit mem_cons_self
    have tl := ih ord late fun y mem =>
      ⟨least y mem, (bounds y (mem_cons_of_mem _ mem)).2⟩
    have start : edit.1 ≤ stop edit := Nat.le_add_right _ _
    rw [foldr_cons, tl, splice, rebuild, take_append_of_le_length (by simp; omega),
      take_take, Nat.min_eq_left start, drop_append_of_le_length (by simp; omega),
      drop_take, Nat.sub_self, take_zero, nil_append, drop_drop,
      ← append_assoc, ← append_assoc]
    have front : items.take edit.1 = items.take idx ++ (items.drop idx).take (edit.1 - idx) := by
      rw [← take_add, Nat.add_sub_of_le early]
    rw [front, Nat.add_sub_of_le (by omega)]

def applyEdit (items : List α) (edit : Edit α) : List α :=
  let removed := (List.range edit.2.1).foldl (fun items _ => items.eraseIdx edit.1) items
  edit.2.2.zipIdx.foldl (fun items entry => items.insertIdx (edit.1 + entry.2) entry.1) removed

theorem foldl_eraseIdx (items : List α) (start count : Nat) :
    (List.range count).foldl (fun items _ => items.eraseIdx start) items =
      items.take start ++ items.drop (start + count) := by
  induction count generalizing items with
  | zero => exact (take_append_drop start items).symm
  | succ count ih =>
    have erased : items.eraseIdx start = items.take start ++ items.drop (start + 1) :=
      eraseIdx_eq_take_drop_succ items start
    rw [range_succ_eq_map, foldl_cons, foldl_map, ih]
    by_cases ins : start ≤ items.length
    · have front : (items.take start).length = start := by rw [length_take]; omega
      rw [erased, take_left' front, drop_append, front, drop_of_length_le (by omega),
        nil_append, Nat.add_sub_cancel_left, drop_drop, Nat.add_assoc, Nat.add_comm 1]
    rw [eraseIdx_of_length_le (by omega), drop_of_length_le (by omega),
      drop_of_length_le (by omega)]

theorem foldl_insertIdx {offset : Nat} {front : List α} (count : front.length = start + offset)
    (items back : List α) :
    (items.zipIdx offset).foldl (fun all ent => all.insertIdx (start + ent.2) ent.1)
        (front ++ back) = front ++ items ++ back := by
  induction items generalizing front offset with
  | nil => rw [zipIdx_nil, foldl_nil, append_nil]
  | cons x items ih =>
    have next : (front ++ [x]).length = start + (offset + 1) := by
      rw [length_append, count]
      rfl
    rw [zipIdx_cons, foldl_cons, ← count, insertIdx_length, append_cons,
      ih next, append_assoc front [x] items]
    rfl

theorem applyEdit_eq_splice (ins : edit.1 ≤ items.length) :
    applyEdit items edit = splice edit items := by
  have front : (items.take edit.1).length = edit.1 + 0 := by
    rw [length_take]
    omega
  rw [applyEdit, foldl_eraseIdx]
  exact foldl_insertIdx front _ _

theorem foldl_applyEdit (ord : edits.Pairwise fun fst snd => fst.1 ≤ snd.1)
    (bounds : ∀ edit ∈ edits, edit.1 ≤ items.length) :
    edits.reverse.foldl applyEdit items = edits.foldr splice items ∧
      ∀ start ≤ items.length, (∀ edit ∈ edits, start ≤ edit.1) →
        start ≤ (edits.foldr splice items).length := by
  rw [foldl_reverse]
  induction edits with
  | nil => exact ⟨rfl, fun start ins _ => ins⟩
  | cons edit edits ih =>
    obtain ⟨least, ord⟩ := pairwise_cons.mp ord
    obtain ⟨eq, long⟩ := ih ord fun y mem =>
      bounds y (mem_cons_of_mem _ mem)
    have reaches := long edit.1 (bounds edit mem_cons_self) least
    rw [foldr_cons, foldr_cons, eq, applyEdit_eq_splice reaches]
    refine ⟨rfl, fun start _ pre => ?_⟩
    have := pre edit mem_cons_self
    rw [splice, length_append, length_append, length_take]
    omega

inductive Origin (α : Type)
  | kept (index : Nat)
  | inserted (edit : Nat) (item : α)
  deriving DecidableEq

def Origin.index? : Origin α → Option Nat
  | kept index => some index
  | inserted _ _ => none

def Origin.item? : Origin α → Option α
  | kept _ => none
  | inserted _ item => some item

def label (fst : Nat) (edits : List (Edit α)) : List (Edit (Origin α)) :=
  (edits.zipIdx fst).map fun entry => mapEdit (.inserted entry.2) entry.1

open Origin

section

variable {fst : Nat} {edits : List (Edit α)}

theorem label_cons (fst : Nat) (edit : Edit α) (edits : List (Edit α)) :
    label fst (edit :: edits) = mapEdit (.inserted fst) edit :: label (fst + 1) edits :=
  rfl

variable {q : Edit (Origin α) → Prop} {p : Edit α → Prop}

theorem exists_mem_label (eq : ∀ idx edit, q (mapEdit (.inserted idx) edit) ↔ p edit) :
    (∃ edit ∈ label fst edits, q edit) ↔ ∃ edit ∈ edits, p edit := by
  induction edits generalizing fst with
  | nil => exact iff_of_false (by simp [label]) (by simp)
  | cons edit edits ih =>
    rw [label_cons, exists_mem_cons_iff, exists_mem_cons_iff, ih, eq]

theorem forall_mem_label (eq : ∀ idx edit, q (mapEdit (.inserted idx) edit) ↔ p edit) :
    (∀ edit ∈ label fst edits, q edit) ↔ ∀ edit ∈ edits, p edit := by
  induction edits generalizing fst with
  | nil => exact iff_of_true (by simp [label]) (by simp)
  | cons edit edits ih =>
    rw [label_cons, forall_mem_cons, forall_mem_cons, ih, eq]

theorem pairwise_label {q : Edit (Origin α) → Edit (Origin α) → Prop} {p : Edit α → Edit α → Prop}
    (eq : ∀ idx edit y next,
      q (mapEdit (.inserted idx) edit) (mapEdit (.inserted y) next) ↔ p edit next) :
    (label fst edits).Pairwise q ↔ edits.Pairwise p := by
  induction edits generalizing fst with
  | nil => exact iff_of_true .nil .nil
  | cons edit edits ih =>
    rw [label_cons, pairwise_cons, pairwise_cons, ih,
      forall_mem_label fun y next => eq fst edit y next]

theorem mem_label {idx : Nat} {edit : Edit α} (hit : edits[idx]? = some edit) :
    mapEdit (.inserted (fst + idx)) edit ∈ label fst edits :=
  List.mem_map.mpr ⟨(edit, fst + idx),
    mem_zipIdx_iff_le_and_getElem?_sub.mpr ⟨Nat.le_add_right _ _, by
      rwa [Nat.add_sub_cancel_left]⟩, rfl⟩

theorem map_label {f : Origin α → β} {g : α → β} (eq : ∀ idx x, f (.inserted idx x) = g x) :
    (label fst edits).map (mapEdit f) = edits.map (mapEdit g) := by
  induction edits generalizing fst with
  | nil => rfl
  | cons edit edits ih =>
    have here : f ∘ inserted fst = g := funext (eq fst)
    rw [label_cons, map_cons, map_cons, ih, mapEdit, mapEdit, mapEdit, map_map, here]

theorem map_mapEdit_id (edits : List (Edit α)) : edits.map (mapEdit fun x => x) = edits := by
  have eq : mapEdit (fun x : α => x) = id := by
    funext edit
    simp [mapEdit]
  rw [eq, map_id]

theorem flatMap_label : ((label fst edits).flatMap fun edit => edit.2.2.filterMap item?) =
      edits.flatMap (·.2.2) := by
  induction edits generalizing fst with
  | nil => rfl
  | cons edit edits ih =>
    have items : (edit.2.2.map (inserted fst)).filterMap item? = edit.2.2 := by
      rw [filterMap_map]
      exact filterMap_some
    rw [label_cons, flatMap_cons, ih]
    exact congrArg (· ++ _) items

end

def keptRange (fst count : Nat) : List (Origin α) := (List.range' fst count).map .kept

def Removes (edits : List (Edit α)) (pos : Nat) : Prop :=
  ∃ edit ∈ edits, edit.1 ≤ pos ∧ pos < stop edit

instance (edits : List (Edit α)) (pos : Nat) : Decidable (Removes edits pos) :=
  inferInstanceAs (Decidable (∃ edit ∈ edits, edit.1 ≤ pos ∧ pos < stop edit))

theorem kept_mem_iff {items : List (Origin α)} :
    .kept pos ∈ items ↔ pos ∈ items.filterMap index? := by
  rw [mem_filterMap]
  constructor
  · exact fun mem => ⟨_, mem, rfl⟩
  rintro ⟨x, mem, eq⟩
  cases x with
  | kept idx =>
    cases eq
    exact mem
  | inserted edit x => cases eq

def Fresh (edits : List (Edit (Origin α))) : Prop :=
  ∀ edit ∈ edits, ∀ item ∈ edit.2.2, item.index? = none

theorem fresh_label (fst : Nat) (edits : List (Edit α)) : Fresh (label fst edits) := by
  refine (forall_mem_label (p := fun _ => True) fun idx edit => iff_of_true ?_ trivial).mpr
    fun _ _ => trivial
  rintro x mem
  obtain ⟨_, -, rfl⟩ := List.mem_map.mp mem
  rfl

theorem removes_label : Removes (label fst edits) pos ↔ Removes edits pos :=
  exists_mem_label fun _ _ => Iff.rfl

theorem removes_cons : Removes (edit :: edits) pos ↔
      edit.1 ≤ pos ∧ pos < stop edit ∨ Removes edits pos :=
  exists_mem_cons_iff _ _ _

theorem not_removes_of_lt (past : ∀ edit ∈ edits, pos < edit.1) : ¬ Removes edits pos := by
  rintro ⟨edit, mem, early, -⟩
  have := past edit mem
  omega

theorem keptRange_add (fst count more : Nat) : (keptRange fst (count + more) : List (Origin α)) =
      keptRange fst count ++ keptRange (fst + count) more := by
  rw [keptRange, ← range'_append_1, map_append]
  rfl

theorem length_keptRange (fst count : Nat) :
    (keptRange fst count : List (Origin α)).length = count := by
  rw [keptRange, length_map, length_range']

theorem filterMap_index?_keptRange (fst count : Nat) :
    (keptRange fst count : List (Origin α)).filterMap index? = List.range' fst count := by
  rw [keptRange, filterMap_map]
  exact filterMap_some

theorem filterMap_index?_of_fresh {items : List (Origin α)}
    (fresh : ∀ x ∈ items, x.index? = none) : items.filterMap index? = [] :=
  filterMap_eq_nil_iff.mpr fresh

theorem filterMap_index?_rebuild {edits : List (Edit (Origin α))} (ord : Ordered edits)
    (fresh : Fresh edits) (bounds : ∀ edit ∈ edits, fst ≤ edit.1 ∧ stop edit ≤ fst + count) :
    (rebuild (keptRange fst count) fst edits).filterMap index? =
      (List.range' fst count).filter fun pos => ¬ Removes edits pos := by
  induction edits generalizing fst count with
  | nil =>
    rw [rebuild, filterMap_index?_keptRange, filter_eq_self.mpr]
    exact fun pos _ => decide_eq_true (not_removes_of_lt (by simp))
  | cons edit edits ih =>
    obtain ⟨least, ord⟩ := pairwise_cons.mp ord
    obtain ⟨early, late⟩ := bounds edit mem_cons_self
    obtain ⟨skip, start⟩ := Nat.exists_eq_add_of_le early
    obtain ⟨rest, total⟩ := Nat.exists_eq_add_of_le late
    have size : count = skip + (edit.2.1 + rest) := by rw [stop] at total; omega
    have past : stop edit = fst + skip + edit.2.1 := by rw [stop, start]
    have tail := ih ord (fun y mem => fresh y (.tail _ mem))
      (fun y mem => ⟨least y mem, total ▸ (bounds y (.tail _ mem)).2⟩)
    have copied : (List.range' fst skip).filter
        (fun pos => ¬ Removes (edit :: edits) pos) = List.range' fst skip := by
      refine filter_eq_self.mpr fun pos mem => decide_eq_true ?_
      have := mem_range'_1.mp mem
      refine not_removes_of_lt (forall_mem_cons.mpr ⟨by omega, fun y later => ?_⟩)
      have := least y later
      omega
    have gone : (List.range' (fst + skip) edit.2.1).filter
        (fun pos => ¬ Removes (edit :: edits) pos) = [] := by
      refine filter_eq_nil_iff.mpr fun pos mem => ?_
      have := mem_range'_1.mp mem
      have here : Removes (edit :: edits) pos :=
        removes_cons.mpr (.inl ⟨by omega, by omega⟩)
      simpa using here
    have others : ∀ pos ∈ List.range' (fst + skip + edit.2.1) rest,
        decide (¬ Removes (edit :: edits) pos) = decide (¬ Removes edits pos) := by
      intro pos mem
      have := mem_range'_1.mp mem
      refine decide_eq_decide.mpr (not_congr (removes_cons.trans (or_iff_right ?_)))
      omega
    have src : (keptRange fst count : List (Origin α)) = keptRange fst skip ++
        (keptRange (fst + skip) edit.2.1 ++ keptRange (stop edit) rest) := by
      rw [size, keptRange_add, keptRange_add, past]
    have dropped : (keptRange fst count : List (Origin α)).drop (stop edit - fst) =
        keptRange (stop edit) rest := by
      rw [src, ← append_assoc]
      exact drop_left' (by rw [length_append, length_keptRange, length_keptRange]; omega)
    have taken : (keptRange fst count : List (Origin α)).take (edit.1 - fst) =
        keptRange fst skip := by
      rw [src, start, Nat.add_sub_cancel_left]
      exact take_left' (length_keptRange _ _)
    rw [rebuild, taken, dropped, filterMap_append, filterMap_append,
      filterMap_index?_keptRange, filterMap_index?_of_fresh (fresh edit mem_cons_self), tail,
      size, ← range'_append_1, ← range'_append_1, filter_append,
      filter_append, filter_congr others, past, copied, gone, append_nil,
      nil_append]

theorem filterMap_item?_rebuild (edits : List (Edit (Origin α))) {src : List (Origin α)}
    (old : ∀ x ∈ src, x.item? = none) (idx : Nat) :
    (rebuild src idx edits).filterMap item? =
      edits.flatMap fun edit => edit.2.2.filterMap item? := by
  induction edits generalizing src idx with
  | nil => exact filterMap_eq_nil_iff.mpr old
  | cons edit edits ih =>
    have taken : (src.take (edit.1 - idx)).filterMap item? = [] :=
      filterMap_eq_nil_iff.mpr fun x mem => old x (mem_of_mem_take mem)
    rw [rebuild, filterMap_append, filterMap_append, taken,
      ih fun x mem => old x (mem_of_mem_drop mem)]
    rfl

theorem map_foldr_splice (f : α → β) (edits : List (Edit α)) (items : List α) :
    (edits.foldr splice items).map f = (edits.map (mapEdit f)).foldr splice (items.map f) := by
  induction edits with
  | nil => rfl
  | cons edit edits ih =>
    rw [foldr_cons, map_cons, foldr_cons, ← ih, splice, splice,
      map_append, map_append, map_take, map_drop]
    rfl

end Codex.Splice

namespace Codex

open List

variable {α : Type*}

/-- Consecutive pieces of `size` items; the last one may be shorter. -/
def chunks (size : Nat) (items : List α) : List (List α) :=
  (List.range ((items.length + size - 1) / size)).map fun index =>
    (items.drop (index * size)).take size

theorem length_le_of_mem_chunks {size : Nat} {xs chunk : List α}
    (mem : chunk ∈ chunks size xs) : chunk.length ≤ size := by
  obtain ⟨idx, -, rfl⟩ := List.mem_map.mp mem
  exact length_take_le _ _

theorem length_chunks (size : Nat) (xs : List α) :
    (chunks size xs).length = xs.length ⌈/⌉ size := by
  rw [chunks, length_map, length_range]
  rfl

private theorem flatten_map_range (size : Nat) (xs : List α) (count : Nat) :
    ((List.range count).map fun idx => (xs.drop (idx * size)).take size).flatten =
      xs.take (count * size) := by
  induction count with
  | zero => simp
  | succ count ih =>
    rw [range_succ, map_append, flatten_append, ih, Nat.succ_mul, take_add]
    simp

theorem flatten_chunks {size : Nat} (pos : 0 < size) (items : List α) :
    (chunks size items).flatten = items := by
  have enough : items.length ≤ (items.length + size - 1) / size * size := by
    have division := Nat.div_add_mod' (items.length + size - 1) size
    have remainder := Nat.mod_lt (items.length + size - 1) pos
    omega
  rw [chunks, flatten_map_range, take_of_length_le enough]

end Codex
