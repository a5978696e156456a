import Mathlib.Data.List.Basic

/-!
# Lists without repetition

Items are appended unless the list has an equal one.
-/

namespace Codex.Distinct

open List

variable {α : Type*} (eq : α → α → Bool)

def push (items : List α) (item : α) : List α :=
  if items.any (eq · item) then items else items ++ [item]

def extend (items more : List α) : List α := more.foldl (push eq) items

variable {eq} {items more : List α} {item : α}

theorem subset_push (items : List α) (item : α) : items ⊆ push eq items item := by
  rw [push]
  split_ifs
  · exact List.Subset.refl items
  · exact subset_append_left items [item]

theorem mem_push {y : α} (mem : y ∈ push eq items item) : y ∈ items ∨ y = item := by
  rw [push] at mem
  split_ifs at mem
  · exact .inl mem
  · simpa using mem

theorem exists_same_push (reflexive : ∀ item, eq item item = true) (items : List α) (item : α) :
    ∃ y ∈ push eq items item, eq y item = true := by
  rw [push]
  split_ifs with has
  · exact List.any_eq_true.mp has
  · exact ⟨item, by simp, reflexive item⟩

theorem subset_extend (items more : List α) : items ⊆ extend eq items more := by
  induction more generalizing items with
  | nil => exact List.Subset.refl items
  | cons item more ih =>
    exact List.Subset.trans (subset_push items item) (ih (push eq items item))

theorem mem_extend {y : α} (mem : y ∈ extend eq items more) : y ∈ items ∨ y ∈ more := by
  induction more generalizing items with
  | nil => exact .inl mem
  | cons item more ih =>
    rcases ih mem with pre | later
    · rcases mem_push pre with old | rfl
      · exact .inl old
      · exact .inr (by simp)
    · exact .inr (mem_cons_of_mem item later)

theorem exists_same_extend (reflexive : ∀ item, eq item item = true) (has : item ∈ more) :
    ∃ y ∈ extend eq items more, eq y item = true := by
  induction more generalizing items with
  | nil => cases has
  | cons head more ih =>
    rcases mem_cons.mp has with rfl | later
    · obtain ⟨y, mem, equal⟩ := exists_same_push reflexive items item
      exact ⟨y, subset_extend _ more mem, equal⟩
    · exact ih later

theorem mem_extend_iff (identity : ∀ item y, eq item y = true ↔ item = y) :
    item ∈ extend eq items more ↔ item ∈ items ∨ item ∈ more := by
  constructor
  · exact mem_extend
  rintro (old | new)
  · exact subset_extend items more old
  obtain ⟨y, mem, equal⟩ := exists_same_extend
    (fun item => (identity item item).mpr rfl) new
  exact (identity y item).mp equal ▸ mem

section

variable [BEq α] [LawfulBEq α] [DecidableEq α]

theorem push_eq : push (fun item y => decide (item = y)) items item =
    if item ∈ items then items else items ++ [item] := by
  rw [push]
  congr 1
  simp

theorem extend_eq (items more : List α) : extend (fun item y => decide (item = y)) items more =
      items ++ (more.removeAll items).eraseDups := by
  induction more generalizing items with
  | nil => simp [extend, List.removeAll]
  | cons item more ih =>
    change extend _ (push _ items item) more = _
    rw [push_eq]
    split_ifs with has
    · rw [ih items, cons_removeAll, if_neg (by simpa using has)]
    have tl : more.removeAll (items ++ [item]) =
        (more.removeAll items).filter fun y => !y == item := by
      simp only [List.removeAll, filter_filter]
      refine filter_congr fun y _ => ?_
      rw [Bool.eq_iff_iff]
      simp [and_comm]
    rw [ih (items ++ [item]), cons_removeAll, if_pos (by simpa using has),
      eraseDups_cons, tl, append_assoc, singleton_append]

theorem nodup_extend (nodup : items.Nodup) :
    (extend (fun item y => decide (item = y)) items more).Nodup := by
  induction more generalizing items with
  | nil => exact nodup
  | cons item more ih =>
    apply ih
    rw [push_eq]
    split_ifs with has
    · exact nodup
    refine nodup_append.mpr ⟨nodup, by simp, ?_⟩
    rintro old mem y last rfl
    exact has (mem_singleton.mp last ▸ mem)

theorem extend_of_nodup (nodup : (items ++ more).Nodup) :
    extend (fun item y => decide (item = y)) items more = items ++ more := by
  induction more generalizing items with
  | nil => exact (append_nil items).symm
  | cons item more ih =>
    have fresh : item ∉ items := fun mem =>
      (nodup_append.mp nodup).2.2 item mem item mem_cons_self rfl
    change extend _ (push _ items item) more = _
    rw [push_eq, if_neg fresh, ih (by simpa using nodup), append_assoc]
    rfl

end

end Codex.Distinct
