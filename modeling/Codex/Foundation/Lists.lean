import Mathlib.Data.List.Basic

/-!
# Lists

What the modules share about lists in general.
-/

namespace Codex

open List

variable {α β γ : Type*}

theorem concat_eq_append_cons {log pre after : List α} {ent x : α}
    (split : log ++ [ent] = pre ++ x :: after) :
    log = pre ∧ ent = x ∧ after = [] ∨ ∃ rest, after = rest ++ [ent] ∧ log = pre ++ x :: rest := by
  rcases eq_nil_or_concat after with rfl | ⟨rest, last, rfl⟩
  · obtain ⟨front, single⟩ := append_inj' split rfl
    exact .inl ⟨front, singleton_inj.mp single, rfl⟩
  rw [concat_eq_append, ← cons_append, ← append_assoc] at split
  obtain ⟨front, single⟩ := append_inj' split rfl
  obtain rfl := singleton_inj.mp single
  exact .inr ⟨rest, concat_eq_append, front⟩

theorem flatMap_filter (keep : α → Bool) (image : α → List β) (items : List α) :
    (items.filter keep).flatMap image = items.flatMap fun x =>
      if keep x then image x else [] := by
  induction items with
  | nil => rfl
  | cons x items ih => cases kept : keep x <;> simp [kept, ih]

theorem zip_append_of_length_le {first : List α} {second : List β}
    (long : first.length ≤ second.length) (more : List β) :
    first.zip (second ++ more) = first.zip second := by
  induction first generalizing second with
  | nil => rfl
  | cons head first ih =>
    cases second with
    | nil => simp at long
    | cons other second =>
      rw [cons_append, zip_cons_cons, zip_cons_cons, ih (by simpa using long)]

theorem findSome?_flatMap (f : β → Option γ) (g : α → List β) (xs : List α) :
    (xs.flatMap g).findSome? f = xs.findSome? fun x => (g x).findSome? f := by
  induction xs with
  | nil => rfl
  | cons x xs ih =>
    rw [flatMap_cons, findSome?_append, ih, findSome?_cons]
    cases (g x).findSome? f <;> rfl

theorem mem_eraseRepsBy_loop [DecidableEq α] {x cur : α} {items kept : List α} :
    x ∈ List.eraseRepsBy.loop (· == ·) cur items kept ↔ x ∈ kept ∨ x = cur ∨ x ∈ items := by
  induction items generalizing cur kept with
  | nil => simp [List.eraseRepsBy.loop, or_comm]
  | cons next items ih =>
    rw [List.eraseRepsBy.loop]
    cases eq : cur == next with
    | true =>
      rw [ih, eq_of_beq eq, mem_cons]
      tauto
    | false =>
      rw [ih, mem_cons, mem_cons]
      tauto

theorem mem_eraseReps [DecidableEq α] {x : α} {xs : List α} : x ∈ xs.eraseReps ↔ x ∈ xs := by
  cases xs with
  | nil => exact Iff.rfl
  | cons y xs =>
    rw [mem_cons]
    exact mem_eraseRepsBy_loop.trans (or_iff_right not_mem_nil)

end Codex
