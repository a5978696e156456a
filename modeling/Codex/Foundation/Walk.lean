import Mathlib.Data.List.DropRight
import Mathlib.Data.List.Infix

/-!
# Walking up and down a path

A path is a stack of items.
-/

namespace Codex.Walk

open List

inductive Move (α : Type*)
  | up
  | down (x : α)
  deriving DecidableEq

structure Place (α : Type*) where
  stack : List α
  depth : Nat
  deriving DecidableEq

variable {α : Type*} (anchor : Nat)

def step (place : Place α) : Move α → Place α
  | .up =>
    if anchor < place.depth then ⟨place.stack.dropLast, place.depth - 1⟩ else place
  | .down x => ⟨place.stack ++ [x], place.depth + 1⟩

def walk (place : Place α) (moves : List (Move α)) : Place α := moves.foldl (step anchor) place

def resolve (base : List α) (moves : List (Move α)) : List α :=
  (walk anchor ⟨base, base.length⟩ moves).stack

structure Net (α : Type*) where
  removed : Nat
  added : List α

def netStep (depth : Nat) (net : Net α) : Move α → Net α
  | .up =>
    if anchor < depth - net.removed + net.added.length then
      if net.added = [] then ⟨net.removed + 1, []⟩ else ⟨net.removed, net.added.dropLast⟩
    else net
  | .down x => ⟨net.removed, net.added ++ [x]⟩

def net (depth : Nat) (moves : List (Move α)) : Net α :=
  moves.foldl (netStep anchor depth) ⟨0, []⟩

def Net.place (net : Net α) (stack : List α) (depth : Nat) : Place α :=
  ⟨stack.rdrop net.removed ++ net.added, depth - net.removed + net.added.length⟩

variable {anchor} {stack : List α} {depth : Nat}

theorem length_rdrop (stack : List α) (removed : Nat) :
    (stack.rdrop removed).length = stack.length - removed := by
  rw [List.rdrop, length_take]
  omega

theorem rdrop_succ (stack : List α) (removed : Nat) :
    stack.rdrop (removed + 1) = (stack.rdrop removed).dropLast := by
  rw [List.rdrop, List.rdrop, dropLast_eq_take, take_take, length_take]
  congr 1
  omega

open Net

theorem step_place {effect : Net α} (le : effect.removed ≤ depth) (move : Move α) :
    step anchor (effect.place stack depth) move =
        (netStep anchor depth effect move).place stack depth ∧
      (netStep anchor depth effect move).removed ≤ depth := by
  cases move with
  | down x => simp [step, netStep, place, le, Nat.add_assoc]
  | up =>
    by_cases deep : anchor < depth - effect.removed + effect.added.length
    · have up : step anchor (effect.place stack depth) .up =
        ⟨(effect.place stack depth).stack.dropLast, (effect.place stack depth).depth - 1⟩ :=
        if_pos deep
      rw [up, netStep, if_pos deep]
      by_cases none : effect.added = []
      · rw [none, length_nil] at deep
        rw [if_pos none]
        simp only [place, none, append_nil, length_nil, Nat.add_zero, rdrop_succ]
        exact ⟨by congr 1, by omega⟩
      have positive := length_pos_of_ne_nil none
      rw [if_neg none]
      simp only [place, dropLast_append_of_ne_nil none, length_dropLast]
      exact ⟨by congr 1; omega, le⟩
    have stays : step anchor (effect.place stack depth) .up = effect.place stack depth :=
      if_neg deep
    rw [stays, netStep, if_neg deep]
    exact ⟨rfl, le⟩

theorem walk_eq (stack : List α) (depth : Nat) (moves : List (Move α)) :
    walk anchor ⟨stack, depth⟩ moves = (net anchor depth moves).place stack depth ∧
      (net anchor depth moves).removed ≤ depth := by
  have run : ∀ (moves : List (Move α)) (effect : Net α), effect.removed ≤ depth →
      moves.foldl (step anchor) (effect.place stack depth) =
          (moves.foldl (netStep anchor depth) effect).place stack depth ∧
        (moves.foldl (netStep anchor depth) effect).removed ≤ depth := by
    intro moves
    induction moves with
    | nil => exact fun effect le => ⟨rfl, le⟩
    | cons move moves ih =>
      intro effect le
      obtain ⟨eq, le⟩ := @step_place _ anchor stack depth effect le move
      rw [foldl_cons, foldl_cons, eq]
      exact ih _ le
  have start : (⟨stack, depth⟩ : Place α) = (⟨0, []⟩ : Net α).place stack depth := by
    simp [place]
  rw [walk, start]
  exact run moves ⟨0, []⟩ (Nat.zero_le _)

variable {moves : List (Move α)} {x : α} {removed : Nat}

theorem mem_added (depth : Nat) (mem : x ∈ (net anchor depth moves).added) : .down x ∈ moves := by
  have run : ∀ (moves : List (Move α)) (effect : Net α),
      x ∈ (moves.foldl (netStep anchor depth) effect).added →
      x ∈ effect.added ∨ .down x ∈ moves := by
    intro moves
    induction moves with
    | nil => exact fun effect has => .inl has
    | cons move moves ih =>
      intro effect has
      rcases ih _ has with pre | later
      · cases move with
        | down y =>
          rcases mem_append.mp pre with known | new
          · exact .inl known
          obtain rfl := mem_singleton.mp new
          exact .inr (by simp)
        | up =>
          simp only [netStep] at pre
          split_ifs at pre
          · cases pre
          · exact .inl (dropLast_subset _ pre)
          · exact .inl pre
      · exact .inr (mem_cons_of_mem _ later)
  exact (run moves ⟨0, []⟩ mem).resolve_left not_mem_nil

theorem mem_resolve_nil (mem : x ∈ resolve anchor [] moves) : .down x ∈ moves := by
  obtain ⟨eq, -⟩ := @walk_eq _ anchor ([] : List α) 0 moves
  rw [resolve, length_nil, eq, place, List.rdrop, take_nil, nil_append]
    at mem
  exact mem_added 0 mem

theorem walk_replicate_up (stack : List α) :
    walk anchor ⟨stack, stack.length⟩ (List.replicate (stack.length - anchor) .up) =
      ⟨stack.take anchor, (stack.take anchor).length⟩ := by
  induction stack using reverseRecOn with
  | nil => simp [walk]
  | append_singleton stack x ih =>
    rw [length_append, length_singleton]
    by_cases deep : anchor < stack.length + 1
    · have one : stack.length + 1 - anchor = stack.length - anchor + 1 := by omega
      have up : step anchor ⟨stack ++ [x], stack.length + 1⟩ .up = ⟨stack, stack.length⟩ := by
        simp [step, deep]
      rw [one, replicate_succ, walk, foldl_cons, up, take_append_of_le_length (by omega)]
      exact ih
    have none : stack.length + 1 - anchor = 0 := by omega
    have whole : (stack ++ [x]).take anchor = stack ++ [x] :=
      take_of_length_le (by simp; omega)
    simp [none, walk, whole]

theorem walk_append (place : Place α) (fst second : List (Move α)) :
    walk anchor place (fst ++ second) = walk anchor (walk anchor place fst) second :=
  foldl_append

theorem resolve_replicate_up (base : List α) (moves : List (Move α)) :
    resolve anchor base (List.replicate (base.length - anchor) .up ++ moves) =
      resolve anchor (base.take anchor) moves := by
  rw [resolve, walk_append, walk_replicate_up, resolve]

theorem filter_rdrop_iff (cnt : α → Bool) (le : removed ≤ (stack.filter cnt).length) :
    ((stack.rdrop removed).filter cnt).length = (stack.filter cnt).length - removed ↔
      ∀ x ∈ stack.rtake removed, cnt x = true := by
  have whole : stack = stack.rdrop removed ++ stack.rtake removed := by
    rw [List.rdrop, List.rtake, take_append_drop]
  have size : (stack.rtake removed).length = removed := by
    have long : removed ≤ stack.length := le.trans (length_filter_le _ _)
    rw [List.rtake, length_drop]
    omega
  have split : (stack.filter cnt).length = ((stack.rdrop removed).filter cnt).length +
        ((stack.rtake removed).filter cnt).length := by
    rw [← length_append, ← filter_append, ← whole]
  have fewer := length_filter_le cnt (stack.rtake removed)
  rw [← length_filter_eq_length_iff]
  omega

theorem filter_rdrop {cnt : α → Bool} (le : removed ≤ (stack.filter cnt).length)
    (all : ∀ x ∈ stack.rtake removed, cnt x = true) :
    (stack.rdrop removed).filter cnt = (stack.filter cnt).rdrop removed := by
  have split : stack.filter cnt =
      (stack.rdrop removed).filter cnt ++ stack.rtake removed := by
    rw [← filter_eq_self.mpr all, ← filter_append, List.rdrop, List.rtake, take_append_drop]
  have size := (filter_rdrop_iff cnt le).mpr all
  calc
    (stack.rdrop removed).filter cnt
        = ((stack.rdrop removed).filter cnt ++ stack.rtake removed).take
            ((stack.rdrop removed).filter cnt).length := take_left.symm
    _ = (stack.filter cnt).rdrop removed := by rw [← split, size, List.rdrop]

/-- A walk over some of the items agrees with that over all exactly when it removes no other. -/
theorem filter_walk_iff (cnt : α → Bool) {moves : List (Move α)}
    (down : ∀ x, .down x ∈ moves → cnt x = true) :
    ((walk anchor ⟨stack, (stack.filter cnt).length⟩ moves).stack.filter cnt =
          resolve anchor (stack.filter cnt) moves ↔
        ∀ x ∈ stack.rtake (net anchor (stack.filter cnt).length moves).removed,
          cnt x = true) ∧
      (((walk anchor ⟨stack, (stack.filter cnt).length⟩ moves).stack.filter cnt).length =
          (resolve anchor (stack.filter cnt) moves).length ↔
        ∀ x ∈ stack.rtake (net anchor (stack.filter cnt).length moves).removed,
          cnt x = true) := by
  obtain ⟨idle, le⟩ := @walk_eq _ anchor stack (stack.filter cnt).length moves
  obtain ⟨tidy, -⟩ :=
    @walk_eq _ anchor (stack.filter cnt) (stack.filter cnt).length moves
  have added : (net anchor (stack.filter cnt).length moves).added.filter cnt =
      (net anchor (stack.filter cnt).length moves).added :=
    filter_eq_self.mpr fun x mem => down x (mem_added _ mem)
  rw [resolve, idle, tidy, place, place, filter_append, added,
    append_left_inj, length_append, length_append, Nat.add_right_cancel_iff,
    length_rdrop, ← filter_rdrop_iff cnt le]
  refine ⟨⟨fun eq => by rw [eq, length_rdrop], fun size => ?_⟩, Iff.rfl⟩
  exact filter_rdrop le ((filter_rdrop_iff cnt le).mp size)

end Codex.Walk
