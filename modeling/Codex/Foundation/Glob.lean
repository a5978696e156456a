import Mathlib.Data.List.Forall2
import Mathlib.Data.List.Infix

/-!
# Patterns with wildcards

A token stands for one symbol, given or any, or for a word.
-/

namespace Codex.Glob

open List

inductive Token (α : Type*)
  | one (want : Option α)
  | many
  deriving DecidableEq

variable {α : Type*} (eq : α → α → Bool)

def isMatch : List (Token α) → List α → Bool
  | [], word => word.isEmpty
  | .many :: pat, word => word.tails.any (isMatch pat)
  | .one _ :: _, [] => false
  | .one want :: pat, head :: word =>
    want.all (eq · head) && isMatch pat word

variable {eq} {pat fst snd : List (Token α)} {word : List α}

theorem isMatch_many :
    isMatch eq (.many :: pat) word ↔ ∃ rest, rest <:+ word ∧ isMatch eq pat rest := by
  simp [isMatch]

theorem isMatch_one {want : Option α} : isMatch eq (.one want :: pat) word ↔
    ∃ head rest, word = head :: rest ∧ want.all (eq · head) ∧ isMatch eq pat rest := by
  cases word with
  | nil | cons => simp [isMatch]

theorem isMatch_append : isMatch eq (fst ++ snd) word ↔
    ∃ front rest, front ++ rest = word ∧ isMatch eq fst front ∧ isMatch eq snd rest := by
  induction fst generalizing word with
  | nil =>
    constructor
    · intro hit
      exact ⟨[], word, rfl, rfl, hit⟩
    rintro ⟨front, rest, rfl, empty, hit⟩
    obtain rfl : front = [] := by simpa [isMatch] using empty
    exact hit
  | cons token fst ih =>
    cases token with
    | many =>
      rw [cons_append, isMatch_many]
      constructor
      · rintro ⟨tail, ⟨skipped, rfl⟩, hit⟩
        obtain ⟨front, rest, rfl, begins, ends⟩ := ih.mp hit
        refine ⟨skipped ++ front, rest, append_assoc _ _ _, ?_, ends⟩
        exact isMatch_many.mpr ⟨front, suffix_append _ _, begins⟩
      rintro ⟨front, rest, rfl, begins, ends⟩
      obtain ⟨tail, ⟨skipped, rfl⟩, hit⟩ := isMatch_many.mp begins
      refine ⟨tail ++ rest, ⟨skipped, (append_assoc _ _ _).symm⟩, ?_⟩
      exact ih.mpr ⟨tail, rest, rfl, hit, ends⟩
    | one want =>
      rw [cons_append, isMatch_one]
      constructor
      · rintro ⟨head, tail, rfl, alike, hit⟩
        obtain ⟨front, rest, rfl, begins, ends⟩ := ih.mp hit
        refine ⟨head :: front, rest, rfl, ?_, ends⟩
        exact isMatch_one.mpr ⟨head, front, rfl, alike, begins⟩
      rintro ⟨front, rest, rfl, begins, ends⟩
      obtain ⟨head, tail, rfl, alike, hit⟩ := isMatch_one.mp begins
      exact ⟨head, tail ++ rest, rfl, alike, ih.mpr ⟨tail, rest, rfl, hit, ends⟩⟩

theorem ne_nil_of_isMatch {token : Token α} (hit : isMatch eq pat word)
    (mem : token ∈ pat) (narrow : token ≠ .many) : word ≠ [] := by
  rintro rfl
  induction pat with
  | nil => simp at mem
  | cons head pat ih =>
    cases head with
    | many =>
      obtain ⟨tl, suffix, hit⟩ := isMatch_many.mp hit
      obtain rfl := suffix_nil.mp suffix
      exact ih ((mem_cons.mp mem).resolve_left narrow) hit
    | one want => simp [isMatch] at hit

theorem isMatch_one_many : isMatch eq [.one none, .many] word ↔ word ≠ [] := by
  cases word with
  | nil => simp [isMatch]
  | cons head word =>
    simp only [isMatch, ne_eq, reduceCtorEq, not_false_eq_true, iff_true, any_eq_true,
      mem_tails, Option.all_none, Bool.true_and]
    exact ⟨[], nil_suffix, rfl⟩

theorem isMatch_literal {text : List α} : isMatch eq (text.map fun c => .one (some c)) word ↔
    Forall₂ (fun want c => eq want c = true) text word := by
  induction text generalizing word with
  | nil => simp [isMatch]
  | cons want text ih =>
    rw [map_cons, isMatch_one, forall₂_cons_left_iff]
    simp only [ih, Option.all_some]
    constructor
    · rintro ⟨head, rest, rfl, same, others⟩
      exact ⟨head, rest, same, others, rfl⟩
    · rintro ⟨head, rest, same, others, rfl⟩
      exact ⟨head, rest, rfl, same, others⟩

/-- Behind a wildcard for one or more symbols a part of the word remains. -/
theorem isMatch_below : isMatch eq ([.one none, .many] ++ snd) word ↔
    ∃ rest, rest <:+ word ∧ rest ≠ word ∧ isMatch eq snd rest := by
  rw [isMatch_append]
  constructor
  · rintro ⟨front, rest, rfl, filled, hit⟩
    refine ⟨rest, suffix_append _ _, fun whole => isMatch_one_many.mp filled ?_, hit⟩
    exact self_eq_append_left.mp whole
  · rintro ⟨rest, ⟨front, rfl⟩, part, hit⟩
    refine ⟨front, rest, rfl, isMatch_one_many.mpr ?_, hit⟩
    rintro rfl
    exact part rfl

/-- What stands before can be exchanged for any word unless it matches the empty one. -/
theorem isMatch_widen (hit : isMatch eq (fst ++ snd) word) (narrow : ∃ token ∈ fst, token ≠ .many) :
    isMatch eq ([.one none, .many] ++ snd) word := by
  obtain ⟨front, tl, joined, begins, ends⟩ := isMatch_append.mp hit
  obtain ⟨token, mem, narrow⟩ := narrow
  refine isMatch_append.mpr ⟨front, tl, joined, ?_, ends⟩
  exact isMatch_one_many.mpr (ne_nil_of_isMatch begins mem narrow)

end Codex.Glob
