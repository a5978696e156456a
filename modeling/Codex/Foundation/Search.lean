import Mathlib.Data.List.Infix
import Mathlib.Data.List.Nodup
import Mathlib.Data.List.Perm.Subperm
import Mathlib.Data.List.Range
import Mathlib.Data.Nat.Find

/-!
# Searches

For the first of several needles, a subsequence, a fresh name.
-/

namespace Codex.Search

open List

variable {α : Type*}

structure First (needles : List (List α)) (text : List α) (pos : Nat) (needle : List α) :
    Prop where
  mem : needle ∈ needles
  occurs : needle <+: text.drop pos
  earliest : ∀ earlier < pos, ∀ other ∈ needles, ¬ other <+: text.drop earlier

def Absent (needles : List (List α)) (text : List α) : Prop :=
  ∀ pos, ∀ needle ∈ needles, ¬ needle <+: text.drop pos

structure Separate (needles : List (List α)) : Prop where
  nonempty : [] ∉ needles
  apart : ∀ first ∈ needles, ∀ second ∈ needles, first <:+: second → first = second

theorem Separate.singleton {needle : List α} (nonempty : needle ≠ []) : Separate [needle] where
  nonempty := by simpa using nonempty.symm
  apart := by simp

section

variable {needles : List (List α)} {text more needle : List α} {pos : Nat}

theorem drop_append_add (le : pos ≤ text.length) (more : List α) (further : Nat) :
    (text ++ more).drop (pos + further) = (text.drop pos ++ more).drop further := by
  rw [← drop_drop, drop_append_of_le_length le]

theorem take_append_add (le : pos ≤ text.length) (more : List α) (further : Nat) :
    (text ++ more).take (pos + further) =
      text.take pos ++ (text.drop pos ++ more).take further := by
  rw [take_add, take_append_of_le_length le, drop_append_of_le_length le]

theorem First.lt_length (fst : First needles text pos needle) (separate : Separate needles) :
    pos + needle.length ≤ text.length ∧ needle ≠ [] := by
  have ne : needle ≠ [] := fun empty => separate.nonempty (empty ▸ fst.mem)
  have short := fst.occurs.length_le
  have positive := length_pos_of_ne_nil ne
  rw [length_drop] at short
  exact ⟨by omega, ne⟩

theorem exists_of_straddles (later : needle <+: (text ++ more).drop pos)
    (le : pos ≤ text.length) (absent : ¬ needle <+: text.drop pos) :
    text.length - pos < needle.length ∧ needle.take (text.length - pos) = text.drop pos := by
  rw [drop_append_of_le_length le] at later
  have lt : text.drop pos <+: needle := by
    rcases prefix_or_prefix_of_prefix later (prefix_append (text.drop pos) more)
      with ins | beyond
    · exact absurd ins absent
    · exact beyond
  have length := lt.length_le
  rw [length_drop] at length
  have ne : text.length - pos ≠ needle.length := by
    intro eq
    refine absent (lt.eq_of_length ?_ ▸ prefix_rfl)
    rw [length_drop, eq]
  refine ⟨by omega, ?_⟩
  rw [← length_drop]
  exact (prefix_iff_eq_take.mp lt).symm

variable (fst : First needles text pos needle)
include fst

theorem First.append (separate : Separate needles) (more : List α) :
    First needles (text ++ more) pos needle where
  mem := fst.mem
  occurs := by
    obtain ⟨le, -⟩ := fst.lt_length separate
    rw [drop_append_of_le_length (by omega)]
    exact fst.occurs.trans (prefix_append _ _)
  earliest := by
    intro earlier pre other mem later
    obtain ⟨le, -⟩ := fst.lt_length separate
    obtain ⟨long, start⟩ := exists_of_straddles later (by omega)
      (fst.earliest earlier pre other mem)
    -- the needle found would lie within the other one
    have ins : needle <:+: other := by
      have tail : text.drop pos <:+ text.drop earlier := by
        rw [show pos = earlier + (pos - earlier) by omega, ← drop_drop]
        exact drop_suffix _ _
      have nested : needle <:+: text.drop earlier := fst.occurs.isInfix.trans tail.isInfix
      rw [← start] at nested
      exact nested.trans (List.take_prefix _ _).isInfix
    rw [separate.apart needle fst.mem other mem ins] at le
    omega

theorem First.unique {other : List α} {second : Nat}
    (again : First needles text second other) (separate : Separate needles) :
    pos = second ∧ needle = other := by
  have eq : pos = second := by
    rcases Nat.lt_trichotomy pos second with pre | eq | after
    · exact absurd fst.occurs (again.earliest pos pre needle fst.mem)
    · exact eq
    · exact absurd again.occurs (fst.earliest second after other again.mem)
  subst eq
  refine ⟨rfl, ?_⟩
  rcases prefix_or_prefix_of_prefix fst.occurs again.occurs with ins | ins
  · exact separate.apart needle fst.mem other again.mem ins.isInfix
  · exact (separate.apart other again.mem needle fst.mem ins.isInfix).symm

theorem First.split (separate : Separate needles) :
    text = text.take pos ++ (needle ++ text.drop (pos + needle.length)) ∧
      (text.take pos).length = pos := by
  obtain ⟨le, -⟩ := fst.lt_length separate
  obtain ⟨rest, eq⟩ := fst.occurs
  have past : text.drop (pos + needle.length) = rest := by
    rw [← drop_drop, ← eq, drop_left]
  rw [past, eq, take_append_drop, length_take]
  exact ⟨rfl, by omega⟩

theorem First.not_absent : ¬ Absent needles text :=
  fun absent => absent pos needle fst.mem fst.occurs

end

open Nat

section

variable [DecidableEq α]

def find (needle text : List α) : Option Nat :=
  text.tails.findIdx? (needle.isPrefixOf ·)

def overlap (text needle : List α) : Nat :=
  Nat.findGreatest (fun length => needle.take length <:+ text)
    (min text.length (needle.length - 1))

def hold (needles : List (List α)) (text : List α) : Nat :=
  (needles.map (overlap text)).foldr max 0

variable {needles : List (List α)} {text more needle : List α} {pos length : Nat}

theorem first_of_find (hit : find needle text = some pos) : First [needle] text pos needle := by
  obtain ⟨bound, occurs, earliest⟩ := findIdx?_eq_some_iff_getElem.mp hit
  refine ⟨mem_singleton_self needle, ?_, fun earlier pre y mem later => ?_⟩
  · simpa using occurs
  obtain rfl := mem_singleton.mp mem
  exact earliest earlier pre (by simpa using later)

theorem absent_of_find (ne : needle ≠ []) (missing : find needle text = none) :
    Absent [needle] text := by
  intro pos y mem occurs
  obtain rfl := mem_singleton.mp mem
  have ins : text.drop pos ∈ text.tails := (mem_tails _ _).mpr (drop_suffix _ _)
  have refuted := findIdx?_eq_none_iff.mp missing _ ins
  rw [List.isPrefixOf_iff_prefix.mpr occurs] at refuted
  cases refuted

theorem overlap_le (text needle : List α) : overlap text needle ≤ text.length :=
  (findGreatest_le _).trans (Nat.min_le_left _ _)

theorem take_overlap (text needle : List α) : needle.take (overlap text needle) <:+ text := by
  refine findGreatest_spec (P := fun length => needle.take length <:+ text) (Nat.zero_le _) ?_
  rw [take_zero]
  exact nil_suffix

theorem overlap_lt (ne : needle ≠ []) : overlap text needle < needle.length := by
  have positive := length_pos_of_ne_nil ne
  have bound : overlap text needle ≤ min text.length (needle.length - 1) := findGreatest_le _
  omega

theorem le_overlap (short : length < needle.length) (ends : needle.take length <:+ text) :
    length ≤ overlap text needle := by
  refine le_findGreatest ?_ ends
  have fits := ends.length_le
  rw [length_take] at fits
  omega

theorem overlap_le_hold (mem : needle ∈ needles) : overlap text needle ≤ hold needles text := by
  induction needles with
  | nil => cases mem
  | cons y needles ih =>
    rw [hold, map_cons, foldr_cons]
    rcases mem_cons.mp mem with rfl | later
    · exact Nat.le_max_left _ _
    · exact (ih later).trans (Nat.le_max_right _ _)

theorem hold_singleton (needle text : List α) : hold [needle] text = overlap text needle :=
  Nat.max_zero _

theorem hold_le (needles : List (List α)) (text : List α) : hold needles text ≤ text.length := by
  induction needles with
  | nil => exact Nat.zero_le _
  | cons needle needles ih => exact Nat.max_le.mpr ⟨overlap_le text needle, ih⟩

theorem not_occurs_of_lt (absent : Absent needles text)
    (released : pos < text.length - hold needles text) (mem : needle ∈ needles) :
    ¬ needle <+: (text ++ more).drop pos := by
  intro later
  obtain ⟨long, start⟩ := exists_of_straddles later (by omega) (absent pos needle mem)
  have ends : needle.take (text.length - pos) <:+ text := start ▸ drop_suffix _ _
  have short := (le_overlap long ends).trans (overlap_le_hold mem)
  omega

theorem first_released (absent : Absent needles text)
    (fst : First needles (text.drop (text.length - hold needles text) ++ more) pos needle) :
    First needles (text ++ more) (text.length - hold needles text + pos) needle where
  mem := fst.mem
  occurs := by
    rw [drop_append_add (sub_le _ _)]
    exact fst.occurs
  earliest := by
    intro earlier pre y mem
    by_cases released : earlier < text.length - hold needles text
    · exact not_occurs_of_lt absent released mem
    have later := fst.earliest (earlier - (text.length - hold needles text)) (by omega) y
      mem
    rw [← drop_append_add (sub_le _ _), add_sub_of_le (Nat.le_of_not_lt released)] at later
    exact later

theorem absent_released (absent : Absent needles text)
    (later : Absent needles (text.drop (text.length - hold needles text) ++ more)) :
    Absent needles (text ++ more) := by
  intro pos needle mem
  by_cases released : pos < text.length - hold needles text
  · exact not_occurs_of_lt absent released mem
  have kept := later (pos - (text.length - hold needles text)) needle mem
  rwa [← drop_append_add (sub_le _ _), add_sub_of_le (Nat.le_of_not_lt released)] at kept

theorem overlap_released (mem : needle ∈ needles) (ne : needle ≠ []) :
    overlap (text.drop (text.length - hold needles text) ++ more) needle =
      overlap (text ++ more) needle := by
  have tail : text.drop (text.length - hold needles text) ++ more <:+ text ++ more :=
    ⟨text.take (text.length - hold needles text), by
      rw [← append_assoc, take_append_drop]⟩
  refine le_antisymm (le_overlap (overlap_lt ne) ((take_overlap _ _).trans tail))
    (le_overlap (overlap_lt ne) ?_)
  refine suffix_of_suffix_length_le (take_overlap _ _) tail ?_
  have held := hold_le needles text
  have long := @overlap_lt _ _ (text ++ more) _ ne
  rw [length_take, length_append, length_drop]
  by_contra beyond
  obtain ⟨front, split⟩ : more <:+ needle.take (overlap (text ++ more) needle) := by
    refine suffix_of_suffix_length_le (suffix_append text more) (take_overlap _ _) ?_
    rw [length_take]
    omega
  have ends : front <:+ text := by
    have whole := take_overlap (text ++ more) needle
    rw [← split] at whole
    obtain ⟨tl, eq⟩ := whole
    rw [← append_assoc] at eq
    exact ⟨tl, append_cancel_right eq⟩
  have start : front = needle.take front.length := by
    have lt : front <+: needle :=
      (split ▸ prefix_append front more).trans (List.take_prefix _ _)
    exact prefix_iff_eq_take.mp lt
  have size := congrArg List.length split
  rw [length_append, length_take] at size
  rw [start] at ends
  have bounded := (le_overlap (by omega) ends).trans (overlap_le_hold mem)
  omega

theorem hold_released (ne : [] ∉ needles) :
    hold needles (text.drop (text.length - hold needles text) ++ more) =
      hold needles (text ++ more) := by
  unfold hold
  refine congrArg (List.foldr max 0) (map_congr_left fun needle mem => ?_)
  exact overlap_released mem fun empty => ne (empty ▸ mem)

theorem take_released (ne : [] ∉ needles) (text more : List α) :
    (text ++ more).take ((text ++ more).length - hold needles (text ++ more)) =
      text.take (text.length - hold needles text) ++
        (text.drop (text.length - hold needles text) ++ more).take
          ((text.drop (text.length - hold needles text) ++ more).length -
            hold needles (text.drop (text.length - hold needles text) ++ more)) := by
  have held := hold_le needles text
  have later := hold_le needles (text.drop (text.length - hold needles text) ++ more)
  rw [hold_released ne] at later ⊢
  rw [length_append, length_drop] at later
  have split : (text ++ more).length - hold needles (text ++ more) =
      text.length - hold needles text +
        ((text.drop (text.length - hold needles text) ++ more).length -
          hold needles (text ++ more)) := by
    rw [length_append, length_append, length_drop]
    omega
  rw [split, take_append_add (sub_le _ _)]

theorem drop_hold (ne : [] ∉ needles) (text more : List α) :
    (text ++ more).drop ((text ++ more).length - hold needles (text ++ more)) =
      (text.drop (text.length - hold needles text) ++ more).drop
        ((text.drop (text.length - hold needles text) ++ more).length -
          hold needles (text.drop (text.length - hold needles text) ++ more)) := by
  have pieces := take_append_drop
    ((text ++ more).length - hold needles (text ++ more)) (text ++ more)
  rw [take_released ne, append_assoc] at pieces
  refine append_cancel_left (append_cancel_left (pieces.trans ?_))
  rw [take_append_drop, ← append_assoc, take_append_drop]

end
end Codex.Search

namespace Codex.Subsequence

variable {α β : Type*} [DecidableEq β] (k : α → β)

def greedy : List β → List α → Option (List α)
  | [], _ => some []
  | _ :: _, [] => none
  | want :: wants, entry :: entries =>
    if k entry = want then (greedy wants entries).map (entry :: ·)
    else greedy (want :: wants) entries

@[simp]
theorem greedy_nil (entries : List α) : greedy k [] entries = some [] := by
  cases entries <;> rfl

variable {k} {wants : List β} {entries hits : List α}

theorem greedy_sublist (found : greedy k wants entries = some hits) : hits.Sublist entries := by
  induction entries generalizing wants hits with
  | nil =>
    cases wants with
    | nil =>
      cases found
      exact .slnil
    | cons want wants => cases found
  | cons ent entries ih =>
    cases wants with
    | nil =>
      cases found
      exact List.nil_sublist _
    | cons want wants =>
      rw [greedy] at found
      split_ifs at found with hit
      · obtain ⟨later, tl, rfl⟩ := Option.map_eq_some_iff.mp found
        exact (ih tl).cons_cons ent
      · exact (ih found).cons ent

theorem isSome_greedy : (greedy k wants entries).isSome = true ↔ wants.Sublist (entries.map k) := by
  induction entries generalizing wants with
  | nil => cases wants <;> simp [greedy]
  | cons ent entries ih =>
    cases wants with
    | nil => simp
    | cons want wants =>
      rw [greedy, List.map_cons]
      split_ifs with hit
      · rw [Option.isSome_map, ih, hit, List.cons_sublist_cons]
      rw [ih]
      constructor
      · exact fun later => later.cons _
      intro placed
      cases placed with
      | cons _ later => exact later
      | cons_cons _ later => exact absurd rfl hit

end Codex.Subsequence

namespace Codex.Fresh

variable {α β : Type*} [DecidableEq β]

def seek (taken : List β) (k : α → β) (propose : ℕ → α) : (fuel attempt : ℕ) → Option α
  | 0, _ => none
  | fuel + 1, attempt =>
    if k (propose attempt) ∈ taken then seek taken k propose fuel (attempt + 1)
    else some (propose attempt)

variable {taken : List β} {k : α → β} {propose : ℕ → α} {fuel attempt : ℕ} {found : α}

theorem seek_sound (search : seek taken k propose fuel attempt = some found) :
    (∃ num, found = propose num) ∧ k found ∉ taken := by
  induction fuel generalizing attempt with
  | zero => cases search
  | succ fuel ih =>
    rw [seek] at search
    split_ifs at search with used
    · exact ih search
    cases search
    exact ⟨⟨attempt, rfl⟩, used⟩

theorem mem_of_seek_eq_none (search : seek taken k propose fuel attempt = none) {num : ℕ}
    (reached : num < fuel) : k (propose (attempt + num)) ∈ taken := by
  induction fuel generalizing attempt num with
  | zero => exact absurd reached (Nat.not_lt_zero num)
  | succ fuel ih =>
    rw [seek] at search
    split_ifs at search with used
    cases num with
    | zero => exact used
    | succ num =>
      rw [Nat.add_comm num, ← Nat.add_assoc]
      exact ih search (by omega)

open List

theorem exists_seek (ne : ∀ fst ≤ taken.length, ∀ snd ≤ taken.length,
      k (propose fst) = k (propose snd) → fst = snd) :
    ∃ found, seek taken k propose (taken.length + 1) 0 = some found := by
  cases search : seek taken k propose (taken.length + 1) 0 with
  | some found => exact ⟨found, rfl⟩
  | none =>
    have nodup : ((range (taken.length + 1)).map fun num =>
        k (propose num)).Nodup := by
      apply Nodup.map_on
      · intro fst ins snd ins' eq
        rw [mem_range] at ins ins'
        exact ne fst (by omega) snd (by omega) eq
      · exact nodup_range
    have covered : ((range (taken.length + 1)).map fun num =>
        k (propose num)) ⊆ taken := by
      intro name mem
      obtain ⟨num, ins, rfl⟩ := mem_map.mp mem
      have met := mem_of_seek_eq_none search (mem_range.mp ins)
      rwa [Nat.zero_add] at met
    have longer := (nodup.subperm covered).length_le
    rw [length_map, length_range] at longer
    omega

theorem seek_of_le {more : ℕ} (search : seek taken k propose fuel attempt = some found)
    (enough : fuel ≤ more) : seek taken k propose more attempt = some found := by
  induction fuel generalizing attempt more with
  | zero => cases search
  | succ fuel ih =>
    obtain ⟨more, rfl⟩ : ∃ y, more = y + 1 := ⟨more - 1, by omega⟩
    rw [seek] at search ⊢
    split_ifs at search ⊢ with used
    · exact ih search (by omega)
    · exact search

end Codex.Fresh
