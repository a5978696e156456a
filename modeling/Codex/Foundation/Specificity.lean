import Mathlib.Data.List.MinMax
import Mathlib.Data.Prod.Lex

/-!
# The most specific rule

Rules have a depth and a value.
-/

namespace Codex.Specificity

open List

structure Rule (α : Type*) where
  depth : Nat
  value : α
  deriving DecidableEq

variable {α : Type*}

def Rule.rank (rule : Rule α) : Nat ×ₗ α := toLex (rule.depth, rule.value)

open Option Rule

theorem Rule.rank_injective : Function.Injective (rank : Rule α → Nat ×ₗ α) := by
  rintro ⟨depth, value⟩ ⟨depth', value'⟩ eq
  obtain ⟨rfl, rfl⟩ := Prod.mk.inj (toLex.injective eq)
  rfl

variable [LinearOrder α]

theorem Rule.rank_le {rule other : Rule α} : rule.rank ≤ other.rank ↔
      rule.depth < other.depth ∨ rule.depth = other.depth ∧ rule.value ≤ other.value :=
  Prod.Lex.toLex_le_toLex

def verdict (fallback : α) (rules : List (Rule α)) : α :=
  ((rules.argmax Rule.rank).map Rule.value).getD fallback

def Decides (rules : List (Rule α)) (rule : Rule α) : Prop :=
  rule ∈ rules ∧ ∀ other ∈ rules, other.rank ≤ rule.rank

variable {rules more : List (Rule α)} {rule : Rule α} {fallback : α}

theorem Decides.verdict_eq (decides : Decides rules rule) :
    verdict fallback rules = rule.value := by
  cases top : rules.argmax rank with
  | none => exact absurd (argmax_eq_none.mp top) (ne_nil_of_mem decides.1)
  | some hit =>
    have eq : hit = rule := rank_injective
      (le_antisymm (decides.2 hit (argmax_mem top))
        (le_of_mem_argmax decides.1 top))
    rw [verdict, top, eq, map_some, getD_some]

theorem exists_decides (ne : rules ≠ []) : ∃ rule, Decides rules rule := by
  cases top : rules.argmax rank with
  | none => exact absurd (argmax_eq_none.mp top) ne
  | some hit =>
    exact ⟨hit, argmax_mem top, fun other mem => le_of_mem_argmax mem top⟩

theorem verdict_cases (fallback : α) (rules : List (Rule α)) :
    rules = [] ∧ verdict fallback rules = fallback ∨
      ∃ rule, Decides rules rule ∧ verdict fallback rules = rule.value := by
  by_cases empty : rules = []
  · subst empty
    exact .inl ⟨rfl, rfl⟩
  obtain ⟨rule, decides⟩ := exists_decides empty
  exact .inr ⟨rule, decides, decides.verdict_eq⟩

theorem Decides.of_subset (decides : Decides more rule) (subset : rules ⊆ more)
    (mem : rule ∈ rules) : Decides rules rule :=
  ⟨mem, fun other has => decides.2 other (subset has)⟩

section

variable {ι : Type*} [DecidableEq ι] {ents more : List (List ι × α)} {node root : List ι}
  {value : α}

def covering (ents : List (List ι × α)) (node : List ι) : List (Rule α) :=
  ents.filterMap fun entry => if entry.1 <+: node then some ⟨entry.1.length, entry.2⟩ else none

def valueAt (fallback : α) (ents : List (List ι × α)) (node : List ι) : α :=
  verdict fallback (covering ents node)

def DecidesAt (ents : List (List ι × α)) (node root : List ι) (value : α) : Prop :=
  (root, value) ∈ ents ∧ root <+: node ∧
    ∀ other otherValue, (other, otherValue) ∈ ents → other <+: node →
      other.length < root.length ∨ other = root ∧ otherValue ≤ value

omit [LinearOrder α] in
theorem mem_covering : rule ∈ covering ents node ↔
    ∃ root, (root, rule.value) ∈ ents ∧ root <+: node ∧ root.length = rule.depth := by
  rw [covering, mem_filterMap]
  constructor
  · rintro ⟨⟨root, value⟩, mem, ranked⟩
    split_ifs at ranked with above
    cases ranked
    exact ⟨root, mem, above, rfl⟩
  rintro ⟨root, mem, above, depth⟩
  exact ⟨(root, rule.value), mem, by simp [above, depth]⟩

omit [DecidableEq ι] in
theorem eq_of_prefix_of_length {other : List ι} (above : root <+: node) (above' : other <+: node)
    (level : root.length = other.length) : root = other :=
  (prefix_of_prefix_length_le above above' level.le).eq_of_length level

theorem DecidesAt.valueAt_eq (decides : DecidesAt ents node root value) :
    valueAt fallback ents node = value := by
  have top : Decides (covering ents node) ⟨root.length, value⟩ := by
    refine ⟨mem_covering.mpr ⟨root, decides.1, decides.2.1, rfl⟩, fun other mem => ?_⟩
    obtain ⟨place, has, above, level⟩ := mem_covering.mp mem
    rcases decides.2.2 place other.value has above with lt | ⟨eq, weaker⟩
    · exact Rule.rank_le.mpr (.inl (by simpa [level] using lt))
    · exact Rule.rank_le.mpr (.inr ⟨by rw [← level, eq], weaker⟩)
  exact top.verdict_eq

theorem exists_decidesAt (mem : (root, value) ∈ ents) (above : root <+: node) :
    ∃ top decided, DecidesAt ents node top decided := by
  have some : covering ents node ≠ [] :=
    ne_nil_of_mem (mem_covering.mpr ⟨root, mem, above, rfl⟩ :
      (⟨root.length, value⟩ : Rule α) ∈ covering ents node)
  obtain ⟨rule, decides⟩ := exists_decides some
  obtain ⟨place, has, prefixes, level⟩ := mem_covering.mp decides.1
  refine ⟨place, rule.value, has, prefixes, fun other y mine beyond => ?_⟩
  have ranked := decides.2 ⟨other.length, y⟩ (mem_covering.mpr ⟨other, mine, beyond, rfl⟩)
  rcases Rule.rank_le.mp ranked with lt | ⟨eq, weaker⟩
  · exact .inl (by rw [level]; exact lt)
  · exact .inr ⟨eq_of_prefix_of_length beyond prefixes (by rw [level]; exact eq), weaker⟩

theorem valueAt_cases (fallback : α) (ents : List (List ι × α)) (node : List ι) :
    (∀ root value, (root, value) ∈ ents → ¬ root <+: node) ∧ valueAt fallback ents node = fallback ∨
      ∃ root value, DecidesAt ents node root value ∧ valueAt fallback ents node = value := by
  by_cases covered : ∃ root value, (root, value) ∈ ents ∧ root <+: node
  · obtain ⟨root, value, mem, above⟩ := covered
    obtain ⟨top, decided, decides⟩ := exists_decidesAt mem above
    exact .inr ⟨top, decided, decides, decides.valueAt_eq⟩
  have none : ∀ root value, (root, value) ∈ ents → ¬ root <+: node :=
    fun root value mem above => covered ⟨root, value, mem, above⟩
  have silent : covering ents node = [] := by
    refine eq_nil_iff_forall_not_mem.mpr fun rule mem => ?_
    obtain ⟨root, has, above, -⟩ := mem_covering.mp mem
    exact none root rule.value has above
  exact .inl ⟨none, by rw [valueAt, silent]; rfl⟩

omit [DecidableEq ι] in
theorem DecidesAt.at_root {inner : List ι} (decides : DecidesAt ents node root value)
    (between : root <+: inner) (above : inner <+: node) : DecidesAt ents inner root value :=
  ⟨decides.1, between, fun other y mem beyond =>
    decides.2.2 other y mem (beyond.trans above)⟩

omit [DecidableEq ι] in
theorem DecidesAt.unique {other : List ι} {y : α} (decides : DecidesAt ents node root value)
    (decides' : DecidesAt ents node other y) : root = other := by
  rcases decides.2.2 other y decides'.1 decides'.2.1 with lt | ⟨eq, -⟩
  · rcases decides'.2.2 root value decides.1 decides.2.1 with deeper | ⟨eq, -⟩
    · exact absurd deeper lt.not_gt
    · exact eq
  · exact eq.symm

theorem valueAt_eq_iff (proper : value ≠ fallback) :
    valueAt fallback ents node = value ↔ ∃ root, DecidesAt ents node root value := by
  constructor
  · intro valued
    rcases valueAt_cases fallback ents node with ⟨-, silent⟩ | ⟨root, decided, decides, eq⟩
    · exact absurd (valued.symm.trans silent) proper
    · exact ⟨root, (eq.symm.trans valued) ▸ decides⟩
  rintro ⟨root, decides⟩
  exact decides.valueAt_eq

omit [DecidableEq ι] in
theorem DecidesAt.at_child (decides : DecidesAt ents root root value) {x : ι}
    (bare : ∀ other, (root ++ [x], other) ∉ ents) : DecidesAt ents (root ++ [x]) root value := by
  refine ⟨decides.1, prefix_append root [x], fun other y mem above => ?_⟩
  rcases prefix_concat_iff.mp above with rfl | le
  · exact absurd mem (bare y)
  · exact decides.2.2 other y mem le

end

end Codex.Specificity
