import Codex.Foundation.Map

/-!
# Edits of a finite map, previewed and carried out

Edits are previewed on the initial map or run one after another.
-/

namespace Codex

open List Option

inductive Edit (K V : Type*)
  | write (key : K) (value : V)
  | remove (key : K)
  | rewrite (key : K) (change : V → Option V)
  | move (key destination : K) (change : V → Option V)

open Map

namespace Edit

variable {K V : Type*} [DecidableEq K]

def key : Edit K V → K
  | .write key _ | .remove key | .rewrite key _ | .move key _ _ => key

def target : Edit K V → Option K
  | .write key _ | .rewrite key _ => some key
  | .remove _ => none
  | .move _ destination _ => some destination

def clears : Edit K V → Option K
  | .remove key => some key
  | .move key destination _ => if key = destination then none else some key
  | _ => none

def preview (init : Map K V) : Edit K V → Option V
  | .write _ value => some value
  | .remove _ => none
  | .rewrite key change | .move key _ change => init.lookup key >>= change

def run : Edit K V → Map K V → Option (Map K V)
  | .write key value, map => some (map.insert key value)
  | .remove key, map => (map.lookup key).map fun _ => map.erase key
  | .rewrite key change, map => (map.lookup key >>= change).map fun value => map.insert key value
  | .move key destination change, map =>
    (map.lookup key >>= change).map fun value => (map.insert destination value).erase key

def Leaves (init : Map K V) (edit : Edit K V) (key : K) (value : V) : Prop :=
  edit.target = some key ∧ edit.preview init = some value

def Avoids (edit : Edit K V) (key : K) : Prop := edit.key ≠ key ∧ edit.target ≠ some key

variable {edit : Edit K V} {map after : Map K V} {cleared : K} {init : Map K V} {left : K}
  {other : Map K V}

theorem lookup_of_avoids {other : K} (ran : edit.run map = some after)
    (avoids : edit.Avoids other) : after.lookup other = map.lookup other := by
  obtain ⟨keyOther, targetOther⟩ := avoids
  cases edit with
  | write key value =>
    obtain rfl := some.inj ran
    rw [lookup_insert, if_neg fun eq => keyOther eq.symm]
  | remove key =>
    obtain ⟨_, _, rfl⟩ := map_eq_some_iff.mp ran
    rw [lookup_erase, if_neg fun eq => keyOther eq.symm]
  | rewrite key change =>
    obtain ⟨_, _, rfl⟩ := map_eq_some_iff.mp ran
    rw [lookup_insert, if_neg fun eq => keyOther eq.symm]
  | move key dest change =>
    obtain ⟨_, _, rfl⟩ := map_eq_some_iff.mp ran
    rw [lookup_erase, if_neg fun eq => keyOther eq.symm, lookup_insert,
      if_neg fun eq => targetOther (congrArg some eq.symm)]

theorem lookup_of_clears (ran : edit.run map = some after) (clears : edit.clears = some cleared) :
    after.lookup cleared = none := by
  cases edit with
  | write | rewrite => cases clears
  | remove key =>
    obtain rfl := some.inj clears
    obtain ⟨_, _, rfl⟩ := map_eq_some_iff.mp ran
    rw [lookup_erase, if_pos rfl]
  | move key dest change =>
    obtain ⟨_, _, rfl⟩ := map_eq_some_iff.mp ran
    simp only [Edit.clears] at clears
    split at clears
    · cases clears
    cases clears
    rw [lookup_erase, if_pos rfl]

theorem lookup_of_leaves {value : V} (ran : edit.run map = some after)
    (leaves : edit.Leaves init left value) (eq : map.lookup edit.key = init.lookup edit.key)
    (proper : ∀ change, edit ≠ .move left left change) : after.lookup left = some value := by
  obtain ⟨target, preview⟩ := leaves
  cases edit with
  | write key written =>
    obtain rfl := some.inj ran
    obtain rfl := some.inj target
    obtain rfl := some.inj preview
    rw [lookup_insert, if_pos rfl]
  | remove key => cases target
  | rewrite key change =>
    obtain rfl := some.inj target
    obtain ⟨res, made, rfl⟩ := map_eq_some_iff.mp ran
    rw [lookup_insert, if_pos rfl, ← preview, ← made]
    exact congrArg (· >>= change) eq
  | move key dest change =>
    obtain rfl := some.inj target
    obtain ⟨res, made, rfl⟩ := map_eq_some_iff.mp ran
    have other : dest ≠ key := fun equal => proper change (by rw [equal])
    rw [lookup_erase, if_neg other, lookup_insert, if_pos rfl, ← preview, ← made]
    exact congrArg (· >>= change) eq

theorem run_isSome_congr (eq : map.lookup edit.key = other.lookup edit.key) :
    (edit.run map).isSome = (edit.run other).isSome := by
  cases edit with
  | write => rfl
  | remove key | rewrite key change | move key destination change =>
    simp only [Edit.key] at eq
    simp only [run, eq, isSome_map]

theorem lookup_key_congr {after' : Map K V} (eq : map.lookup edit.key = other.lookup edit.key)
    (ran : edit.run map = some after) (ran' : edit.run other = some after') :
    after.lookup edit.key = after'.lookup edit.key := by
  cases edit with
  | write key value =>
    obtain rfl := some.inj ran
    obtain rfl := some.inj ran'
    simp [Edit.key]
  | remove key =>
    obtain ⟨_, _, rfl⟩ := map_eq_some_iff.mp ran
    obtain ⟨_, _, rfl⟩ := map_eq_some_iff.mp ran'
    simp [Edit.key]
  | rewrite key change =>
    simp only [Edit.key] at eq
    obtain ⟨res, made, rfl⟩ := map_eq_some_iff.mp ran
    obtain ⟨res', computed', rfl⟩ := map_eq_some_iff.mp ran'
    rw [eq, computed'] at made
    cases made
    simp [Edit.key]
  | move key dest change =>
    obtain ⟨_, _, rfl⟩ := map_eq_some_iff.mp ran
    obtain ⟨_, _, rfl⟩ := map_eq_some_iff.mp ran'
    simp [Edit.key]

theorem key_of_clears (clears : edit.clears = some cleared) : edit.key = cleared := by
  cases edit with
  | write | rewrite => cases clears
  | remove key => exact some.inj clears
  | move key dest change =>
    simp only [Edit.clears] at clears
    split at clears
    · cases clears
    · exact some.inj clears

theorem clears_ne_target (tgt : edit.target = some left) : edit.clears ≠ some left := by
  intro clears
  cases edit with
  | write | rewrite => cases clears
  | remove => cases tgt
  | move key destination change =>
    have eq : key = destination := (key_of_clears clears).trans (some.inj tgt).symm
    rw [Edit.clears, if_pos eq] at clears
    cases clears

theorem target_or_clears (edit : Edit K V) :
    edit.target = some edit.key ∨ edit.clears = some edit.key := by
  cases edit with
  | write | rewrite => exact .inl rfl
  | remove => exact .inr rfl
  | move key dest change =>
    by_cases eq : key = dest
    · exact .inl (congrArg some eq.symm)
    · exact .inr (if_neg eq)

theorem exists_leaves {key : K} (valid : (edit.run init).isSome = true)
    (tgt : edit.target = some key) : ∃ value, edit.Leaves init key value := by
  obtain ⟨after, ran⟩ := isSome_iff_exists.mp valid
  cases edit with
  | write key value => exact ⟨value, tgt, rfl⟩
  | remove => cases tgt
  | rewrite key change | move key destination change =>
    obtain ⟨value, made, -⟩ := map_eq_some_iff.mp ran
    exact ⟨value, tgt, made⟩

end Edit

section

variable {K V : Type*} [DecidableEq K]

def runEdits (edits : List (Edit K V)) (map : Map K V) : Option (Map K V) :=
  edits.foldlM (fun map edit => edit.run map) map

theorem runEdits_append (front back : List (Edit K V)) (map : Map K V) :
    runEdits (front ++ back) map = runEdits front map >>= runEdits back :=
  foldlM_append

theorem runEdits_singleton (edit : Edit K V) (map : Map K V) :
    runEdits [edit] map = edit.run map := by
  simp [runEdits]

theorem exists_of_runEdits_middle {front back : List (Edit K V)} {edit : Edit K V}
    {init final : Map K V} (ran : runEdits (front ++ edit :: back) init = some final) :
    ∃ pre after, runEdits front init = some pre ∧ edit.run pre = some after ∧
      runEdits back after = some final := by
  rw [runEdits_append] at ran
  obtain ⟨pre, ranFront, ranRest⟩ := bind_eq_some_iff.mp ran
  obtain ⟨after, ranEdit, ranBack⟩ := bind_eq_some_iff.mp ranRest
  exact ⟨pre, after, ranFront, ranEdit, ranBack⟩

variable {after : Map K V} {key : K} {other : Edit K V} {pre : Map K V} {value : V}

theorem lookup_of_runEdits {edits : List (Edit K V)} {map : Map K V}
    (ran : runEdits edits map = some after) (avoid : ∀ edit ∈ edits, edit.Avoids key) :
    after.lookup key = map.lookup key := by
  induction edits generalizing map with
  | nil =>
    obtain rfl := some.inj ran
    rfl
  | cons edit edits ih =>
    obtain ⟨middle, fst, tl⟩ := bind_eq_some_iff.mp ran
    rw [ih tl fun other mem => avoid other (by simp [mem])]
    exact Edit.lookup_of_avoids fst (avoid edit (by simp))

structure CarriedOut (init : Map K V) (edits : List (Edit K V)) (final : Map K V) : Prop where
  left : ∀ edit ∈ edits, ∀ key value, edit.Leaves init key value → final.lookup key = some value
  cleared : ∀ edit ∈ edits, ∀ key, edit.clears = some key → final.lookup key = none
  unchanged : ∀ key, (∀ edit ∈ edits, edit.Avoids key) → final.lookup key = init.lookup key

/-- The keys are distinct and each edit succeeds on the initial map. -/
structure Previewed (init : Map K V) (edits : List (Edit K V)) : Prop where
  distinct : (edits.map Edit.key).Nodup
  valid : ∀ edit ∈ edits, (edit.run init).isSome = true

structure Consistent (init : Map K V) (edits : List (Edit K V)) : Prop where
  agree : ∀ edit ∈ edits, ∀ other ∈ edits, ∀ key value value', edit.Leaves init key value →
    other.Leaves init key value' → value = value'
  kept : ∀ edit ∈ edits, ∀ other ∈ edits, ∀ key, edit.target = some key → other.clears ≠ some key

structure Harmless (init : Map K V) (edits : List (Edit K V)) : Prop
    extends Consistent init edits where
  repeated : ∀ front key change back, edits = front ++ .move key key change :: back →
    ∃ other ∈ back, other.target = some key
  /-- An edit that leaves the same value as an earlier one at its own key applies to that value. -/
  reapplies : ∀ front edit back value, edits = front ++ edit :: back →
    edit.Leaves init edit.key value → (∃ other ∈ front, other.target = some edit.key) →
    ∃ after, edit.run (init.insert edit.key value) = some after ∧
      (after.lookup edit.key = some value ∨ ∃ other ∈ back, other.target = some edit.key)

variable {init : Map K V} {edits front back : List (Edit K V)} {edit : Edit K V}

private theorem exists_last {α : Type*} {property : α → Prop} {list : List α}
    (hit : ∃ x ∈ list, property x) :
    ∃ front x back, list = front ++ x :: back ∧ property x ∧ ¬ ∃ y ∈ back, property y := by
  induction list with
  | nil =>
    obtain ⟨x, mem, -⟩ := hit
    cases mem
  | cons x tl ih =>
    by_cases later : ∃ y ∈ tl, property y
    · obtain ⟨front, y, back, split, holds, last⟩ := ih later
      exact ⟨x :: front, y, back, by rw [split, cons_append], holds, last⟩
    refine ⟨[], x, tl, rfl, ?_, later⟩
    obtain ⟨y, mem, holds⟩ := hit
    rcases mem_cons.mp mem with rfl | mem
    · exact holds
    · exact absurd ⟨y, mem, holds⟩ later

/-- A single edit that does not move a key onto itself is harmless. -/
theorem Harmless.singleton (proper : ∀ key change, edit ≠ .move key key change) :
    Harmless init [edit] where
  agree _ mem _ mem' key value value' leaves leaves' := by
    obtain rfl := mem_singleton.mp mem
    obtain rfl := mem_singleton.mp mem'
    exact some.inj (leaves.2.symm.trans leaves'.2)
  kept _ mem _ mem' key tgt clears := by
    obtain rfl := mem_singleton.mp mem
    obtain rfl := mem_singleton.mp mem'
    exact Edit.clears_ne_target tgt clears
  repeated front key change back split := by
    have mem : Edit.move key key change ∈ [edit] := by simp [split]
    exact absurd (mem_singleton.mp mem).symm (proper key change)
  reapplies front other back value split _ moved := by
    obtain ⟨rfl, -⟩ | ⟨-, never⟩ := singleton_eq_append_iff.mp split
    · obtain ⟨earlier, mem, -⟩ := moved
      cases mem
    · cases never

section

variable (previewed : Previewed init edits)
include previewed

private theorem key_ne_of_mem
    (split : edits = front ++ edit :: back) (mem : other ∈ front ++ back) :
    other.key ≠ edit.key := by
  have distinct := previewed.distinct
  rw [split, map_append, map_cons, nodup_middle, nodup_cons, ← map_append] at distinct
  exact fun eq => distinct.1 (eq ▸ mem_map_of_mem mem)

private theorem lookup_of_source
    (sound : Consistent init edits) (split : edits = front ++ edit :: back)
    (ran : runEdits front init = some pre) (clears : edit.clears = some edit.key) :
    pre.lookup edit.key = init.lookup edit.key := by
  refine lookup_of_runEdits ran fun other mem =>
    ⟨key_ne_of_mem previewed split (mem_append_left _ mem), ?_⟩
  intro tgt
  exact sound.kept other (by simp [split, mem]) edit (by simp [split]) _ tgt clears

private theorem lookup_of_front (sound : Consistent init edits) (split : edits = front ++ back)
    (ran : runEdits front init = some after) (others : ∀ other ∈ front, other.key ≠ key)
    (mem : edit ∈ front) (leaves : edit.Leaves init key value) : after.lookup key = some value := by
  induction front using reverseRecOn generalizing back after with
  | nil => cases mem
  | append_singleton front last ih =>
    rw [runEdits_append] at ran
    obtain ⟨pre, ranFront, ranLast⟩ := bind_eq_some_iff.mp ran
    rw [runEdits_singleton] at ranLast
    have split' : edits = front ++ last :: back := by simp [split]
    have lastKey : last.key ≠ key := others last (by simp)
    by_cases target : last.target = some key
    · have clears : last.clears = some last.key := last.target_or_clears.resolve_left
        fun own => lastKey (some.inj (own.symm.trans target))
      have valid := previewed.valid last (by simp [split'])
      obtain ⟨value', leaves'⟩ := Edit.exists_leaves valid target
      have eq : value' = value := sound.agree last (by simp [split']) edit
        (split ▸ mem_append_left _ mem) key value' value leaves' leaves
      rw [← eq]
      refine Edit.lookup_of_leaves ranLast leaves'
        (lookup_of_source previewed sound split' ranFront clears) ?_
      rintro change rfl
      exact lastKey rfl
    have inFront : edit ∈ front := by
      rcases mem_append.mp mem with inFront | isLast
      · exact inFront
      · exact absurd (mem_singleton.mp isLast ▸ leaves.1) target
    rw [Edit.lookup_of_avoids ranLast ⟨lastKey, target⟩]
    exact ih split' ranFront
      (fun other mem2 => others other (by simp [mem2])) inFront

/-- The map holds the value there if an earlier edit left it. -/
private theorem lookup_of_moved
    (sound : Consistent init edits) (split : edits = front ++ edit :: back)
    (ran : runEdits front init = some pre) (leaves : edit.Leaves init edit.key value)
    (moved : ∃ other ∈ front, other.target = some edit.key) :
    pre.lookup edit.key = (init.insert edit.key value).lookup edit.key := by
  obtain ⟨other, mem, tgt⟩ := moved
  have memberEdits : other ∈ edits := split ▸ mem_append_left _ mem
  obtain ⟨value', leaves'⟩ := Edit.exists_leaves (previewed.valid other memberEdits) tgt
  have eq : value' = value := sound.agree other memberEdits edit (by simp [split])
    edit.key value' value leaves' leaves
  rw [lookup_insert, if_pos rfl, ← eq]
  exact lookup_of_front previewed sound split ran
    (fun _ mem => key_ne_of_mem previewed split (mem_append_left _ mem)) mem leaves'

variable {final : Map K V}

private theorem CarriedOut.consistent
    (carried : CarriedOut init edits final) : Consistent init edits where
  agree edit mem other memberOther key value value' leaves leaves' := by
    have here := carried.left edit mem key value leaves
    rw [carried.left other memberOther key value' leaves'] at here
    exact (some.inj here).symm
  kept edit mem other memberOther key target clears := by
    obtain ⟨value, leaves⟩ := Edit.exists_leaves (previewed.valid edit mem) target
    have here := carried.left edit mem key value leaves
    rw [carried.cleared other memberOther key clears] at here
    cases here

private theorem lookup_of_back
    (split : edits = front ++ edit :: back) (ran : runEdits back after = some final)
    (last : ¬ ∃ other ∈ back, other.target = some edit.key) :
    final.lookup edit.key = after.lookup edit.key :=
  lookup_of_runEdits ran fun other mem =>
    ⟨key_ne_of_mem previewed split (mem_append_right _ mem), fun tgt => last ⟨other, mem, tgt⟩⟩

theorem CarriedOut.harmless
    (ran : runEdits edits init = some final) (carried : CarriedOut init edits final) :
    Harmless init edits where
  toConsistent := carried.consistent previewed
  repeated front key change back split := by
    by_contra last
    obtain ⟨pre, after, -, ranEdit, ranBack⟩ := exists_of_runEdits_middle (split ▸ ran)
    have mem : Edit.move key key change ∈ edits := by simp [split]
    obtain ⟨value, leaves⟩ := Edit.exists_leaves (previewed.valid _ mem) rfl
    have holds := carried.left _ mem key value leaves
    have gone : after.lookup key = none := by
      obtain ⟨res, -, rfl⟩ := map_eq_some_iff.mp ranEdit
      rw [lookup_erase, if_pos rfl]
    have kept : final.lookup key = after.lookup key :=
      lookup_of_back previewed split ranBack last
    rw [kept, gone] at holds
    cases holds
  reapplies front edit back value split leaves moved := by
    obtain ⟨pre, after, ranFront, ranEdit, ranBack⟩ := exists_of_runEdits_middle (split ▸ ran)
    have eq :=
      lookup_of_moved previewed (carried.consistent previewed) split ranFront leaves moved
    have succeeds := Edit.run_isSome_congr eq
    rw [ranEdit, isSome_some] at succeeds
    obtain ⟨after', ranEdit'⟩ := isSome_iff_exists.mp succeeds.symm
    refine ⟨after', ranEdit', or_iff_not_imp_right.mpr fun last => ?_⟩
    rw [← Edit.lookup_key_congr eq ranEdit ranEdit', ← lookup_of_back previewed split ranBack last]
    exact carried.left edit (by simp [split]) edit.key value leaves

section

variable (harmless : Harmless init edits)
include harmless

private theorem Harmless.run_isSome (split : edits = front ++ edit :: back)
    (ran : runEdits front init = some pre) : (edit.run pre).isSome = true := by
  have valid := previewed.valid edit (by simp [split])
  by_cases moved : ∃ other ∈ front, other.target = some edit.key
  · have own : edit.target = some edit.key := edit.target_or_clears.resolve_right fun clears =>
      have ⟨other, mem, tgt⟩ := moved
      harmless.kept other (by simp [split, mem]) edit (by simp [split]) _ tgt clears
    obtain ⟨value, leaves⟩ := Edit.exists_leaves valid own
    obtain ⟨after, reapplied, -⟩ := harmless.reapplies front edit back value split leaves moved
    rw [Edit.run_isSome_congr
      (lookup_of_moved previewed harmless.toConsistent split ran leaves moved), reapplied]
    rfl
  rw [Edit.run_isSome_congr (lookup_of_runEdits ran fun other mem =>
    ⟨key_ne_of_mem previewed split (mem_append_left _ mem), fun tgt => moved ⟨other, mem, tgt⟩⟩)]
  exact valid

private theorem Harmless.exists_run (split : edits = front ++ back) :
    ∃ after, runEdits front init = some after := by
  induction front using reverseRecOn generalizing back with
  | nil => exact ⟨init, rfl⟩
  | append_singleton front last ih =>
    have split' : edits = front ++ last :: back := by simp [split]
    obtain ⟨pre, ran⟩ := ih split'
    obtain ⟨after, ranLast⟩ :=
      isSome_iff_exists.mp (harmless.run_isSome previewed split' ran)
    exact ⟨after, by rw [runEdits_append, ran, ← ranLast, ← runEdits_singleton]; rfl⟩

private theorem Harmless.lookup_of_last (split : edits = front ++ edit :: back)
    (ranFront : runEdits front init = some pre) (ranEdit : edit.run pre = some after)
    (leaves : edit.Leaves init key value) (last : ¬ ∃ other ∈ back, other.target = some key) :
    after.lookup key = some value := by
  have proper (change) : edit ≠ .move key key change := by
    rintro rfl
    exact last (harmless.repeated front key change back split)
  by_cases moved : ∃ other ∈ front, other.target = some edit.key
  · have own : edit.key = key := by
      rcases edit.target_or_clears with own | clears
      · exact some.inj (own.symm.trans leaves.1)
      obtain ⟨other, mem, tgt⟩ := moved
      exact absurd clears
        (harmless.kept other (by simp [split, mem]) edit (by simp [split]) _ tgt)
    subst own
    obtain ⟨after', reapplied, holds⟩ := harmless.reapplies front edit back value split leaves moved
    have eq := lookup_of_moved previewed harmless.toConsistent split ranFront leaves moved
    rw [Edit.lookup_key_congr eq ranEdit reapplied]
    exact holds.resolve_right last
  exact Edit.lookup_of_leaves ranEdit leaves (lookup_of_runEdits ranFront fun other mem =>
    ⟨key_ne_of_mem previewed split (mem_append_left _ mem), fun tgt => moved ⟨other, mem, tgt⟩⟩)
    proper

theorem Harmless.carriedOut (ran : runEdits edits init = some final) :
    CarriedOut init edits final where
  left edit mem key value leaves := by
    obtain ⟨front, lastEdit, back, split, tgt, last⟩ :=
      @exists_last _ (fun other => other.target = some key) _ ⟨edit, mem, leaves.1⟩
    obtain ⟨pre, after, ranFront, ranEdit, ranBack⟩ := exists_of_runEdits_middle (split ▸ ran)
    have memberLast : lastEdit ∈ edits := by simp [split]
    obtain ⟨value', leaves'⟩ := Edit.exists_leaves (previewed.valid lastEdit memberLast) tgt
    obtain rfl := harmless.agree lastEdit memberLast edit mem key value' value leaves' leaves
    rw [← harmless.lookup_of_last previewed split ranFront ranEdit leaves' last]
    refine lookup_of_runEdits ranBack fun other mem2 =>
      ⟨?_, fun here => last ⟨other, mem2, here⟩⟩
    rintro rfl
    -- An edit of this key that leaves no value there would clear it.
    exact harmless.kept lastEdit memberLast other (by simp [split, mem2]) _ tgt
      (other.target_or_clears.resolve_left fun here => last ⟨other, mem2, here⟩)
  cleared edit mem key clears := by
    obtain ⟨front, back, split⟩ := append_of_mem mem
    obtain ⟨pre, after, -, ranEdit, ranBack⟩ := exists_of_runEdits_middle (split ▸ ran)
    obtain rfl := Edit.key_of_clears clears
    rw [lookup_of_back previewed split ranBack]
    · exact Edit.lookup_of_clears ranEdit clears
    rintro ⟨other, mem2, tgt⟩
    exact harmless.kept other (by simp [split, mem2]) edit mem _ tgt clears
  unchanged key avoid := lookup_of_runEdits ran avoid

end

theorem carriedOut_iff_harmless :
    (∃ final, runEdits edits init = some final ∧ CarriedOut init edits final) ↔
      Harmless init edits := by
  constructor
  · rintro ⟨final, ran, carried⟩
    exact carried.harmless previewed ran
  intro harmless
  obtain ⟨final, ran⟩ := harmless.exists_run previewed (append_nil edits).symm
  exact ⟨final, ran, harmless.carriedOut previewed ran⟩

end

end
end Codex
