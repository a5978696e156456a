import Mathlib.Data.List.Induction
import Mathlib.Data.List.Sort

/-!
# Tables with sorted keys

A table is a list of entries with ascending keys.
-/

namespace Codex.Table

open List Option

variable {K V W : Type*} [LinearOrder K]

def Sorted (entries : List (K × V)) : Prop :=
  entries.Pairwise fun entry other => entry.1 < other.1

def get (key : K) : List (K × V) → Option V
  | [] => none
  | (other, value) :: rest => if key = other then some value else get key rest

def insert (key : K) (value : V) : List (K × V) → List (K × V)
  | [] => [(key, value)]
  | (other, known) :: rest =>
    if key < other then (key, value) :: (other, known) :: rest
    else if key = other then (key, value) :: rest
    else (other, known) :: insert key value rest

def remove (key : K) (entries : List (K × V)) : List (K × V) :=
  entries.filter fun entry => entry.1 ≠ key

def collect (entries : List (K × V)) : List (K × V) :=
  entries.foldl (fun table entry => insert entry.1 entry.2 table) []

variable {key : K} {value : V} {entries : List (K × V)}

@[simp]
theorem get_nil (key : K) : get key ([] : List (K × V)) = none := rfl

theorem get_insert (key : K) (value : V) (entries : List (K × V)) (y : K) :
    get y (insert key value entries) = if y = key then some value else get y entries := by
  induction entries with
  | nil => simp [insert, get]
  | cons ent tl ih =>
    obtain ⟨head, known⟩ := ent
    rw [insert]
    by_cases pre : key < head
    · rw [if_pos pre, get]
    rw [if_neg pre]
    by_cases eq : key = head
    · subst eq
      rw [if_pos rfl, get, get]
      split_ifs <;> rfl
    rw [if_neg eq, get, get, ih]
    by_cases equal : y = head
    · have apart : y ≠ key := fun equal' => eq (equal'.symm.trans equal)
      rw [if_pos equal, if_neg apart, if_pos equal]
    · rw [if_neg equal, if_neg equal]

theorem get_remove (key : K) (entries : List (K × V)) (y : K) :
    get y (remove key entries) = if y = key then none else get y entries := by
  induction entries with
  | nil => simp [remove]
  | cons ent tl ih =>
    obtain ⟨head, known⟩ := ent
    rw [remove] at ih ⊢
    by_cases eq : head = key
    · rw [filter_cons_of_neg (by simp [eq]), ih, get]
      by_cases equal : y = key
      · rw [if_pos equal, if_pos equal]
      have apart : y ≠ head := fun equal' => equal (equal'.trans eq)
      rw [if_neg equal, if_neg equal, if_neg apart]
    rw [filter_cons_of_pos (by simp [eq]), get, get, ih]
    by_cases equal : y = head
    · have apart : y ≠ key := fun equal' => eq (equal.symm.trans equal')
      rw [if_pos equal, if_neg apart, if_pos equal]
    · rw [if_neg equal, if_neg equal]

theorem mem_of_get (hit : get key entries = some value) : (key, value) ∈ entries := by
  induction entries with
  | nil => cases hit
  | cons ent tl ih =>
    obtain ⟨head, known⟩ := ent
    rw [get] at hit
    split_ifs at hit with eq
    · obtain rfl := some.inj hit
      rw [eq]
      exact mem_cons_self
    · exact mem_cons_of_mem _ (ih hit)

theorem get_of_mem (ord : Sorted entries) (mem : (key, value) ∈ entries) :
    get key entries = some value := by
  induction entries with
  | nil => cases mem
  | cons ent tl ih =>
    obtain ⟨head, known⟩ := ent
    have ⟨above, tail⟩ := pairwise_cons.mp ord
    rcases mem_cons.mp mem with eq | later
    · cases eq
      simp [get]
    have apart : key ≠ head := (above _ later).ne'
    rw [get, if_neg apart]
    exact ih tail later

theorem get_eq_some_iff (ord : Sorted entries) :
    get key entries = some value ↔ (key, value) ∈ entries :=
  ⟨mem_of_get, get_of_mem ord⟩

theorem mem_insert {ent : K × V} (mem : ent ∈ insert key value entries) :
    ent = (key, value) ∨ ent ∈ entries := by
  induction entries with
  | nil => exact .inl (mem_singleton.mp mem)
  | cons head tl ih =>
    obtain ⟨y, known⟩ := head
    rw [insert] at mem
    split_ifs at mem with pre eq
    · exact mem_cons.mp mem
    · exact (mem_cons.mp mem).imp_right (mem_cons_of_mem _)
    rcases mem_cons.mp mem with rfl | later
    · exact .inr mem_cons_self
    · exact (ih later).imp_right (mem_cons_of_mem _)

theorem sorted_insert (ord : Sorted entries) (key : K) (value : V) :
    Sorted (insert key value entries) := by
  induction entries with
  | nil => exact pairwise_singleton _ _
  | cons ent tl ih =>
    obtain ⟨head, known⟩ := ent
    have ⟨above, tail⟩ := pairwise_cons.mp ord
    rw [insert]
    split_ifs with pre eq
    · refine pairwise_cons.mpr ⟨fun y mem => ?_, ord⟩
      rcases mem_cons.mp mem with rfl | later
      · exact pre
      · exact pre.trans (above y later)
    · subst eq
      exact pairwise_cons.mpr ⟨above, tail⟩
    refine pairwise_cons.mpr ⟨fun y mem => ?_, ih tail⟩
    rcases mem_insert mem with rfl | old
    · exact lt_of_le_of_ne (not_lt.mp pre) (Ne.symm eq)
    · exact above y old

theorem sorted_remove (ord : Sorted entries) (key : K) : Sorted (remove key entries) :=
  Pairwise.filter _ ord

theorem eq_of_get {other : List (K × V)} (ord : Sorted entries) (sorted' : Sorted other)
    (eq : ∀ key, get key entries = get key other) : entries = other := by
  have irrefl : Std.Irrefl fun ent other : K × V => ent.1 < other.1 := ⟨fun _ => lt_irrefl _⟩
  have antisymm : Std.Antisymm fun ent other : K × V => ent.1 < other.1 :=
    ⟨fun _ _ less greater => absurd less greater.not_gt⟩
  refine Pairwise.eq_of_mem_iff ord sorted' fun ent => ?_
  rw [← get_eq_some_iff ord, ← get_eq_some_iff sorted', eq]

/-- Entries that are worked in one by one, each at its own key. -/
theorem get_foldl {step : List (K × W) → K × V → List (K × W)}
    (combine : K → Option W → V → Option W)
    (law : ∀ tab ent y, get y (step tab ent) =
      if y = ent.1 then combine y (get y tab) ent.2 else get y tab)
    (ord : Sorted entries) (tab : List (K × W)) (key : K) :
    get key (entries.foldl step tab) =
      (get key entries).elim (get key tab) (combine key (get key tab)) := by
  induction entries generalizing tab with
  | nil => rfl
  | cons ent tl ih =>
    have ⟨above, tail⟩ := pairwise_cons.mp ord
    rw [foldl_cons, ih tail, law, get]
    by_cases eq : key = ent.1
    · have absent : get key tl = none := by
        refine eq_none_iff_forall_ne_some.mpr fun value hit => ?_
        exact (above _ (mem_of_get hit)).ne' eq
      rw [absent, if_pos eq, if_pos eq, elim_none, elim_some]
    · rw [if_neg eq, if_neg eq]

theorem sorted_collect (entries : List (K × V)) : Sorted (collect entries) := by
  rw [collect]
  induction entries using reverseRecOn with
  | nil => exact List.Pairwise.nil
  | append_singleton entries ent ih =>
    rw [foldl_append]
    exact sorted_insert ih ent.1 ent.2

theorem insert_of_above (above : ∀ ent ∈ entries, ent.1 < key) (value : V) :
    insert key value entries = entries ++ [(key, value)] := by
  induction entries with
  | nil => rfl
  | cons ent tl ih =>
    have below := above ent mem_cons_self
    rw [insert, if_neg below.not_gt, if_neg below.ne',
      ih fun y later => above y (mem_cons_of_mem _ later)]
    rfl

theorem collect_of_sorted (ord : Sorted entries) : collect entries = entries := by
  rw [collect]
  induction entries using reverseRecOn with
  | nil => rfl
  | append_singleton entries ent ih =>
    have ⟨front, _, cross⟩ := pairwise_append.mp ord
    rw [foldl_append, ih front]
    exact insert_of_above (fun y mem => cross y mem ent (by simp)) ent.2

def mapValues (convert : V → W) (entries : List (K × V)) : List (K × W) :=
  entries.map fun entry => (entry.1, convert entry.2)

theorem insert_mapValues (convert : V → W) (key : K) (value : V) (entries : List (K × V)) :
    insert key (convert value) (mapValues convert entries) =
      mapValues convert (insert key value entries) := by
  induction entries with
  | nil => rfl
  | cons ent tl ih =>
    rw [mapValues, map_cons, insert, insert, ← mapValues, ih]
    split_ifs <;> rfl

theorem collect_mapValues (convert : V → W) (entries : List (K × V)) :
    collect (mapValues convert entries) = mapValues convert (collect entries) := by
  rw [collect, collect]
  induction entries using reverseRecOn with
  | nil => rfl
  | append_singleton entries ent ih =>
    rw [mapValues, map_append, foldl_append, ← mapValues, ih, foldl_append]
    exact insert_mapValues convert ent.1 ent.2 _

end Codex.Table
