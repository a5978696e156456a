import Mathlib.Algebra.Order.BigOperators.Group.Finset
import Mathlib.Data.Finmap

/-!
# Finite maps

`Finmap` with values of one type, and reorder buffers.
-/

namespace Codex

abbrev Map (K V : Type*) := Finmap fun _ : K => V

namespace Map

variable {K V : Type*} [DecidableEq K]

theorem lookup_insert (map : Map K V) (key : K) (value : V) (y : K) :
    Finmap.lookup y (Finmap.insert key value map) =
      if y = key then some value else Finmap.lookup y map := by
  split
  · subst y
    exact Finmap.lookup_insert map
  rename_i ne
  exact Finmap.lookup_insert_of_ne map ne

theorem lookup_erase (map : Map K V) (key y : K) : Finmap.lookup y (Finmap.erase key map) =
      if y = key then none else Finmap.lookup y map := by
  split
  · subst y
    exact Finmap.lookup_erase _ map
  rename_i ne
  exact Finmap.lookup_erase_ne ne

theorem of_lookup_insert {map : Map K V} {key y : K} {value kept : V}
    (hit : Finmap.lookup y (Finmap.insert key value map) = some kept) :
    y = key ∧ kept = value ∨ y ≠ key ∧ Finmap.lookup y map = some kept := by
  rw [lookup_insert] at hit
  split_ifs at hit with own
  · exact .inl ⟨own, (Option.some.inj hit).symm⟩
  · exact .inr ⟨own, hit⟩

theorem of_lookup_erase {map : Map K V} {key y : K} {value : V}
    (hit : Finmap.lookup y (Finmap.erase key map) = some value) :
    y ≠ key ∧ Finmap.lookup y map = some value := by
  rw [lookup_erase] at hit
  split_ifs at hit with own
  exact ⟨own, hit⟩

theorem card_keys_erase_lt {map : Map K V} {key : K} {value : V}
    (hit : Finmap.lookup key map = some value) : (map.erase key).keys.card < map.keys.card := by
  rw [Finmap.keys_erase]
  refine Finset.card_erase_lt_of_mem (Finmap.mem_keys.mpr ?_)
  exact Finmap.mem_of_lookup_eq_some hit

def set (map : Map K V) (key : K) : Option V → Map K V
  | none => map.erase key
  | some value => map.insert key value

theorem lookup_set (map : Map K V) (key y : K) (value : Option V) :
    Finmap.lookup y (map.set key value) =
      if y = key then value else Finmap.lookup y map := by
  cases value with
  | none => exact lookup_erase map key y
  | some value => exact lookup_insert map key value y

theorem set_lookup (map : Map K V) (key : K) : map.set key (Finmap.lookup key map) = map := by
  refine Finmap.ext_lookup fun y => ?_
  rw [lookup_set]
  split
  · rename_i eq
    rw [eq]
  · rfl

theorem erase_eq_self {map : Map K V} {key : K} (absent : Finmap.lookup key map = none) :
    map.erase key = map := by
  refine Finmap.ext_lookup fun y => ?_
  rw [lookup_erase]
  split
  · rename_i eq
    rw [eq, absent]
  · rfl

def retain (keep : K → Bool) (map : Map K V) : Map K V where
  entries := map.entries.filter fun entry => keep entry.1
  nodupKeys := by
    rw [← Multiset.nodup_keys]
    exact Multiset.nodup_of_le (Multiset.map_le_map (Multiset.filter_le _ _))
      (Multiset.nodup_keys.mpr map.nodupKeys)

theorem lookup_retain (keep : K → Bool) (map : Map K V) (key : K) :
    Finmap.lookup key (map.retain keep) = if keep key then Finmap.lookup key map else none := by
  ext value
  rw [Finmap.lookup_eq_some_iff, retain, Multiset.mem_filter, ← Finmap.lookup_eq_some_iff]
  by_cases kept : keep key <;> simp [kept]

def total (weight : V → Nat) (map : Map K V) : Nat :=
  ∑ key ∈ map.keys, (Finmap.lookup key map).elim 0 weight

variable {weight : V → Nat} {map : Map K V} {key : K} {value : V}

theorem total_empty : total weight (∅ : Map K V) = 0 := by
  simp [total]

theorem total_erase (hit : Finmap.lookup key map = some value) :
    total weight (map.erase key) + weight value = total weight map := by
  have mem : key ∈ map.keys := Finmap.mem_keys.mpr (Finmap.mem_of_lookup_eq_some hit)
  rw [total, total, Finmap.keys_erase, ← Finset.sum_erase_add _ _ mem, hit]
  refine congrArg (· + weight value) (Finset.sum_congr rfl fun y kept => ?_)
  rw [lookup_erase, if_neg (Finset.ne_of_mem_erase kept)]

theorem total_insert (absent : Finmap.lookup key map = none) :
    total weight (map.insert key value) = total weight map + weight value := by
  have gone : (map.insert key value).erase key = map := by
    refine Finmap.ext_lookup fun y => ?_
    rw [lookup_erase, lookup_insert]
    split
    · rename_i eq
      rw [eq, absent]
    · rfl
  rw [← total_erase (Finmap.lookup_insert map), gone]

theorem total_set (map : Map K V) (key : K) (value : Option V) :
    total weight (map.set key value) + (Finmap.lookup key map).elim 0 weight =
      total weight map + value.elim 0 weight := by
  have erased : total weight (map.erase key) + (Finmap.lookup key map).elim 0 weight =
      total weight map := by
    cases hit : Finmap.lookup key map with
    | none => rw [erase_eq_self hit, Option.elim_none, Nat.add_zero]
    | some old => exact total_erase hit
  cases value with
  | none => exact erased
  | some value =>
    have absent : Finmap.lookup key (map.erase key) = none := Finmap.lookup_erase key map
    have ins : map.set key (some value) = (map.erase key).insert key value := by
      refine Finmap.ext_lookup fun y => ?_
      rw [lookup_set, lookup_insert, lookup_erase]
      split <;> rfl
    rw [ins, total_insert absent, ← erased]
    exact Nat.add_right_comm _ _ _

theorem total_le_sum {ι : Type*} [DecidableEq ι] {xs : Finset ι} {size : ι → Nat} {x : K → ι}
    (injective : Function.Injective x)
    (holds : ∀ key value, Finmap.lookup key map = some value →
      x key ∈ xs ∧ size (x key) = weight value) :
    total weight map ≤ ∑ mem ∈ xs, size mem := by
  have ent : ∀ key ∈ map.keys, x key ∈ xs ∧
      size (x key) = (Finmap.lookup key map).elim 0 weight := by
    intro key mem
    obtain ⟨value, hit⟩ := Finmap.mem_iff.mp (Finmap.mem_keys.mp mem)
    rw [hit]
    exact holds key value hit
  calc total weight map = ∑ key ∈ map.keys, size (x key) :=
        Finset.sum_congr rfl fun key mem => (ent key mem).2.symm
    _ = ∑ mem ∈ map.keys.image x, size mem :=
        (Finset.sum_image fun fst _ snd _ eq => injective eq).symm
    _ ≤ ∑ mem ∈ xs, size mem := by
        refine Finset.sum_le_sum_of_subset fun mem image => ?_
        obtain ⟨key, has, rfl⟩ := Finset.mem_image.mp image
        exact (ent key has).1

end Map

variable {α β : Type*}

/-- The items before `next` were released in order, and the pending ones are those of the source. -/
structure Merged (view : α → β) (source : List β) (fst next : Nat) (pending : Map Nat α)
    (released : List α) : Prop where
  first_le : fst ≤ next
  next_le : next ≤ fst + source.length
  released : released.map view = source.take (next - fst)
  pending : ∀ seq x, pending.lookup seq = some x →
    next ≤ seq ∧ source[seq - fst]? = some (view x)

namespace Merged

variable {view : α → β} {source : List β} {fst next seq : Nat} {pending : Map Nat α}
  {released : List α} {x : α}

theorem empty (view : α → β) (source : List β) (fst : Nat) : Merged view source fst fst ∅ [] where
  first_le := le_refl fst
  next_le := Nat.le_add_right fst source.length
  released := by simp
  pending seq x found := by simp at found

theorem insert (merged : Merged view source fst next pending released) (late : next ≤ seq)
    (known : source[seq - fst]? = some (view x)) :
    Merged view source fst next (Finmap.insert seq x pending) released where
  first_le := merged.first_le
  next_le := merged.next_le
  released := merged.released
  pending y kept found := by
    obtain ⟨rfl, rfl⟩ | ⟨-, found⟩ := Map.of_lookup_insert found
    · exact ⟨late, known⟩
    · exact merged.pending y kept found

section

variable (merged : Merged view source fst next pending released)
include merged

theorem pass (known : source[next - fst]? = some (view x)) :
    Merged view source fst (next + 1) (pending.erase next) (released ++ [x]) := by
  have ins : next - fst < source.length := (List.getElem?_eq_some_iff.mp known).1
  have start := merged.first_le
  refine ⟨by omega, by omega, ?_, ?_⟩
  · rw [List.map_append, merged.released, Nat.succ_sub start, List.take_add_one, known]
    rfl
  intro y kept still
  obtain ⟨ne, still⟩ := Map.of_lookup_erase still
  obtain ⟨late, knownOther⟩ := merged.pending y kept still
  exact ⟨by omega, knownOther⟩

theorem release (hit : pending.lookup next = some x) :
    Merged view source fst (next + 1) (pending.erase next) (released ++ [x]) :=
  merged.pass (merged.pending next x hit).2

theorem lookup_eq_none (beyond : fst + source.length ≤ seq) : pending.lookup seq = none := by
  by_contra kept
  obtain ⟨x, hit⟩ := Option.ne_none_iff_exists'.mp kept
  obtain ⟨-, known⟩ := merged.pending seq x hit
  have ins := (List.getElem?_eq_some_iff.mp known).1
  omega

end

end Merged
end Codex
