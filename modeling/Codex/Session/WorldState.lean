import Codex.Foundation.Table
import Codex.Foundation.Text
import Mathlib.Data.Char
import Mathlib.Data.List.Lex

/-!
# World-state patches

Merge patches between snapshots, in which a null deletes a field.
-/

namespace Codex.WorldState

/-- A JSON value. -/
inductive Value (S : Type)
  | null
  | whole (value : S)
  | object (entries : List (Text × Value S))

abbrev Sections (S : Type) := List (Text × Value S)

variable {S : Type}

namespace Value

section

variable [DecidableEq S]

mutual

def decEq : (left right : Value S) → Decidable (left = right)
  | null, null => .isTrue rfl
  | whole value, whole value' => decidable_of_iff (value = value') ⟨congrArg _, whole.inj⟩
  | object entries, object entries' =>
    @decidable_of_iff _ (entries = entries') ⟨congrArg _, object.inj⟩
      (decEqEntries entries entries')
  | null, whole _ | null, object _ | whole _, null | whole _, object _ | object _, null
  | object _, whole _ => .isFalse nofun
termination_by structural left => left

def decEqEntries : (left right : Sections S) → Decidable (left = right)
  | [], [] => .isTrue rfl
  | entry :: rest, entry' :: rest' =>
    @decidable_of_iff _ (entry = entry' ∧ rest = rest') (by simp)
      (@instDecidableAnd _ _ (decEqEntry entry entry') (decEqEntries rest rest'))
  | [], _ :: _ | _ :: _, [] => .isFalse nofun
termination_by structural left => left

def decEqEntry : (left right : Text × Value S) → Decidable (left = right)
  | (key, value), (key', value') =>
    @decidable_of_iff _ (key = key' ∧ value = value') (by simp)
      (@instDecidableAnd _ _ inferInstance (decEq value value'))
termination_by structural left => left

end

instance : DecidableEq (Value S) := decEq

end

def isNull : Value S → Bool
  | null => true
  | _ => false

def asObject : Value S → Sections S
  | object entries => entries
  | _ => []

/-- Every object has its keys in increasing order. -/
inductive Clean : Value S → Prop
  | whole (value : S) : Clean (whole value)
  | object (entries : Sections S) (keys : Table.Sorted entries)
      (each : ∀ entry ∈ entries, Clean entry.2) : Clean (object entries)

end Value

open Value

def removals (previous current : Sections S) : Sections S :=
  previous.foldl (fun patch entry =>
    if (Table.get entry.1 current).isNone then Table.insert entry.1 null patch else patch) []

def patchEntry (previous patch : Sections S) (entry : Text × Value S)
    (create : Value S → Option (Value S)) : Sections S :=
  match Table.get entry.1 previous with
  | none => Table.insert entry.1 entry.2 patch
  | some known =>
    match create known with
    | none => patch
    | some value => Table.insert entry.1 value patch

theorem sizeOf_lt_object {ents : Sections S} {ent : Text × Value S} (mem : ent ∈ ents) :
    sizeOf ent.2 < sizeOf (object ents) := by
  have below := List.sizeOf_lt_of_mem mem
  obtain ⟨k, value⟩ := ent
  simp only [Prod.mk.sizeOf_spec, object.sizeOf_spec] at below ⊢
  omega

def createMergePatch [DecidableEq S] (previous current : Value S) : Option (Value S) :=
  if previous = current then none
  else match current with
    | object entries =>
      some (object (entries.foldl
        (fun patch entry => patchEntry previous.asObject patch entry fun known =>
          createMergePatch known entry.2)
        (removals previous.asObject entries)))
    | _ => some current
termination_by sizeOf current
decreasing_by exact sizeOf_lt_object ‹_›

def applyEntry (target : Sections S) (entry : Text × Value S) (apply : Value S → Value S) :
    Sections S :=
  if entry.2.isNull then Table.remove entry.1 target
  else Table.insert entry.1 (apply ((Table.get entry.1 target).getD null)) target

def applyMergePatchValue (target patch : Value S) : Value S :=
  match patch with
  | object entries =>
    object (entries.foldl
      (fun target entry => applyEntry target entry (applyMergePatchValue · entry.2))
      target.asObject)
  | _ => patch
termination_by sizeOf patch
decreasing_by exact sizeOf_lt_object ‹_›

def patchFrom [DecidableEq S] (previous current : Sections S) : Sections S :=
  current.foldl
    (fun patch entry => patchEntry previous patch entry (createMergePatch · entry.2))
    (removals previous current)

def mergePatchFrom [DecidableEq S] (current previous : Sections S) : Option (Sections S) :=
  if patchFrom previous current = [] then none else some (patchFrom previous current)

def applyMergePatch (sections patch : Sections S) : Sections S :=
  patch.foldl (fun target entry =>
    applyEntry target entry (applyMergePatchValue · entry.2)) sections

section

variable [DecidableEq S]

def patches : Sections S → List (Sections S) → List (Option (Sections S))
  | _, [] => []
  | previous, current :: rest => mergePatchFrom current previous :: patches current rest

def replay (sections : Sections S) (patches : List (Option (Sections S))) : Sections S :=
  patches.foldl (fun sections patch => patch.elim sections (applyMergePatch sections)) sections

end

def fieldApply (target : Option (Value S)) : Option (Value S) → Option (Value S)
  | none => target
  | some value =>
    if value.isNull then none else some (applyMergePatchValue (target.getD null) value)

def fieldPatch [DecidableEq S] : Option (Value S) → Option (Value S) → Option (Value S)
  | none, current => current
  | some _, none => some null
  | some previous, some current => createMergePatch previous current

variable {previous current patch target : Sections S} {value : Value S}

open Table

theorem get_applyMergePatch (ord : Sorted patch) (k : Text) :
    get k (applyMergePatch target patch) =
      fieldApply (get k target) (get k patch) := by
  rw [applyMergePatch, get_foldl (fun _ known value => fieldApply known (some value))
    (fun tab ent y => ?_) ord]
  · cases get k patch <;> rfl
  rw [applyEntry, fieldApply]
  by_cases deleted : ent.2.isNull
  · simp [deleted, get_remove]
  · by_cases eq : y = ent.1 <;> simp [deleted, get_insert, eq]

theorem get_removals (ord : Sorted previous) (k : Text) :
    get k (removals previous current) =
      if (get k previous).isSome ∧ get k current = none then some null else none := by
  rw [removals, get_foldl (fun k known _ =>
    if (get k current).isNone then some null else known) (fun tab ent y => ?_) ord]
  · cases get k previous <;> simp
  by_cases eq : y = ent.1
  · by_cases gone : (get ent.1 current).isNone <;>
      simp [get_insert, eq, gone]
  · split_ifs <;> simp [get_insert, eq]

theorem sorted_patchFrom [DecidableEq S] (previous current : Sections S) :
    Sorted (patchFrom previous current) := by
  rw [patchFrom, removals]
  refine List.foldlRecOn current _ (List.foldlRecOn previous _ List.Pairwise.nil ?_) ?_
  · intro patch ord ent _
    split_ifs
    · exact sorted_insert ord _ _
    · exact ord
  intro patch ord ent _
  rw [patchEntry]
  split
  · exact sorted_insert ord _ _
  split
  · exact ord
  · exact sorted_insert ord _ _

theorem sorted_applyMergePatch (ord : Sorted target) : Sorted (applyMergePatch target patch) := by
  refine List.foldlRecOn patch _ ord fun tab ord ent _ => ?_
  rw [applyEntry]
  split_ifs
  · exact sorted_remove ord _
  · exact sorted_insert ord _ _

theorem get_patchFrom [DecidableEq S] (ord : Sorted previous)
    (sorted' : Sorted current) (k : Text) :
    get k (patchFrom previous current) =
      fieldPatch (get k previous) (get k current) := by
  rw [patchFrom, get_foldl (fun k known value =>
    (fieldPatch (get k previous) (some value)).or known) (fun tab ent y => ?_) sorted',
    get_removals ord]
  · cases get k previous <;> cases get k current <;> simp [fieldPatch]
  rw [patchEntry]
  by_cases eq : y = ent.1
  · subst eq
    cases get ent.1 previous with
    | none => simp [get_insert, fieldPatch]
    | some known => cases patched : createMergePatch known ent.2 <;>
        simp [get_insert, fieldPatch, patched]
  split
  · simp [get_insert, eq]
  · split <;> simp [get_insert, eq]

theorem applyMergePatchValue_object (target : Value S) (patch : Sections S) :
    applyMergePatchValue target (object patch) =
      object (applyMergePatch target.asObject patch) := by
  rw [applyMergePatchValue]
  rfl

theorem Value.Clean.isNull_eq (clean : value.Clean) : value.isNull = false := by
  cases clean <;> rfl

/-- A clean value replaces a null by itself. -/
theorem Value.Clean.apply_null (clean : value.Clean) : applyMergePatchValue null value = value := by
  induction clean with
  | whole value => simp [applyMergePatchValue]
  | object ents keys each ih =>
    rw [applyMergePatchValue_object]
    congr 1
    refine eq_of_get (sorted_applyMergePatch List.Pairwise.nil) keys fun k => ?_
    rw [get_applyMergePatch keys]
    cases hit : get k ents with
    | none => rfl
    | some value =>
      have mem := mem_of_get hit
      simpa [fieldApply, (each _ mem).isNull_eq, asObject] using ih _ mem

variable [DecidableEq S]

def Reached (current : Value S) : Prop :=
  ∀ previous, previous.Clean → createMergePatch previous current ≠ some null ∧
    (createMergePatch previous current).elim previous (applyMergePatchValue previous) = current

theorem createMergePatch_self (value : Value S) : createMergePatch value value = none := by
  unfold createMergePatch
  exact if_pos rfl

theorem applyMergePatch_patchFrom (clean : (object previous).Clean)
    (clean' : (object current).Clean) (reached : ∀ ent ∈ current, Reached ent.2) :
    applyMergePatch previous (patchFrom previous current) = current := by
  cases clean with | object _ keys each =>
  cases clean' with | object _ keys' each' =>
  refine eq_of_get (sorted_applyMergePatch keys) keys' fun k => ?_
  rw [get_applyMergePatch (sorted_patchFrom _ _), get_patchFrom keys keys']
  cases known : get k previous with
  | none =>
    cases hit : get k current with
    | none => rfl
    | some value =>
      have clean := each' _ (mem_of_get hit)
      simp [fieldPatch, fieldApply, clean.isNull_eq, clean.apply_null]
  | some value =>
    cases hit : get k current with
    | none => rfl
    | some value' =>
      obtain ⟨kept, eq⟩ := reached _ (mem_of_get hit) value
        (each _ (mem_of_get known))
      rw [fieldPatch]
      dsimp only at kept eq
      cases patched : createMergePatch value value' with
      | none =>
        rw [patched] at eq
        exact congrArg some eq
      | some patch =>
        rw [patched] at kept eq
        cases patch with
        | null => exact absurd rfl kept
        | whole | object => exact congrArg some eq

theorem reached_of_clean (clean : value.Clean) : Reached value := by
  induction clean with
  | whole value =>
    intro previous _
    unfold createMergePatch
    split_ifs with eq
    · exact ⟨nofun, eq⟩
    · exact ⟨nofun, by simp [applyMergePatchValue]⟩
  | object ents keys each ih =>
    intro previous clean
    rw [createMergePatch]
    split_ifs with eq
    · exact ⟨nofun, eq⟩
    refine ⟨nofun, ?_⟩
    have fields : (object previous.asObject).Clean := by
      cases clean with
      | whole value => exact .object [] List.Pairwise.nil nofun
      | object ents keys each => exact .object ents keys each
    rw [Option.elim_some, applyMergePatchValue_object]
    exact congrArg object (applyMergePatch_patchFrom fields (.object ents keys each) ih)

theorem mergePatchFrom_elim (clean : (object previous).Clean) (clean' : (object current).Clean) :
    (mergePatchFrom current previous).elim previous (applyMergePatch previous) = current := by
  have reached : ∀ ent ∈ current, Reached ent.2 := by
    cases clean' with | object _ _ each => exact fun ent mem => reached_of_clean (each ent mem)
  have applied := applyMergePatch_patchFrom clean clean' reached
  rw [mergePatchFrom]
  split_ifs with empty
  · rw [empty] at applied
    exact applied
  · exact applied

theorem patchFrom_self (ord : Sorted current) : patchFrom current current = [] := by
  refine eq_of_get (sorted_patchFrom _ _) List.Pairwise.nil fun k => ?_
  rw [get_patchFrom ord ord]
  cases get k current with
  | none => rfl
  | some value => exact createMergePatch_self value

/-- Replaying the patches gives the last snapshot; a patch is left out where nothing changes. -/
theorem replay_patches {first : Sections S} {rest : List (Sections S)}
    (clean : ∀ sections ∈ first :: rest, (object sections).Clean) :
    replay first (patches first rest) = (first :: rest).getLast (List.cons_ne_nil _ _) ∧
      ∀ previous ∈ first :: rest, ∀ current ∈ first :: rest,
        mergePatchFrom current previous = none ↔ current = previous := by
  refine ⟨?_, fun previous mem current mem' => ⟨fun still => ?_, ?_⟩⟩
  · induction rest generalizing first with
    | nil => rfl
    | cons next rest ih =>
      rw [List.forall_mem_cons] at clean
      have step := mergePatchFrom_elim clean.1 (clean.2 next List.mem_cons_self)
      rw [patches, replay, List.foldl_cons, step, ← replay, ih clean.2,
        List.getLast_cons (List.cons_ne_nil _ _)]
  · have eq := mergePatchFrom_elim (clean previous mem) (clean current mem')
    rw [still] at eq
    exact eq.symm
  rintro rfl
  cases clean _ mem with | object _ keys _ => rw [mergePatchFrom, if_pos (patchFrom_self keys)]

theorem replay_patches_nested : replay [(['a'], object [(['b'], whole 1)])]
      (patches [(['a'], object [(['b'], whole 1)])]
        [[(['a'], whole 2)], [(['a'], object [(['c'], whole 3)])]]) =
      [(['a'], object [(['c'], whole 3)])] := by
  have single : ∀ (k : Text) (value : Value Nat), value.Clean → (object [(k, value)]).Clean :=
    fun k value clean => .object _ (List.pairwise_singleton _ _) (by simpa)
  refine (replay_patches ?_).1
  simp only [List.forall_mem_cons, List.not_mem_nil, false_implies, implies_true, and_true]
  exact ⟨single _ _ (single _ _ (.whole 1)), single _ _ (.whole 2),
    single _ _ (single _ _ (.whole 3))⟩

end Codex.WorldState
