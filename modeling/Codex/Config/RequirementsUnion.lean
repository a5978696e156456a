import Codex.Config.DomainMerge

/-!
# Composed requirements keep every protection

Composed fields are the unions and concatenations of those of the layers.
-/

namespace Codex.Config

open List Option Distinct

open Except

section

variable {k : Text} {value : TomlValue} {path : List Text}

theorem sorted_removeTopLevelField (ord : value.Sorted) : (removeTopLevelField k value).Sorted := by
  cases ord with
  | table ents keys each =>
    exact .table _ (keys.filter _) fun entry mem => each entry (mem_of_mem_filter mem)
  | string value => exact .string value
  | integer value => exact .integer value
  | float bits => exact .float bits
  | boolean value => exact .boolean value
  | datetime value => exact .datetime value
  | array xs each => exact .array xs each

theorem sorted_insert_table {ents : List (Text × TomlValue)} {child : TomlValue}
    (ord : (TomlValue.table ents).Sorted) (childSorted : child.Sorted) :
    (TomlValue.table (Table.insert k child ents)).Sorted := by
  cases ord with
  | table _ keys each =>
    refine .table _ (Table.sorted_insert keys k child) fun entry mem => ?_
    rcases Table.mem_insert mem with rfl | old
    · exact childSorted
    · exact each entry old

theorem sorted_insertTopLevelField {field : TomlValue} (ord : value.Sorted)
    (fieldSorted : field.Sorted) : (insertTopLevelField k field value).Sorted := by
  cases value with
  | table ents => exact sorted_insert_table ord fieldSorted
  | _ => exact ord

theorem removeNestedField_table (k next : Text) (path : List Text)
    (ents : List (Text × TomlValue)) :
    Table.get k ents = none ∧
        removeNestedFieldAndPruneEmpty (k :: next :: path) (.table ents) = .table ents ∨
      ∃ child, Table.get k ents = some child ∧
        (removeNestedFieldAndPruneEmpty (k :: next :: path) (.table ents) =
            removeTopLevelField k (.table ents) ∨
          removeNestedFieldAndPruneEmpty (k :: next :: path) (.table ents) =
            .table (Table.insert k (removeNestedFieldAndPruneEmpty (next :: path) child)
              ents)) := by
  rw [removeNestedFieldAndPruneEmpty]
  · cases hit : Table.get k ents with
    | none => exact .inl ⟨rfl, rfl⟩
    | some child =>
      refine .inr ⟨child, rfl, ?_⟩
      dsimp only
      split
      · exact .inl rfl
      · exact .inr rfl
  · exact nofun

theorem sorted_removeNestedField (ord : value.Sorted) :
    (removeNestedFieldAndPruneEmpty path value).Sorted := by
  induction path generalizing value with
  | nil => exact ord
  | cons k left ih =>
    cases left with
    | nil => exact sorted_removeTopLevelField ord
    | cons next left =>
      cases value with
      | table ents =>
        rcases removeNestedField_table k next left ents with
          ⟨-, still⟩ | ⟨child, hit, gone | replaced⟩
        · rw [still]
          exact ord
        · rw [gone]
          exact sorted_removeTopLevelField ord
        rw [replaced]
        exact sorted_insert_table ord (ih (ord.of_get hit))
      | _ => exact ord

theorem get_removeTopLevelField (k : Text) (value : TomlValue) (other : Text) :
    (removeTopLevelField k value).get other = if other = k then none else value.get other := by
  cases value with
  | table ents =>
    change Table.get other (Table.remove k ents) = _
    rw [Table.get_remove]
    by_cases eq : other = k
    · rw [if_pos eq, if_pos eq]
    rw [if_neg eq, if_neg eq]
    rfl
  | _ => exact (ite_self none).symm

theorem get_insert_table (k : Text) (child : TomlValue) (ents : List (Text × TomlValue))
    (other : Text) : (TomlValue.table (Table.insert k child ents)).get other =
      if other = k then some child else (TomlValue.table ents).get other := by
  change Table.get other (Table.insert k child ents) = _
  rw [Table.get_insert]
  by_cases eq : other = k
  · rw [if_pos eq, if_pos eq]
  rw [if_neg eq, if_neg eq]
  rfl

theorem getPath_removeNestedField (ne : path ≠ []) (value : TomlValue) :
    (removeNestedFieldAndPruneEmpty path value).getPath path = none := by
  induction path generalizing value with
  | nil => exact absurd rfl ne
  | cons k left ih =>
    cases left with
    | nil =>
      rw [removeNestedFieldAndPruneEmpty, TomlValue.getPath, get_removeTopLevelField, if_pos rfl]
      rfl
    | cons next left =>
      cases value with
      | table ents =>
        rw [TomlValue.getPath]
        rcases removeNestedField_table k next left ents with
          ⟨absent, still⟩ | ⟨child, -, gone | replaced⟩
        · rw [still]
          change (Table.get k ents).bind _ = none
          rw [absent]
          rfl
        · rw [gone, get_removeTopLevelField, if_pos rfl]
          rfl
        rw [replaced, get_insert_table, if_pos rfl]
        exact ih (cons_ne_nil next left) child
      | _ => rfl

theorem get_removeNestedField {next other : Text} (ne : other ≠ k) (value : TomlValue) :
    (removeNestedFieldAndPruneEmpty (k :: next :: path) value).get other = value.get other := by
  cases value with
  | table ents =>
    rcases removeNestedField_table k next path ents with
      ⟨-, still⟩ | ⟨child, -, gone | replaced⟩
    · rw [still]
    · rw [gone, get_removeTopLevelField, if_neg ne]
    · rw [replaced, get_insert_table, if_neg ne]
  | _ => rfl

theorem sorted_stripSpecialFields (ord : value.Sorted) : (stripSpecialFields value).Sorted :=
  sorted_removeNestedField (sorted_removeNestedField
    (sorted_removeTopLevelField (sorted_removeTopLevelField ord)))

theorem getPath_denyReadPath_stripSpecialFields (value : TomlValue) :
    (stripSpecialFields value).getPath denyReadPath = none := by
  have gone := @getPath_removeNestedField denyReadPath (by simp [denyReadPath])
    (removeTopLevelField "hooks" (removeTopLevelField "rules" value))
  rw [denyReadPath, TomlValue.getPath] at gone ⊢
  rw [stripSpecialFields, requiredOnModelsPath, get_removeNestedField (by decide)]
  exact gone

theorem getPath_requiredOnModelsPath_stripSpecialFields (value : TomlValue) :
    (stripSpecialFields value).getPath requiredOnModelsPath = none :=
  getPath_removeNestedField (by simp [requiredOnModelsPath]) _

end

variable {T : RequirementTypes}

/-- Tables are ordered, and a field without a value is not decoded. -/
structure RequirementOps.Faithful (ops : RequirementOps T) : Prop where
  parse_sorted : ∀ {contents value}, ops.parseToml contents = .ok value → value.Sorted
  encodePath_sorted : ∀ path, (ops.encodePath path).Sorted
  encodeSandboxModes_sorted : ∀ modes, (ops.encodeSandboxModes modes).Sorted
  decode_denyRead : ∀ {baseDir value requirements}, ops.decode baseDir value = .ok requirements →
    value.getPath denyReadPath = none → requirements.denyRead = none
  decode_requiredOnModels : ∀ {baseDir value requirements},
    ops.decode baseDir value = .ok requirements → value.getPath requiredOnModelsPath = none →
      requirements.requiredOnModels = none

def RequirementsLayerEntry.Sorted (entry : RequirementsLayerEntry) : Prop :=
  ∀ value, entry.toml = .value value → value.Sorted

structure ComposableRequirementsLayer.Stripped (layer : ComposableRequirementsLayer T) : Prop where
  sorted : layer.regularToml.Sorted
  denyRead : layer.regularToml.getPath denyReadPath = none
  requiredOnModels : layer.regularToml.getPath requiredOnModelsPath = none

section

variable {ops : RequirementOps T} {entry : RequirementsLayerEntry} {toml : TomlValue}

theorem sorted_parseLayerToml (sound : ops.Faithful) (sorted : entry.Sorted)
    (parsed : parseLayerToml ops entry.toml entry.source = .ok toml) : toml.Sorted := by
  cases form : entry.toml with
  | string body =>
    rw [form, parseLayerToml] at parsed
    cases read : ops.parseToml body with
    | error msg => rw [read] at parsed; cases parsed
    | ok value =>
      rw [read] at parsed
      cases parsed
      exact sound.parse_sorted read
  | value value =>
    rw [form, parseLayerToml] at parsed
    cases parsed
    exact sorted _ form

theorem sorted_dropLocalOnlyFields (ord : toml.Sorted) (src : RequirementSource) :
    (dropLocalOnlyFields src toml).Sorted := by
  have gone : ∀ fields : List Text,
      (fields.foldl (fun toml field => removeTopLevelField field toml) toml).Sorted := by
    intro fields
    induction fields generalizing toml with
    | nil => exact ord
    | cons field fields ih => exact ih (sorted_removeTopLevelField ord)
  cases src with
  | single origin =>
    cases origin with
    | enterpriseManaged id name => exact gone localOnlyAuthRequirements
    | _ => exact ord
  | composite sources => exact ord

theorem sorted_materializeResolvedPathRequirements (sound : ops.Faithful) (ord : toml.Sorted)
    (reqs : ConfigRequirementsToml T) :
    (materializeResolvedPathRequirements ops reqs toml).Sorted := by
  rw [materializeResolvedPathRequirements]
  generalize [("sqlite_home".toList, reqs.sqliteHome), _, _] = fields
  induction fields generalizing toml with
  | nil => exact ord
  | cons field fields ih =>
    apply ih
    dsimp only
    split
    · exact sorted_insertTopLevelField ord (sound.encodePath_sorted _)
    · exact ord

theorem sorted_materializeRemoteSandboxConfig (sound : ops.Faithful) (ord : toml.Sorted)
    (reqs : ConfigRequirementsToml T) : (materializeRemoteSandboxConfig ops reqs toml).Sorted := by
  rw [materializeRemoteSandboxConfig]
  split
  · exact sorted_insertTopLevelField (sorted_removeTopLevelField ord)
      (sound.encodeSandboxModes_sorted _)
  · exact sorted_removeTopLevelField ord

theorem stripped_fromEntry (sound : ops.Faithful) (entrySorted : entry.Sorted)
    {layer : ComposableRequirementsLayer T}
    (composable : ComposableRequirementsLayer.fromEntry ops entry = .ok layer) :
    layer.Stripped := by
  obtain ⟨toml, parsed, got⟩ := bind_eq_ok_iff.mp composable
  obtain ⟨reqs, -, built⟩ := bind_eq_ok_iff.mp got
  cases built
  have sorted := sorted_dropLocalOnlyFields (sorted_parseLayerToml sound entrySorted parsed)
    entry.source
  exact
    { sorted := sorted_stripSpecialFields (sorted_materializeRemoteSandboxConfig sound
        (sorted_materializeResolvedPathRequirements sound sorted _) _)
      denyRead := getPath_denyReadPath_stripSpecialFields _
      requiredOnModels := getPath_requiredOnModelsPath_stripSpecialFields _ }

theorem getPath_foldl_mergeTomlValues {path : List Text} (plain : PlainWay [] path)
    {layers : List (ComposableRequirementsLayer T)} (stripped : ∀ layer ∈ layers, layer.Stripped)
    (lacks : ∀ layer ∈ layers, layer.regularToml.getPath path = none) {base : TomlValue}
    (baseLacks : base.getPath path = none) :
    (layers.foldl (fun merged layer => mergeTomlValues ops.toMergeOps merged layer.regularToml)
      base).getPath path = none := by
  induction layers generalizing base with
  | nil => exact baseLacks
  | cons layer layers ih =>
    apply ih
    · exact fun y mem => stripped y (mem_cons_of_mem layer mem)
    · exact fun y mem => lacks y (mem_cons_of_mem layer mem)
    exact @getPath_mergeOver_eq_none _ _ _ plain _ (stripped layer mem_cons_self).sorted
      (lacks layer mem_cons_self) (some base) baseLacks

end

structure Protections (T : RequirementTypes) where
  denyRead : List Text
  requiredOnModels : List Text
  prefixRules : List T.PrefixRule
  hookGroups : HookEvent → List T.MatcherGroup
  hookDir : Option T.Directory

namespace Protections

def none : Protections T := ⟨[], [], [], fun _ => [], .none⟩

def add (total layer : Protections T) : Protections T where
  denyRead := extend (fun item other => decide (item = other)) total.denyRead
    layer.denyRead
  requiredOnModels := extend (fun item other => decide (item = other))
    total.requiredOnModels layer.requiredOnModels
  prefixRules := total.prefixRules ++ layer.prefixRules
  hookGroups := fun event => total.hookGroups event ++ layer.hookGroups event
  hookDir := total.hookDir.or layer.hookDir

/-- The composed protections are those of all layers. -/
structure Combines (layers : List (Protections T)) (composed : Protections T) : Prop where
  denyRead : composed.denyRead = (layers.flatMap (·.denyRead)).eraseDups
  requiredOnModels : composed.requiredOnModels = (layers.flatMap (·.requiredOnModels)).eraseDups
  prefixRules : composed.prefixRules = layers.flatMap (·.prefixRules)
  hookGroups : ∀ event, composed.hookGroups event = layers.flatMap (·.hookGroups event)
  hookDir_agrees : ∀ layer ∈ layers, ∀ dir, layer.hookDir = some dir → composed.hookDir = some dir
  hookDir_set : composed.hookDir = .none ∨ ∃ layer ∈ layers, layer.hookDir = composed.hookDir

/-- No protection of the first is lost in the second. -/
structure Keeps (first second : Protections T) : Prop where
  denyRead : first.denyRead ⊆ second.denyRead
  requiredOnModels : first.requiredOnModels ⊆ second.requiredOnModels
  prefixRules : first.prefixRules.Sublist second.prefixRules
  hookGroups : ∀ event, (first.hookGroups event).Sublist (second.hookGroups event)
  hookDir : ∀ dir, first.hookDir = some dir → second.hookDir = some dir

theorem Combines.keeps {above below : List (Protections T)} {layer fst second : Protections T}
    (without : Combines (above ++ below) fst)
    (combines : Combines (above ++ layer :: below) second) : Keeps fst second := by
  have fewer : (above ++ below).Sublist (above ++ layer :: below) :=
    (sublist_cons_self layer below).append_left above
  have kept : ∀ {α : Type} (xs : Protections T → List α),
      ((above ++ below).flatMap xs).Sublist ((above ++ layer :: below).flatMap xs) := by
    intro α xs
    rw [flatMap_append, flatMap_append, flatMap_cons]
    exact (sublist_append_right _ _).append_left _
  refine ⟨fun x mem => ?_, fun x mem => ?_, ?_, fun ev => ?_, fun dir set => ?_⟩
  · rw [without.denyRead, mem_eraseDups] at mem
    rw [combines.denyRead, mem_eraseDups]
    exact (kept (·.denyRead)).subset mem
  · rw [without.requiredOnModels, mem_eraseDups] at mem
    rw [combines.requiredOnModels, mem_eraseDups]
    exact (kept (·.requiredOnModels)).subset mem
  · rw [without.prefixRules, combines.prefixRules]
    exact kept (·.prefixRules)
  · rw [without.hookGroups, combines.hookGroups]
    exact kept (·.hookGroups ev)
  rcases without.hookDir_set with unset | ⟨setter, mem, eq⟩
  · exact nomatch unset.symm.trans set
  · exact combines.hookDir_agrees setter (fewer.subset mem) dir (eq.trans set)

section

variable {layers : List (Protections T)} {total : Protections T}

theorem foldl_add_extend (field : Protections T → List Text)
    (step : ∀ total layer, field (add total layer) =
      extend (fun x y => decide (x = y)) (field total) (field layer)) :
    field (layers.foldl add total) =
      extend (fun x y => decide (x = y)) (field total) (layers.flatMap field) := by
  induction layers generalizing total with
  | nil => rfl
  | cons layer layers ih =>
    rw [foldl_cons, ih, flatMap_cons, step]
    exact (foldl_append ..).symm

theorem foldl_add_append {α : Type} (field : Protections T → List α)
    (step : ∀ total layer, field (add total layer) = field total ++ field layer) :
    field (layers.foldl add total) = field total ++ layers.flatMap field := by
  induction layers generalizing total with
  | nil => exact (List.append_nil _).symm
  | cons layer layers ih => rw [foldl_cons, ih, flatMap_cons, step, List.append_assoc]

theorem hookDir_foldl_add : (layers.foldl add total).hookDir =
    total.hookDir.or (layers.findSome? (·.hookDir)) := by
  induction layers generalizing total with
  | nil => exact (Option.or_none).symm
  | cons layer layers ih =>
    rw [foldl_cons, ih]
    change (total.hookDir.or layer.hookDir).or _ = _
    rw [Option.or_assoc, findSome?_cons]
    cases layer.hookDir <;> rfl

theorem combines_foldl_add (agrees : ∀ layer ∈ layers, ∀ dir, layer.hookDir = some dir →
    (layers.foldl add none).hookDir = some dir) : Combines layers (layers.foldl add none) where
  denyRead := by
    rw [foldl_add_extend (·.denyRead) fun _ _ => rfl, extend_eq]
    simp [none, List.removeAll]
  requiredOnModels := by
    rw [foldl_add_extend (·.requiredOnModels) fun _ _ => rfl, extend_eq]
    simp [none, List.removeAll]
  prefixRules := foldl_add_append (·.prefixRules) fun _ _ => rfl
  hookGroups ev := foldl_add_append (·.hookGroups ev) fun _ _ => rfl
  hookDir_agrees := agrees
  hookDir_set := by
    rw [hookDir_foldl_add]
    change layers.findSome? _ = _ ∨ ∃ layer ∈ layers, _ = layers.findSome? _
    cases hit : layers.findSome? (·.hookDir) with
    | none => exact .inl rfl
    | some dir =>
      obtain ⟨layer, mem, set⟩ := exists_of_findSome?_eq_some hit
      exact .inr ⟨layer, mem, set⟩

end

end Protections

variable (ops : RequirementOps T)

def ManagedHooksRequirementsToml.activeDir
    (hooks : ManagedHooksRequirementsToml T) : Option T.Directory :=
  hooks.hookDir ops.hookDirectoryField

def ConfigRequirementsToml.protections
    (requirements : ConfigRequirementsToml T) : Protections T where
  denyRead := requirements.denyRead.getD []
  requiredOnModels := requirements.requiredOnModels.getD []
  prefixRules := (requirements.rules.map (·.prefixRules)).getD []
  hookGroups := fun event => (requirements.hooks.map (·.hooks event)).getD []
  hookDir := requirements.hooks.bind (·.activeDir ops)

def Accumulator.protections (state : Accumulator T) : Protections T where
  denyRead := state.denyRead.items
  requiredOnModels := state.autoReviewModels.items
  prefixRules := (state.rules.map (·.value.prefixRules)).getD []
  hookGroups := fun event => (state.hooks.target.map (·.value.hooks event)).getD []
  hookDir := state.hooks.target.bind (·.value.activeDir ops)

def ConfigRequirementsWithSources.protections
    (output : ConfigRequirementsWithSources T) : Protections T where
  denyRead := ((output.permissions.bind (·.value.filesystem)).bind (·.denyRead)).getD []
  requiredOnModels := (output.autoReview.bind (·.value.requiredOnModels)).getD []
  prefixRules := (output.rules.map (·.value.prefixRules)).getD []
  hookGroups := fun event => (output.hooks.map (·.value.hooks event)).getD []
  hookDir := output.hooks.bind (·.value.activeDir ops)

def composedProtections (output : Option (ConfigRequirementsWithSources T)) : Protections T :=
  (output.map (·.protections ops)).getD .none

section

variable {ops : RequirementOps T}

theorem UnionMergeState.items_merge (state : UnionMergeState) (inc : Option (List Text))
    (src : RequirementSource) : (state.merge inc src).items =
      extend (fun item y => decide (item = y)) state.items (inc.getD []) := by
  rw [UnionMergeState.merge]
  generalize inc.getD [] = inc
  induction inc generalizing state with
  | nil => rfl
  | cons item inc ih =>
    have pushed : (state.add src item).items =
        push (fun item y => decide (item = y)) state.items item := by
      rw [push_eq, UnionMergeState.add]
      split_ifs <;> rfl
    rw [foldl_cons, ih, pushed]
    rfl

theorem prefixRules_mergeRules (tgt : Option (Sourced (RequirementsExecPolicyToml T)))
    (inc : Option (RequirementsExecPolicyToml T)) (src : RequirementSource) :
    ((mergeRules tgt inc src).map (·.value.prefixRules)).getD [] =
      (tgt.map (·.value.prefixRules)).getD [] ++ (inc.map (·.prefixRules)).getD [] := by
  cases inc with
  | none => simp [mergeRules]
  | some inc =>
    cases tgt with
    | none | some => simp [mergeRules]

namespace ManagedHooksRequirementsToml

variable {hooks : ManagedHooksRequirementsToml T}

theorem hooks_of_isEmpty (empty : hooks.isEmpty = true) (ev : HookEvent) : hooks.hooks ev = [] := by
  simp only [isEmpty, HookEventsToml.isEmpty, Bool.and_eq_true, List.all_eq_true] at empty
  exact List.isEmpty_iff.mp (empty.2 ev ev.mem_all)

theorem activeDir_of_isEmpty (empty : hooks.isEmpty = true) : hooks.activeDir ops = none := by
  simp only [isEmpty, Bool.and_eq_true, isNone_iff_eq_none] at empty
  rw [activeDir]
  cases ops.hookDirectoryField with
  | managedDir => exact empty.1.1
  | windowsManagedDir => exact empty.1.2

theorem hooks_setHookDir (field : HookDirectoryField) (value : Option T.Directory) :
    (hooks.setHookDir field value).hooks = hooks.hooks := by
  cases field <;> rfl

theorem hookDir_setHookDir (field : HookDirectoryField) (value y : Option T.Directory) :
    ((hooks.setHookDir field value).setHookDir field.inactive y).hookDir field = value := by
  cases field <;> rfl

end ManagedHooksRequirementsToml

theorem mergeActiveSingleton_eq_ok [DecidableEq T.Directory] {sources after : DirSources}
    {field : HookDirectoryField} {existing inc merged : Option T.Directory} {changed : Bool}
    {src : RequirementSource}
    (agrees : mergeActiveSingleton ops sources field existing inc src =
      .ok (after, merged, changed)) :
    merged = existing.or inc ∧ ∀ dir, inc = some dir → merged = some dir := by
  cases inc with
  | none =>
    cases agrees
    exact ⟨by simp, nofun⟩
  | some inc =>
    cases existing with
    | none =>
      cases agrees
      exact ⟨rfl, fun dir eq => eq⟩
    | some existing =>
      rw [mergeActiveSingleton] at agrees
      split_ifs at agrees with ne
      cases agrees
      exact ⟨rfl, fun dir eq => eq ▸ congrArg some (not_not.mp ne)⟩

theorem HookMergeState.merge_eq_ok [DecidableEq T.Directory] {state after : HookMergeState T}
    {inc : Option (ManagedHooksRequirementsToml T)} {src : RequirementSource}
    (merged : state.merge ops inc src = .ok after) :
    (∀ ev, (after.target.map (·.value.hooks ev)).getD [] =
        (state.target.map (·.value.hooks ev)).getD [] ++ (inc.map (·.hooks ev)).getD []) ∧
      after.target.bind (·.value.activeDir ops) =
        (state.target.bind (·.value.activeDir ops)).or (inc.bind (·.activeDir ops)) ∧
      ∀ dir, inc.bind (·.activeDir ops) = some dir →
        after.target.bind (·.value.activeDir ops) = some dir := by
  rw [HookMergeState.merge] at merged
  cases inc with
  | none =>
    cases merged
    exact ⟨by simp, by simp, nofun⟩
  | some inc =>
    by_cases empty : inc.isEmpty = true
    · rw [filter_some, if_neg (by simp [empty])] at merged
      cases merged
      have noDir := @ManagedHooksRequirementsToml.activeDir_of_isEmpty T ops _ empty
      refine ⟨fun ev => ?_, ?_, fun dir set => ?_⟩
      · simp [ManagedHooksRequirementsToml.hooks_of_isEmpty empty ev]
      · simp [noDir]
      · exact nomatch noDir.symm.trans set
    rw [filter_some, if_pos (by simp [empty])] at merged
    cases pre : state.target with
    | none =>
      rw [pre] at merged
      cases merged
      exact ⟨by simp, rfl, fun dir set => set⟩
    | some existing =>
      rw [pre] at merged
      obtain ⟨⟨sources, activeDir, changed⟩, agrees, built⟩ := bind_eq_ok_iff.mp merged
      cases built
      have ⟨chosen, eq⟩ := mergeActiveSingleton_eq_ok agrees
      refine ⟨fun ev => ?_, ?_, fun dir set => ?_⟩
      · simp [appendHookEvents, ManagedHooksRequirementsToml.hooks_setHookDir]
      · exact (ManagedHooksRequirementsToml.hookDir_setHookDir _ _ _).trans chosen
      · exact (ManagedHooksRequirementsToml.hookDir_setHookDir _ _ _).trans (eq dir set)

theorem Accumulator.addLayer_eq_ok [DecidableEq T.Directory] {state after : Accumulator T}
    {layer : ComposableRequirementsLayer T} (added : state.addLayer ops layer = .ok after) :
    after.protections ops = (state.protections ops).add (layer.domainFields.protections ops) ∧
      ∀ dir, (layer.domainFields.protections ops).hookDir = some dir →
        (after.protections ops).hookDir = some dir := by
  obtain ⟨hooks, merged, built⟩ := bind_eq_ok_iff.mp added
  cases built
  have ⟨groups, dir, agrees⟩ := HookMergeState.merge_eq_ok merged
  refine ⟨?_, agrees⟩
  simp [Accumulator.protections, Protections.add, ConfigRequirementsToml.protections,
    UnionMergeState.items_merge, prefixRules_mergeRules, groups, dir]

theorem Accumulator.run_eq_ok [DecidableEq T.Directory] {state final : Accumulator T}
    {layers : List (ComposableRequirementsLayer T)}
    (run : layers.foldlM (Accumulator.addLayer ops) state = .ok final) :
    final.protections ops = (layers.map (·.domainFields.protections ops)).foldl Protections.add
          (state.protections ops) ∧
      ∀ layer ∈ layers, ∀ dir, (layer.domainFields.protections ops).hookDir = some dir →
        (final.protections ops).hookDir = some dir := by
  induction layers generalizing state with
  | nil =>
    cases run
    exact ⟨rfl, by simp⟩
  | cons layer layers ih =>
    rw [foldlM_cons, bind_eq_ok_iff] at run
    obtain ⟨mid, added, tl⟩ := run
    have ⟨sum, agrees⟩ := Accumulator.addLayer_eq_ok added
    have ⟨total, later⟩ := ih tl
    refine ⟨by rw [total, sum]; rfl, fun y mem dir set => ?_⟩
    rcases mem_cons.mp mem with rfl | below
    · rw [total, Protections.hookDir_foldl_add, agrees dir set]
      rfl
    · exact later y below dir set

end

section

variable {ops : RequirementOps T}

theorem plainWay_denyReadPath : PlainWay [] denyReadPath := by
  intro front k tl split
  match front with
  | [] => exact ⟨by decide, nofun, nofun, rfl, rfl, by decide⟩
  | [_] =>
    obtain ⟨rfl, -⟩ := List.cons.inj split
    exact ⟨by decide, by decide, by decide, rfl, rfl, by decide⟩
  | [_, _] =>
    obtain ⟨rfl, tail⟩ := List.cons.inj split
    cases tail
    exact ⟨by decide, by decide, by decide, rfl, rfl, by decide⟩
  | _ :: _ :: _ :: _ => simp [denyReadPath] at split

theorem plainWay_requiredOnModelsPath : PlainWay [] requiredOnModelsPath := by
  intro front k tl split
  match front with
  | [] => exact ⟨by decide, nofun, nofun, rfl, rfl, by decide⟩
  | [_] =>
    obtain ⟨rfl, -⟩ := List.cons.inj split
    exact ⟨by decide, by decide, by decide, rfl, rfl, by decide⟩
  | _ :: _ :: _ => simp [requiredOnModelsPath] at split

variable {noProfiles : T.Profiles} {state : UnionMergeState}
  {output : Option (ConfigRequirementsWithSources T)}

theorem denyRead_applyDenyRead (nodup : state.items.Nodup)
    {tgt : Option (Sourced (PermissionsRequirementsToml T))}
    (lacks : (tgt.bind (·.value.filesystem)).bind (·.denyRead) = none) :
    (((applyDenyRead noProfiles state tgt).bind (·.value.filesystem)).bind
      (·.denyRead)).getD [] = state.items := by
  rw [applyDenyRead]
  split_ifs with empty
  · rw [lacks, empty]
    rfl
  cases tgt with
  | none => rfl
  | some existing =>
    have known : (existing.value.filesystem.getD {}).denyRead = none := by
      cases filesystem : existing.value.filesystem with
      | none => rfl
      | some filesystem => simpa [filesystem] using lacks
    change extend _ ((existing.value.filesystem.getD {}).denyRead.getD []) _ = _
    rw [known]
    exact extend_of_nodup nodup

theorem requiredOnModels_applyAutoReviewModels {tgt : Option (Sourced AutoReviewRequirementsToml)}
    (lacks : tgt.bind (·.value.requiredOnModels) = none) :
    ((applyAutoReviewModels state tgt).bind (·.value.requiredOnModels)).getD [] = state.items := by
  rw [applyAutoReviewModels]
  split_ifs with empty
  · rw [lacks, empty]
    rfl
  cases tgt with
  | none | some => rfl

theorem protections_of_isEmpty {output : ConfigRequirementsWithSources T}
    (empty : output.isEmpty ops = true) : output.protections ops = .none := by
  simp only [ConfigRequirementsWithSources.isEmpty, Bool.and_eq_true, isNone_iff_eq_none] at empty
  obtain ⟨⟨⟨⟨-, noHooks⟩, noRules⟩, noPermissions⟩, noReview⟩ := empty
  have noModels : (output.autoReview.bind (·.value.requiredOnModels)).getD [] = [] := by
    cases review : output.autoReview with
    | none => rfl
    | some review =>
      simp only [‹output.autoReview = _›, map_some, Option.getD_some, Bool.and_eq_true,
        List.isEmpty_iff] at noReview
      exact noReview.2
  have hooks : (∀ ev, (output.hooks.map (·.value.hooks ev)).getD [] = []) ∧
      output.hooks.bind (·.value.activeDir ops) = none := by
    cases managed : output.hooks with
    | none => exact ⟨fun _ => rfl, rfl⟩
    | some hooks =>
      rw [managed] at noHooks
      exact ⟨ManagedHooksRequirementsToml.hooks_of_isEmpty noHooks,
        ManagedHooksRequirementsToml.activeDir_of_isEmpty noHooks⟩
  simp only [ConfigRequirementsWithSources.protections, Protections.none, noRules, noPermissions,
    noModels, hooks.1, hooks.2]
  rfl

theorem combines_compose [DecidableEq T.Directory] (sound : ops.Faithful)
    {layers : List (ComposableRequirementsLayer T)} (stripped : ∀ layer ∈ layers, layer.Stripped)
    (composed : compose ops noProfiles layers = .ok output) :
    Protections.Combines (layers.reverse.map (·.domainFields.protections ops))
      (composedProtections ops output) := by
  obtain ⟨requirements, got, accumulated⟩ := bind_eq_ok_iff.mp composed
  obtain ⟨state, run, built⟩ := bind_eq_ok_iff.mp accumulated
  have ⟨sum, agrees⟩ := Accumulator.run_eq_ok run
  have combined : Protections.Combines (layers.reverse.map (·.domainFields.protections ops))
      (state.protections ops) := by
    rw [sum] at agrees ⊢
    apply Protections.combines_foldl_add
    intro layer mem dir set
    obtain ⟨origin, here, rfl⟩ := List.mem_map.mp mem
    exact agrees origin here dir set
  have nodup : state.denyRead.items.Nodup := by
    change (state.protections ops).denyRead.Nodup
    rw [sum, Protections.foldl_add_extend (·.denyRead) fun _ _ => rfl]
    exact nodup_extend nodup_nil
  have merged : ops.decode none (layers.foldl (fun merged layer =>
      mergeTomlValues ops.toMergeOps merged layer.regularToml) (.table [])) = .ok requirements := by
    cases res : ops.decode none (layers.foldl (fun merged layer =>
      mergeTomlValues ops.toMergeOps merged layer.regularToml) (.table [])) with
    | error msg => rw [res] at got; cases got
    | ok value => rw [res] at got; cases got; rfl
  have noDenyRead := sound.decode_denyRead merged (getPath_foldl_mergeTomlValues
    plainWay_denyReadPath stripped (fun layer mem => (stripped layer mem).denyRead) rfl)
  have noModels := sound.decode_requiredOnModels merged (getPath_foldl_mergeTomlValues
    plainWay_requiredOnModelsPath stripped
    (fun layer mem => (stripped layer mem).requiredOnModels) rfl)
  dsimp only at built
  generalize shape : ConfigRequirementsWithSources.mk _ _ _ _ _ = whole at built
  have eq : whole.protections ops = state.protections ops := by
    rw [← shape]
    simp only [ConfigRequirementsWithSources.protections, Accumulator.protections,
      Protections.mk.injEq, and_true]
    constructor
    · apply denyRead_applyDenyRead nodup
      rw [← noDenyRead, ConfigRequirementsToml.denyRead, bind_map]
      rfl
    apply requiredOnModels_applyAutoReviewModels
    rw [← noModels, ConfigRequirementsToml.requiredOnModels, bind_map]
    rfl
  rw [← Except.ok.inj built]
  split_ifs with empty
  · change Protections.Combines _ Protections.none
    rw [← protections_of_isEmpty empty, eq]
    exact combined
  change Protections.Combines _ (whole.protections ops)
  rw [eq]
  exact combined

theorem combines_composeRequirements [DecidableEq T.Directory] (sound : ops.Faithful)
    {ents : List RequirementsLayerEntry} (ord : ∀ entry ∈ ents, entry.Sorted)
    (composed : composeRequirements ops noProfiles ents = .ok output) :
    ∃ layers, ents.mapM (ComposableRequirementsLayer.fromEntry ops) = .ok layers ∧
      Protections.Combines (layers.reverse.map (·.domainFields.protections ops))
        (composedProtections ops output) := by
  obtain ⟨layers, parsed, composed⟩ := bind_eq_ok_iff.mp composed
  refine ⟨layers, parsed, combines_compose sound (fun layer mem => ?_) composed⟩
  obtain ⟨entry, here, read⟩ := exists_of_mem_mapM parsed mem
  exact stripped_fromEntry sound (ord entry here) read

abbrev textTypes : RequirementTypes where
  PrefixRule := TomlValue
  MatcherGroup := TomlValue
  Directory := Text
  Profiles := Unit
  SandboxModes := List Text
  Rest := Unit

def TomlValue.asText : TomlValue → Option Text
  | .string value => some value
  | _ => none

def TomlValue.asArray : TomlValue → Option (List TomlValue)
  | .array items => some items
  | _ => none

def TomlValue.asTexts (value : TomlValue) : Option (List Text) :=
  value.asArray.map (·.filterMap TomlValue.asText)

def HookEvent.key : HookEvent → Text
  | preToolUse => "PreToolUse"
  | permissionRequest => "PermissionRequest"
  | postToolUse => "PostToolUse"
  | preCompact => "PreCompact"
  | postCompact => "PostCompact"
  | sessionStart => "SessionStart"
  | sessionEnd => "SessionEnd"
  | userPromptSubmit => "UserPromptSubmit"
  | subagentStart => "SubagentStart"
  | subagentStop => "SubagentStop"
  | stop => "Stop"
  | interrupt => "Interrupt"

def decodeTexts (_ : Option Text) (value : TomlValue) :
    Except Text (ConfigRequirementsToml textTypes) :=
  .ok
    { rules := ((value.getPath ["rules", "prefix_rules"]).bind (·.asArray)).map
        fun rules => ⟨rules⟩
      hooks := (value.get "hooks").map fun hooks =>
        { managedDir := (hooks.get "managed_dir").bind (·.asText)
          windowsManagedDir := (hooks.get "windows_managed_dir").bind (·.asText)
          hooks := fun event => ((hooks.get event.key).bind (·.asArray)).getD [] }
      permissions := (value.get "permissions").map fun permissions =>
        { filesystem := (permissions.get "filesystem").map fun _ =>
            ⟨(value.getPath denyReadPath).bind (·.asTexts)⟩
          profiles := () }
      autoReview := (value.get "auto_review").map fun review =>
        { requiredOnModels := (value.getPath requiredOnModelsPath).bind (·.asTexts)
          ignoreRules := (review.get "ignore_rules").bind (·.asTexts) }
      sqliteHome := (value.get "sqlite_home").bind (·.asText)
      logDir := (value.get "log_dir").bind (·.asText)
      modelCatalogJson := (value.get "model_catalog_json").bind (·.asText)
      allowedSandboxModes := (value.get "allowed_sandbox_modes").bind (·.asTexts)
      remoteSandboxConfig := none
      rest := () }

def textRequirementOps : RequirementOps textTypes where
  toMergeOps := posixMergeOps
  parseToml contents := if contents = [] then .ok (.table []) else .error contents
  decode := decodeTexts
  encodePath := .string
  encodeSandboxModes modes := .array (modes.map .string)
  hostname := none
  wildMatch pat hostname := pat = hostname
  displayDirectory directory := directory
  restIsEmpty requirements := requirements.allowedSandboxModes.isNone
  hookDirectoryField := .managedDir

theorem textRequirementOps_faithful : textRequirementOps.Faithful where
  parse_sorted {body value} parsed := by
    change (if body = [] then Except.ok (TomlValue.table []) else .error body) = _ at parsed
    split_ifs at parsed with blank
    cases parsed
    exact .table [] List.Pairwise.nil fun _ mem => nomatch mem
  encodePath_sorted path := .string path
  encodeSandboxModes_sorted modes := .array _ fun x mem => by
    obtain ⟨mode, -, rfl⟩ := List.mem_map.mp mem
    exact .string mode
  decode_denyRead {baseDir value requirements} decoded absent := by
    cases decoded
    rw [ConfigRequirementsToml.denyRead, absent]
    cases value.get "permissions" with
    | none => rfl
    | some permissions =>
      change ((permissions.get _).map _).bind _ = none
      cases permissions.get "filesystem" <;> rfl
  decode_requiredOnModels {baseDir value requirements} decoded absent := by
    cases decoded
    rw [ConfigRequirementsToml.requiredOnModels, absent]
    cases value.get "auto_review" <;> rfl

def systemLayer : RequirementsLayerEntry where
  source := .single (.systemRequirementsToml "/etc/codex/requirements.toml")
  toml := .value (.table
    [("hooks", .table [("managed_dir", .string "/hooks")]),
      ("permissions", .table [("filesystem", .table [("deny_read",
        .array [.string "/keys", .string "/tokens"])])])])
  baseDir := none

def preferencesLayer : RequirementsLayerEntry where
  source := .single (.mdmManagedPreferences "com.openai.codex" "requirements")
  toml := .value (.table
    [("permissions", .table [("filesystem", .table [("deny_read",
        .array [.string "/mail", .string "/keys"])])])])
  baseDir := none

theorem sorted_texts (texts : List Text) : (TomlValue.array (texts.map .string)).Sorted := by
  refine .array _ fun x mem => ?_
  obtain ⟨txt, -, rfl⟩ := List.mem_map.mp mem
  exact .string txt

theorem systemLayer_sorted : systemLayer.Sorted := by
  intro value given
  cases given
  refine .table _ (by simp [Table.Sorted]; decide) fun entry mem => ?_
  rcases mem_pair.mp mem with rfl | rfl
  · exact sorted_singleton (.string _)
  · exact sorted_singleton (sorted_singleton (sorted_texts ["/keys", "/tokens"]))

theorem preferencesLayer_sorted : preferencesLayer.Sorted := by
  intro value given
  cases given
  exact sorted_singleton (sorted_singleton (sorted_singleton (sorted_texts ["/mail", "/keys"])))

end

end Codex.Config
