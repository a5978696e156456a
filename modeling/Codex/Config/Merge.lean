import Codex.NetworkProxy.Policy
import Codex.Foundation.Table
import Mathlib.Data.Char
import Mathlib.Data.List.Lex
import Codex.Foundation.Distinct

/-!
# Merging configuration layers

Tables are merged key by key; any other value of the overlay replaces the base's.
-/

namespace Codex.Config

inductive TomlValue
  | string (value : Text)
  | integer (value : Int)
  | float (bits : UInt64)
  | boolean (value : Bool)
  | datetime (value : Text)
  | array (items : List TomlValue)
  | table (entries : List (Text × TomlValue))

namespace TomlValue

inductive Sorted : TomlValue → Prop
  | string (value : Text) : Sorted (.string value)
  | integer (value : Int) : Sorted (.integer value)
  | float (bits : UInt64) : Sorted (.float bits)
  | boolean (value : Bool) : Sorted (.boolean value)
  | datetime (value : Text) : Sorted (.datetime value)
  | array (items : List TomlValue) (each : ∀ item ∈ items, Sorted item) : Sorted (.array items)
  | table (entries : List (Text × TomlValue)) (keys : Table.Sorted entries)
      (each : ∀ entry ∈ entries, Sorted entry.2) : Sorted (.table entries)

def asTable : TomlValue → Option (List (Text × TomlValue))
  | .table entries => some entries
  | _ => none

def get (key : Text) (value : TomlValue) : Option TomlValue :=
  value.asTable.bind (Table.get key)

def getPath : List Text → TomlValue → Option TomlValue
  | [], value => some value
  | key :: path, value => (value.get key).bind (getPath path)

variable {key : Text} {value : TomlValue} {entries : List (Text × TomlValue)}

theorem Sorted.keys_sorted (ord : Sorted (.table entries)) : Table.Sorted entries := by
  cases ord with
  | table _ keys _ => exact keys

theorem Sorted.of_get {child : TomlValue} (ord : value.Sorted)
    (hit : value.get key = some child) : child.Sorted := by
  cases ord with
  | table entries keys each => exact each (key, child) (Table.mem_of_get hit)
  | string | integer | float | boolean | datetime | array => cases hit

theorem Sorted.of_getPath {path : List Text} {child : TomlValue} (ord : value.Sorted)
    (hit : value.getPath path = some child) : child.Sorted := by
  induction path generalizing value with
  | nil => exact Option.some.inj hit ▸ ord
  | cons key path ih =>
    obtain ⟨next, here, below⟩ := Option.bind_eq_some_iff.mp hit
    exact ih (ord.of_get here) below

end TomlValue

structure ConfigKeyAlias where
  tablePath : List Text
  legacyKey : Text
  canonicalKey : Text

def configKeyAliases : List ConfigKeyAlias :=
  [{ tablePath := ["memories"]
     legacyKey := "no_memories_if_mcp_or_web_search"
     canonicalKey := "disable_on_external_context" },
   { tablePath := ["agents"]
     legacyKey := "max_threads"
     canonicalKey := "max_concurrent_threads_per_session" }]

section

variable {V : Type}

def applyAlias (path : List Text) (table : List (Text × V)) (spelling : ConfigKeyAlias) :
    List (Text × V) :=
  if path = spelling.tablePath then
    match Table.get spelling.legacyKey table with
    | none => table
    | some value =>
      let table := Table.remove spelling.legacyKey table
      match Table.get spelling.canonicalKey table with
      | none => Table.insert spelling.canonicalKey value table
      | some _ => table
  else table

def normalizeKeyAliases (path : List Text) (table : List (Text × V)) : List (Text × V) :=
  configKeyAliases.foldl (applyAlias path) table

def Unaliased (path : List Text) : Prop := ∀ spelling ∈ configKeyAliases, path ≠ spelling.tablePath

instance (path : List Text) : Decidable (Unaliased path) :=
  inferInstanceAs (Decidable (∀ spelling ∈ configKeyAliases, path ≠ spelling.tablePath))

theorem normalizeKeyAliases_of_unaliased {path : List Text} (unaliased : Unaliased path)
    (table : List (Text × V)) : normalizeKeyAliases path table = table := by
  rw [normalizeKeyAliases]
  have idle : ∀ spelling ∈ configKeyAliases, applyAlias path table spelling = table :=
    fun spelling mem => if_neg (unaliased spelling mem)
  generalize configKeyAliases = spellings at idle
  induction spellings with
  | nil => rfl
  | cons spelling tl ih =>
    rw [List.foldl_cons, idle spelling List.mem_cons_self]
    exact ih fun y later => idle y (List.mem_cons_of_mem _ later)

end

mutual

def normalizedWithKeyAliases : TomlValue → List Text → TomlValue
  | .table entries, path =>
    .table (normalizeKeyAliases path (Table.collect (normalizedEntries entries path)))
  | .array items, path => .array (normalizedItems items path)
  | value, _ => value
termination_by structural value => value

def normalizedEntries : List (Text × TomlValue) → List Text → List (Text × TomlValue)
  | [], _ => []
  | entry :: rest, path => normalizedEntry entry path :: normalizedEntries rest path
termination_by structural entries => entries

def normalizedEntry : Text × TomlValue → List Text → Text × TomlValue
  | (key, child), path => (key, normalizedWithKeyAliases child (path ++ [key]))
termination_by structural entry => entry

def normalizedItems : List TomlValue → List Text → List TomlValue
  | [], _ => []
  | item :: rest, path => normalizedWithKeyAliases item path :: normalizedItems rest path
termination_by structural items => items

end

variable {path : List Text} {entries : List (Text × TomlValue)}

theorem normalizedEntries_eq_map (entries : List (Text × TomlValue)) (path : List Text) :
    normalizedEntries entries path = entries.map fun ent =>
      (ent.1, normalizedWithKeyAliases ent.2 (path ++ [ent.1])) := by
  induction entries with
  | nil => rfl
  | cons ent tl ih =>
    obtain ⟨key, child⟩ := ent
    rw [normalizedEntries, normalizedEntry, ih]
    rfl

theorem get_normalizedEntries (entries : List (Text × TomlValue)) (path : List Text) (key : Text) :
    Table.get key (normalizedEntries entries path) =
      (Table.get key entries).map (normalizedWithKeyAliases · (path ++ [key])) := by
  induction entries with
  | nil => rfl
  | cons ent tl ih =>
    obtain ⟨y, child⟩ := ent
    rw [normalizedEntries, normalizedEntry, Table.get, Table.get, ih]
    split_ifs with eq
    · rw [eq]
      rfl
    · rfl

theorem sorted_normalizedEntries (ord : Table.Sorted entries) :
    Table.Sorted (normalizedEntries entries path) := by
  rw [normalizedEntries_eq_map]
  exact List.pairwise_map.mpr ord

theorem get_normalizedWithKeyAliases (unaliased : Unaliased path) {value : TomlValue}
    (ord : value.Sorted) (key : Text) :
    (normalizedWithKeyAliases value path).get key =
      (value.get key).map (normalizedWithKeyAliases · (path ++ [key])) := by
  cases ord with
  | table entries keys each =>
    have kept := Table.collect_of_sorted (@sorted_normalizedEntries path entries keys)
    change Table.get key (normalizeKeyAliases path (Table.collect _)) = _
    rw [normalizeKeyAliases_of_unaliased unaliased, kept, get_normalizedEntries]
    rfl
  | string | integer | float | boolean | datetime | array => rfl

open NetworkProxy (HostParsers normalizeHost)
open Text (toAsciiLowercase)

structure MergeOps where
  windows : Bool
  credentialBrokerProviderContextEnvKeys : List Text
  parsers : HostParsers
  toLowercase : Text → Text

inductive ShellEnvironmentPolicyFilterRepresentation
  | filters
  | legacy
  deriving DecidableEq

namespace ShellEnvironmentPolicyFilterRepresentation

def fromPolicy (pol : TomlValue) : Option ShellEnvironmentPolicyFilterRepresentation :=
  pol.asTable.bind fun pol =>
    if (Table.get "filters".toList pol).isSome then some .filters
    else if (Table.get "exclude".toList pol).isSome ||
        (Table.get "include_only".toList pol).isSome then some .legacy
    else none

def displacedFields : ShellEnvironmentPolicyFilterRepresentation → List Text
  | filters => ["exclude", "include_only"]
  | legacy => ["filters"]

end ShellEnvironmentPolicyFilterRepresentation

def isStructuredFeature (features feature : Text) : Bool :=
  features = "features" &&
    (feature = "multi_agent_v2" || feature = "network_proxy")

def isStructuredFeaturePath : List Text → Bool
  | [profiles, _, features, feature] =>
    profiles = "profiles" && isStructuredFeature features feature
  | [features, feature] => isStructuredFeature features feature
  | _ => false

def isShellEnvironmentFiltersPath (path : List Text) : Bool :=
  path = ["shell_environment_policy".toList, "filters".toList]

def isPermissionNetworkDomainsPath : List Text → Bool
  | [perms, _, network, domains] => perms = "permissions" &&
      network = "network" && domains = "domains"
  | _ => false

def replaceShellEnvironmentPolicyFilterRepresentation (base overlay : TomlValue)
    (path : List Text) : TomlValue :=
  if path = ["shell_environment_policy".toList] then
    match ShellEnvironmentPolicyFilterRepresentation.fromPolicy overlay, base with
    | some representation, .table entries =>
      .table (representation.displacedFields.foldl (fun table field => Table.remove field table)
        entries)
    | _, base => base
  else base

section

variable {V : Type} (ops : MergeOps)

def normalizeNetworkDomainKeys (table : List (Text × V)) : List (Text × V) :=
  Table.collect (table.map fun entry => (normalizeHost ops.parsers entry.1, entry.2))

def normalizeCaseInsensitiveKeys (table : List (Text × V)) : List (Text × V) :=
  Table.collect (table.map fun entry => (ops.toLowercase entry.1, entry.2))

def normalizeKeys (path : List Text) (table : List (Text × V)) : List (Text × V) :=
  let table := normalizeKeyAliases path table
  let table := if isPermissionNetworkDomainsPath path then normalizeNetworkDomainKeys ops table
    else table
  if isShellEnvironmentFiltersPath path then normalizeCaseInsensitiveKeys ops table else table

def displaceSpellings {W : Type} (path : List Text) (overlay : List (Text × W))
    (base : List (Text × V)) : List (Text × V) :=
  if ops.windows ∧ path = ["shell_environment_policy".toList, "set".toList] then
    (overlay.filter fun entry => ops.credentialBrokerProviderContextEnvKeys.any fun key =>
      toAsciiLowercase entry.1 = toAsciiLowercase key).foldl (fun base entry =>
        base.filter fun cand => cand.1 = entry.1 ||
          toAsciiLowercase cand.1 ≠ toAsciiLowercase entry.1) base
  else base

end

structure Overlay where
  value : TomlValue
  mergeInto : List Text → TomlValue → TomlValue

section

variable (ops : MergeOps)

def mergeEntry (path : List Text) (base : List (Text × TomlValue)) (entry : Text × Overlay) :
    List (Text × TomlValue) :=
  match Table.get entry.1 base with
  | some old =>
    Table.insert entry.1 (entry.2.mergeInto (path ++ [entry.1]) old) base
  | none =>
    Table.insert entry.1 (normalizedWithKeyAliases entry.2.value (path ++ [entry.1])) base

def mergeTables (path : List Text) (base : List (Text × TomlValue))
    (overlay : List (Text × Overlay)) : List (Text × TomlValue) :=
  let base := normalizeKeys ops path base
  let overlay := normalizeKeys ops path overlay
  overlay.foldl (mergeEntry path) (displaceSpellings ops path overlay base)

variable (overlay : TomlValue)

def mergeValues (children : List (Text × Overlay)) (path : List Text)
    (base : TomlValue) : TomlValue :=
  match base, overlay with
  | .table base, .table _ => .table (mergeTables ops path base children)
  | _, _ => normalizedWithKeyAliases overlay path

/-- Merge at a path where a boolean stands for a table with a field `enabled`. -/
def mergeFeature (children : List (Text × Overlay)) (path : List Text)
    (base : TomlValue) : TomlValue :=
  match base, overlay with
  | .boolean enabled, .table _ =>
    mergeValues ops overlay children path (.table [("enabled", .boolean enabled)])
  | .table table, .boolean enabled =>
    .table (Table.insert "enabled" (.boolean enabled) table)
  | base, _ => mergeValues ops overlay children path base

def mergeWith (children : List (Text × Overlay)) (path : List Text)
    (base : TomlValue) : TomlValue :=
  let base := replaceShellEnvironmentPolicyFilterRepresentation base overlay path
  if isStructuredFeaturePath path then mergeFeature ops overlay children path base
  else mergeValues ops overlay children path base

mutual

def mergeTomlValuesAtPath : TomlValue → List Text → TomlValue → TomlValue
  | .table entries, path, base => mergeWith ops (.table entries) (overlays entries) path base
  | overlay, path, base => mergeWith ops overlay [] path base
termination_by structural overlay => overlay

def overlays : List (Text × TomlValue) → List (Text × Overlay)
  | [] => []
  | entry :: rest => overlayEntry entry :: overlays rest
termination_by structural entries => entries

def overlayEntry : Text × TomlValue → Text × Overlay
  | (key, value) => (key, ⟨value, mergeTomlValuesAtPath value⟩)
termination_by structural entry => entry

end

def mergeTomlValues (base overlay : TomlValue) : TomlValue :=
  mergeTomlValuesAtPath ops overlay [] base

end

open Table

section

variable {ops : MergeOps} {path : List Text} {entries : List (Text × TomlValue)}

def mergeOver (ops : MergeOps) (overlay : TomlValue) (path : List Text) :
    Option TomlValue → TomlValue
  | some base => mergeTomlValuesAtPath ops overlay path base
  | none => normalizedWithKeyAliases overlay path

theorem overlays_eq_map (entries : List (Text × TomlValue)) : overlays ops entries =
      mapValues (fun val => ⟨val, mergeTomlValuesAtPath ops val⟩) entries := by
  induction entries with
  | nil => rfl
  | cons ent tl ih =>
    obtain ⟨k, val⟩ := ent
    rw [overlays, overlayEntry, ih]
    rfl

theorem get_mergeEntry (path : List Text) (base : List (Text × TomlValue)) (k : Text)
    (val : TomlValue) (y : Text) :
    get y (mergeEntry path base (k, ⟨val, mergeTomlValuesAtPath ops val⟩)) =
      if y = k then some (mergeOver ops val (path ++ [y]) (get y base))
      else get y base := by
  rw [mergeEntry]
  by_cases eq : y = k
  · subst eq
    cases get y base <;> simp [get_insert, mergeOver]
  · cases get k base <;> simp [get_insert, eq]

theorem get_foldl_mergeEntry (ord : Sorted entries) (path : List Text)
    (base : List (Text × TomlValue)) (k : Text) :
    get k ((overlays ops entries).foldl (mergeEntry path) base) =
      match get k entries with
      | some val => some (mergeOver ops val (path ++ [k]) (get k base))
      | none => get k base := by
  rw [overlays_eq_map, mapValues, List.foldl_map,
    get_foldl (fun k base val => some (mergeOver ops val (path ++ [k]) base))
      (fun tab ent y => ?_) ord]
  · cases get k entries <;> rfl
  rw [get_mergeEntry]
  split_ifs <;> rfl

structure PlainPath (path : List Text) : Prop where
  unaliased : Unaliased path
  not_policy : path ≠ ["shell_environment_policy".toList]
  not_set : path ≠ ["shell_environment_policy".toList, "set".toList]
  not_feature : isStructuredFeaturePath path = false
  not_domains : isPermissionNetworkDomainsPath path = false
  not_filters : isShellEnvironmentFiltersPath path = false

section

variable (plain : PlainPath path)
include plain

theorem PlainPath.normalizeKeys_eq {V : Type} (table : List (Text × V)) :
    normalizeKeys ops path table = table := by
  rw [normalizeKeys, normalizeKeyAliases_of_unaliased plain.unaliased, plain.not_domains,
    plain.not_filters]
  rfl

theorem PlainPath.mergeWith_eq (overlay : TomlValue) (children : List (Text × Overlay))
    (base : TomlValue) :
    mergeWith ops overlay children path base = mergeValues ops overlay children path base := by
  have kept : replaceShellEnvironmentPolicyFilterRepresentation base overlay path = base :=
    if_neg plain.not_policy
  rw [mergeWith, kept, plain.not_feature]
  rfl

theorem PlainPath.mergeTables_eq (base : List (Text × TomlValue))
    (overlay : List (Text × Overlay)) :
    mergeTables ops path base overlay = overlay.foldl (mergeEntry path) base := by
  rw [mergeTables, plain.normalizeKeys_eq, plain.normalizeKeys_eq, displaceSpellings,
    if_neg fun here => plain.not_set here.2]

theorem get_mergeOver_table (ord : (TomlValue.table entries).Sorted) (base : Option TomlValue)
    (k : Text) : (mergeOver ops (.table entries) path base).get k =
      match get k entries with
      | some val => some (mergeOver ops val (path ++ [k]) (base.bind (·.get k)))
      | none => base.bind (·.get k) := by
  have fresh : (normalizedWithKeyAliases (.table entries) path).get k =
      match get k entries with
      | some val => some (mergeOver ops val (path ++ [k]) none)
      | none => none := by
    rw [get_normalizedWithKeyAliases plain.unaliased ord, TomlValue.get, TomlValue.asTable]
    cases hit : get k entries <;> simp [hit, mergeOver]
  cases base with
  | none => exact fresh
  | some base =>
    rw [mergeOver, mergeTomlValuesAtPath, plain.mergeWith_eq]
    cases base with
    | table base =>
      change get k (mergeTables ops path base (overlays ops entries)) = _
      rw [plain.mergeTables_eq, get_foldl_mergeEntry ord.keys_sorted]
      rfl
    | string | integer | float | boolean | datetime | array => exact fresh

theorem mergeOver_of_not_table {overlay : TomlValue}
    (scalar : overlay.asTable = none) (base : Option TomlValue) :
    mergeOver ops overlay path base = normalizedWithKeyAliases overlay path := by
  have replaces : ∀ base, mergeValues ops overlay [] path base =
      normalizedWithKeyAliases overlay path := by
    intro base
    cases overlay with
    | table entries => cases scalar
    | _ => cases base <;> rfl
  cases base with
  | none => rfl
  | some base =>
    rw [← replaces base, ← plain.mergeWith_eq]
    cases overlay with
    | table entries => cases scalar
    | _ => rfl

end

def PlainWay (path below : List Text) : Prop :=
  ∀ front key rest, below = front ++ key :: rest → PlainPath (path ++ front)

variable {below : List Text}

theorem PlainWay.head {k : Text} (plain : PlainWay path (k :: below)) : PlainPath path := by
  simpa using plain [] k below rfl

theorem PlainWay.tail {k : Text} (plain : PlainWay path (k :: below)) :
    PlainWay (path ++ [k]) below := by
  intro front y tl split
  have here := plain (k :: front) y tl (by rw [split]; rfl)
  simpa using here

theorem getPath_mergeOver (plain : PlainWay path below)
    {overlay val : TomlValue} (ord : overlay.Sorted)
    (hit : overlay.getPath below = some val) (base : Option TomlValue) :
    (mergeOver ops overlay path base).getPath below =
      some (mergeOver ops val (path ++ below) (base.bind (·.getPath below))) := by
  induction below generalizing path overlay base with
  | nil =>
    obtain rfl := Option.some.inj hit
    cases base <;> simp [TomlValue.getPath]
  | cons k below ih =>
    obtain ⟨child, here, tl⟩ := Option.bind_eq_some_iff.mp hit
    cases overlay with
    | table entries =>
      have here : get k entries = some child := here
      have step := @get_mergeOver_table ops _ _ plain.head ord base k
      rw [here] at step
      rw [TomlValue.getPath, step, Option.bind_some,
        ih plain.tail (ord.of_get here) tl, List.append_assoc]
      cases base <;> rfl
    | _ => cases here

theorem getPath_mergeOver_eq_none (plain : PlainWay path below)
    {overlay : TomlValue} (ord : overlay.Sorted) (lacks : overlay.getPath below = none)
    {base : Option TomlValue} (baseLacks : base.bind (·.getPath below) = none) :
    (mergeOver ops overlay path base).getPath below = none := by
  induction below generalizing path overlay base with
  | nil => cases lacks
  | cons k below ih =>
    have baseBelow : (base.bind (·.get k)).bind (·.getPath below) = none := by
      cases base with
      | none => rfl
      | some base => exact baseLacks
    cases overlay with
    | table entries =>
      have step := @get_mergeOver_table ops _ _ plain.head ord base k
      cases here : get k entries with
      | none =>
        rw [here] at step
        rw [TomlValue.getPath, step, baseBelow]
      | some child =>
        have lacks : child.getPath below = none := by
          have unfolded : (get k entries).bind (TomlValue.getPath below) = none := lacks
          rwa [here] at unfolded
        rw [here] at step
        rw [TomlValue.getPath, step]
        exact ih plain.tail (ord.of_get here) lacks baseBelow
    | _ =>
      rw [mergeOver_of_not_table plain.head rfl]
      rfl

end

open Text (trim toAsciiLowercase)

inductive LayerSource
  | unknown
  | mdmManagedPreferences (domain key : Text)
  | enterpriseManaged (id name : Text)
  | systemRequirementsToml (file : Text)
  | legacyManagedConfigTomlFromFile (file : Text)
  | legacyManagedConfigTomlFromMdm
  deriving DecidableEq

inductive RequirementSource
  | single (source : LayerSource)
  | composite (sources : List LayerSource)
  deriving DecidableEq

namespace RequirementSource

def parts : RequirementSource → List LayerSource
  | single source => [source]
  | composite sources => sources

def combine (sources : List RequirementSource) : RequirementSource :=
  match Distinct.extend (fun source other => decide (source = other)) []
      (sources.flatMap parts) with
  | [] => single .unknown
  | [source] => single source
  | flattened => composite flattened

end RequirementSource

structure Sourced (α : Type) where
  value : α
  source : RequirementSource

def mergeOutputSource (old inc : RequirementSource) : RequirementSource :=
  if old ≠ inc then .combine [old, inc] else old

inductive RequirementsCompositionError
  | parse (layerSource : RequirementSource) (msg : Text)
  | composedParse (msg : Text)
  | conflict (field : Text) (existingSource incomingSource : RequirementSource) (msg : Text)

structure RequirementTypes where
  PrefixRule : Type
  MatcherGroup : Type
  Directory : Type
  Profiles : Type
  SandboxModes : Type
  Rest : Type

inductive HookEvent
  | preToolUse
  | permissionRequest
  | postToolUse
  | preCompact
  | postCompact
  | sessionStart
  | sessionEnd
  | userPromptSubmit
  | subagentStart
  | subagentStop
  | stop
  | interrupt
  deriving DecidableEq

def HookEvent.all : List HookEvent :=
  [preToolUse, permissionRequest, postToolUse, preCompact, postCompact, sessionStart, sessionEnd,
    userPromptSubmit, subagentStart, subagentStop, stop, interrupt]

theorem HookEvent.mem_all (ev : HookEvent) : ev ∈ HookEvent.all := by
  cases ev <;> decide

variable (T : RequirementTypes)

abbrev HookEventsToml := HookEvent → List T.MatcherGroup

variable {T} in
def HookEventsToml.isEmpty (hooks : HookEventsToml T) : Bool :=
  HookEvent.all.all fun ev => (hooks ev).isEmpty

structure ManagedHooksRequirementsToml where
  managedDir : Option T.Directory
  windowsManagedDir : Option T.Directory
  hooks : HookEventsToml T

variable {T} in
def ManagedHooksRequirementsToml.isEmpty (hooks : ManagedHooksRequirementsToml T) : Bool :=
  hooks.managedDir.isNone && hooks.windowsManagedDir.isNone && hooks.hooks.isEmpty

structure RequirementsExecPolicyToml where
  prefixRules : List T.PrefixRule

structure FilesystemRequirementsToml where
  denyRead : Option (List Text) := none

structure PermissionsRequirementsToml where
  filesystem : Option FilesystemRequirementsToml
  profiles : T.Profiles

structure AutoReviewRequirementsToml where
  requiredOnModels : Option (List Text)
  ignoreRules : Option (List Text)

structure RemoteSandboxConfigToml where
  hostnamePatterns : List Text
  allowedSandboxModes : T.SandboxModes

structure ConfigRequirementsToml where
  rules : Option (RequirementsExecPolicyToml T)
  hooks : Option (ManagedHooksRequirementsToml T)
  permissions : Option (PermissionsRequirementsToml T)
  autoReview : Option AutoReviewRequirementsToml
  sqliteHome : Option Text
  logDir : Option Text
  modelCatalogJson : Option Text
  allowedSandboxModes : Option T.SandboxModes
  remoteSandboxConfig : Option (List (RemoteSandboxConfigToml T))
  rest : T.Rest

structure ConfigRequirementsWithSources where
  rules : Option (Sourced (RequirementsExecPolicyToml T))
  hooks : Option (Sourced (ManagedHooksRequirementsToml T))
  permissions : Option (Sourced (PermissionsRequirementsToml T))
  autoReview : Option (Sourced AutoReviewRequirementsToml)
  regular : ConfigRequirementsToml T

inductive HookDirectoryField
  | managedDir
  | windowsManagedDir
  deriving DecidableEq

namespace HookDirectoryField

def fieldName : HookDirectoryField → Text
  | managedDir => "hooks.managed_dir"
  | windowsManagedDir => "hooks.windows_managed_dir"

def inactive : HookDirectoryField → HookDirectoryField
  | managedDir => windowsManagedDir
  | windowsManagedDir => managedDir

end HookDirectoryField

namespace ManagedHooksRequirementsToml

variable {T} (hooks : ManagedHooksRequirementsToml T)

def hookDir : HookDirectoryField → Option T.Directory
  | .managedDir => hooks.managedDir
  | .windowsManagedDir => hooks.windowsManagedDir

def setHookDir (field : HookDirectoryField)
    (value : Option T.Directory) : ManagedHooksRequirementsToml T :=
  match field with
  | .managedDir => { hooks with managedDir := value }
  | .windowsManagedDir => { hooks with windowsManagedDir := value }

end ManagedHooksRequirementsToml

inductive RequirementsLayerToml
  | string (texts : Text)
  | value (value : TomlValue)

structure RequirementsLayerEntry where
  source : RequirementSource
  toml : RequirementsLayerToml
  baseDir : Option Text

structure RequirementOps extends MergeOps where
  parseToml : Text → Except Text TomlValue
  decode : Option Text → TomlValue → Except Text (ConfigRequirementsToml T)
  encodePath : Text → TomlValue
  encodeSandboxModes : T.SandboxModes → TomlValue
  hostname : Option Text
  wildMatch : Text → Text → Bool
  displayDirectory : T.Directory → Text
  restIsEmpty : ConfigRequirementsToml T → Bool
  hookDirectoryField : HookDirectoryField

def localOnlyAuthRequirements : List Text :=
  ["allowed_login_methods", "allowed_chatgpt_workspaces",
    "cli_auth_credentials_store", "chatgpt_base_url"]

def removeTopLevelField (key : Text) : TomlValue → TomlValue
  | .table entries => .table (Table.remove key entries)
  | value => value

def insertTopLevelField (key : Text) (field : TomlValue) : TomlValue → TomlValue
  | .table entries => .table (Table.insert key field entries)
  | value => value

def removeNestedFieldAndPruneEmpty : List Text → TomlValue → TomlValue
  | [], value => value
  | [key], value => removeTopLevelField key value
  | key :: remaining, .table entries =>
    match Table.get key entries with
    | none => .table entries
    | some child =>
      match removeNestedFieldAndPruneEmpty remaining child with
      | .table [] => .table (Table.remove key entries)
      | child => .table (Table.insert key child entries)
  | _, value => value

def denyReadPath : List Text := ["permissions", "filesystem", "deny_read"]

def requiredOnModelsPath : List Text := ["auto_review", "required_on_models"]

def stripSpecialFields (layerToml : TomlValue) : TomlValue :=
  let layerToml := removeTopLevelField "rules" layerToml
  let layerToml := removeTopLevelField "hooks" layerToml
  let layerToml := removeNestedFieldAndPruneEmpty denyReadPath layerToml
  removeNestedFieldAndPruneEmpty requiredOnModelsPath layerToml

def normalizeHostname (hostname : Text) : Option Text :=
  let hostname := (trim hostname).rdropWhile (· = '.')
  if hostname = [] then none else some (toAsciiLowercase hostname)

structure ComposableRequirementsLayer where
  source : RequirementSource
  regularToml : TomlValue
  domainFields : ConfigRequirementsToml T

section

variable {T} (ops : RequirementOps T)

def hostnameMatchesAnyPattern (hostname : Text) (pats : List Text) : Bool :=
  pats.any fun pat => (normalizeHostname pat).any (ops.wildMatch · hostname)

variable (requirements : ConfigRequirementsToml T)

def applyRemoteSandboxConfig : ConfigRequirementsToml T :=
  match requirements.remoteSandboxConfig, ops.hostname.bind normalizeHostname with
  | some configs, some hostname =>
    match configs.find? fun config =>
        hostnameMatchesAnyPattern ops hostname config.hostnamePatterns with
    | some config => { requirements with allowedSandboxModes := some config.allowedSandboxModes }
    | none => requirements
  | _, _ => requirements

def parseLayerToml (toml : RequirementsLayerToml) (source : RequirementSource) :
    Except RequirementsCompositionError TomlValue :=
  match toml with
  | .string texts => (ops.parseToml texts).mapError (.parse source)
  | .value value => .ok value

def dropLocalOnlyFields (source : RequirementSource) (toml : TomlValue) : TomlValue :=
  match source with
  | .single (.enterpriseManaged _ _) =>
    localOnlyAuthRequirements.foldl (fun toml field => removeTopLevelField field toml) toml
  | _ => toml

def materializeResolvedPathRequirements (layerToml : TomlValue) : TomlValue :=
  [("sqlite_home".toList, requirements.sqliteHome), ("log_dir".toList, requirements.logDir),
    ("model_catalog_json".toList, requirements.modelCatalogJson)].foldl (fun toml field =>
      match field.2 with
      | some path => insertTopLevelField field.1 (ops.encodePath path) toml
      | none => toml) layerToml

def materializeRemoteSandboxConfig (layerToml : TomlValue) : TomlValue :=
  let layerToml := removeTopLevelField "remote_sandbox_config" layerToml
  match requirements.allowedSandboxModes with
  | some modes =>
    insertTopLevelField "allowed_sandbox_modes" (ops.encodeSandboxModes modes) layerToml
  | none => layerToml

namespace ComposableRequirementsLayer

def fromEntry (layer : RequirementsLayerEntry) :
    Except RequirementsCompositionError (ComposableRequirementsLayer T) := do
  let toml ← parseLayerToml ops layer.toml layer.source
  let toml := dropLocalOnlyFields layer.source toml
  let requirements ← (ops.decode layer.baseDir toml).mapError (.parse layer.source)
  let requirements := applyRemoteSandboxConfig ops requirements
  let toml := materializeResolvedPathRequirements ops requirements toml
  let toml := materializeRemoteSandboxConfig ops requirements toml
  .ok {
    source := layer.source
    regularToml := stripSpecialFields toml
    domainFields := requirements }

end ComposableRequirementsLayer

end

section

variable {T}

def mergeRules (target : Option (Sourced (RequirementsExecPolicyToml T)))
    (inc : Option (RequirementsExecPolicyToml T)) (source : RequirementSource) :
    Option (Sourced (RequirementsExecPolicyToml T)) :=
  match inc, target with
  | none, target => target
  | some inc, none => some ⟨inc, source⟩
  | some inc, some old =>
    some { value := ⟨old.value.prefixRules ++ inc.prefixRules⟩
           source := mergeOutputSource old.source source }

abbrev DirSources := HookDirectoryField → Option RequirementSource

variable (sources : DirSources)

def DirSources.track (field : HookDirectoryField)
    (source : RequirementSource) : DirSources := fun other =>
  if other = field then (sources field).or (some source) else sources other

structure HookMergeState (T : RequirementTypes) where
  dirSources : DirSources
  target : Option (Sourced (ManagedHooksRequirementsToml T))

def trackSingletonSource (field : HookDirectoryField)
    (value : Option T.Directory) (source : RequirementSource) : DirSources :=
  if value.isSome then sources.track field source else sources

def mergeActiveSingleton [DecidableEq T.Directory] (ops : RequirementOps T) (sources : DirSources)
    (field : HookDirectoryField) (old inc : Option T.Directory)
    (incomingSource : RequirementSource) :
    Except RequirementsCompositionError (DirSources × Option T.Directory × Bool) :=
  match inc, old with
  | none, old => .ok (sources, old, false)
  | some inc, some old =>
    if old ≠ inc then
      .error (.conflict field.fieldName ((sources field).getD incomingSource) incomingSource
        (['\x60'] ++ ops.displayDirectory old ++ "\x60 conflicts with \x60" ++
          ops.displayDirectory inc ++ ['\x60']))
    else .ok (sources, some old, false)
  | some inc, none => .ok (sources.track field incomingSource, some inc, true)

def fillSingleton (field : HookDirectoryField)
    (old inc : Option T.Directory) (incomingSource : RequirementSource) :
    DirSources × Option T.Directory × Bool :=
  match old, inc with
  | none, some inc => (sources.track field incomingSource, some inc, true)
  | old, _ => (sources, old, false)

def appendHookEvents (old inc : HookEventsToml T) : HookEventsToml T :=
  fun event => old event ++ inc event

namespace HookMergeState

def merge [DecidableEq T.Directory] (ops : RequirementOps T) (state : HookMergeState T)
    (inc : Option (ManagedHooksRequirementsToml T)) (source : RequirementSource) :
    Except RequirementsCompositionError (HookMergeState T) :=
  match inc.filter fun inc => !inc.isEmpty, state.target with
  | none, _ => .ok state
  | some inc, none =>
    let sources := trackSingletonSource state.dirSources .managedDir inc.managedDir source
    let sources := trackSingletonSource sources .windowsManagedDir inc.windowsManagedDir source
    .ok { dirSources := sources, target := some ⟨inc, source⟩ }
  | some inc, some old => do
      let active := ops.hookDirectoryField
      let (sources, activeDir, activeChanged) ← mergeActiveSingleton ops state.dirSources active
        (old.value.hookDir active) (inc.hookDir active) source
      let (sources, inactiveDir, inactiveChanged) := fillSingleton sources active.inactive
        (old.value.hookDir active.inactive) (inc.hookDir active.inactive) source
      let value := (old.value.setHookDir active activeDir).setHookDir active.inactive
        inactiveDir
      let value := { value with hooks := appendHookEvents value.hooks inc.hooks }
      let changed := activeChanged || inactiveChanged || !inc.hooks.isEmpty
      .ok { dirSources := sources
            target := some ⟨value, if changed then mergeOutputSource old.source source
              else old.source⟩ }

end HookMergeState

structure UnionMergeState where
  items : List Text := []
  source : Option RequirementSource := none

namespace UnionMergeState

def add (source : RequirementSource) (state : UnionMergeState) (item : Text) : UnionMergeState :=
  if item ∈ state.items then state
  else { items := state.items ++ [item]
         source := some (match state.source with
           | none => source
           | some old => mergeOutputSource old source) }

def merge (state : UnionMergeState) (inc : Option (List Text)) (source : RequirementSource) :
    UnionMergeState :=
  (inc.getD []).foldl (add source) state

end UnionMergeState

variable (requirements : ConfigRequirementsToml T)

def ConfigRequirementsToml.denyRead : Option (List Text) :=
  (requirements.permissions.bind (·.filesystem)).bind (·.denyRead)

def ConfigRequirementsToml.requiredOnModels : Option (List Text) :=
  requirements.autoReview.bind (·.requiredOnModels)

def applyDenyRead (noProfiles : T.Profiles) (state : UnionMergeState)
    (target : Option (Sourced (PermissionsRequirementsToml T))) :
    Option (Sourced (PermissionsRequirementsToml T)) :=
  if state.items = [] then target
  else
    let source := state.source.getD (.single .unknown)
    match target with
    | none => some ⟨⟨some ⟨some state.items⟩, noProfiles⟩, source⟩
    | some old =>
      let denyRead := Distinct.extend (fun pat other => decide (pat = other))
        ((old.value.filesystem.getD {}).denyRead.getD []) state.items
      some { value := { old.value with filesystem := some ⟨some denyRead⟩ }
             source := mergeOutputSource old.source source }

def applyAutoReviewModels (state : UnionMergeState)
    (target : Option (Sourced AutoReviewRequirementsToml)) :
    Option (Sourced AutoReviewRequirementsToml) :=
  if state.items = [] then target
  else
    let source := state.source.getD (.single .unknown)
    match target with
    | none => some ⟨⟨some state.items, none⟩, source⟩
    | some old =>
      some { value := { old.value with requiredOnModels := some state.items }
             source := mergeOutputSource old.source source }

end

section

variable {T} (ops : RequirementOps T)

def sourceForTopLevelKey (layers : List (ComposableRequirementsLayer T)) (key : Text) :
    RequirementSource :=
  let found := layers.filterMap fun layer => (layer.regularToml.get key).map (layer.source, ·)
  match found.getLast? with
  | none => .single .unknown
  | some (winning, value) =>
    if value.asTable.isNone then winning
    else
      let tables := (found.reverse.filter fun entry => entry.2.asTable.isSome).map Prod.fst
      if 1 < tables.length then .combine tables else winning

structure Accumulator (T : RequirementTypes) where
  rules : Option (Sourced (RequirementsExecPolicyToml T)) := none
  hooks : HookMergeState T := ⟨fun _ => none, none⟩
  denyRead : UnionMergeState := {}
  autoReviewModels : UnionMergeState := {}

def Accumulator.addLayer [DecidableEq T.Directory] (state : Accumulator T)
    (layer : ComposableRequirementsLayer T) :
    Except RequirementsCompositionError (Accumulator T) := do
  let hooks ← state.hooks.merge ops layer.domainFields.hooks layer.source
  .ok { rules := mergeRules state.rules layer.domainFields.rules layer.source
        hooks := hooks
        denyRead := state.denyRead.merge layer.domainFields.denyRead layer.source
        autoReviewModels :=
          state.autoReviewModels.merge layer.domainFields.requiredOnModels layer.source }

variable {ops} in
def ConfigRequirementsWithSources.isEmpty (ops : RequirementOps T)
    (output : ConfigRequirementsWithSources T) : Bool :=
  ops.restIsEmpty output.regular && (output.hooks.map (·.value.isEmpty)).getD true &&
    output.rules.isNone && output.permissions.isNone &&
    (output.autoReview.map fun autoReview => (autoReview.value.ignoreRules.getD []).isEmpty &&
      (autoReview.value.requiredOnModels.getD []).isEmpty).getD true

def compose [DecidableEq T.Directory] (noProfiles : T.Profiles)
    (layers : List (ComposableRequirementsLayer T)) :
    Except RequirementsCompositionError (Option (ConfigRequirementsWithSources T)) := do
  let merged := layers.foldl (fun merged layer =>
    mergeTomlValues ops.toMergeOps merged layer.regularToml) (.table [])
  let requirements ← (ops.decode none merged).mapError .composedParse
  let state ← layers.reverse.foldlM (Accumulator.addLayer ops) {}
  let output : ConfigRequirementsWithSources T :=
    { rules := state.rules
      hooks := state.hooks.target
      permissions := applyDenyRead noProfiles state.denyRead (requirements.permissions.map
        (⟨·, sourceForTopLevelKey layers "permissions"⟩))
      autoReview := applyAutoReviewModels state.autoReviewModels (requirements.autoReview.map
        (⟨·, sourceForTopLevelKey layers "auto_review"⟩))
      regular := requirements }
  .ok (if output.isEmpty ops then none else some output)

def composeRequirements [DecidableEq T.Directory] (noProfiles : T.Profiles)
    (layers : List RequirementsLayerEntry) :
    Except RequirementsCompositionError (Option (ConfigRequirementsWithSources T)) := do
  let layers ← layers.mapM (ComposableRequirementsLayer.fromEntry ops)
  compose ops noProfiles layers

end

end Codex.Config
