import Codex.Config.Merge
import Mathlib.Data.Finset.Max

/-!
# Domain permissions across configuration layers

A host can be spelled in several ways in the tables that are merged.
-/

namespace Codex.Config

open List Table

open NetworkProxy (HostParsers normalizeHost NetworkDomainPermission NetworkDomainPermissionEntry
  NetworkProxyConfig)

def allowValue : TomlValue := .string "allow"

def denyValue : TomlValue := .string "deny"

def parsePermission : TomlValue → Option NetworkDomainPermission
  | .string text =>
    if text = "none" then some .none
    else if text = "allow" then some .allow
    else if text = "deny" then some .deny
    else none
  | _ => none

variable (table : List (Text × TomlValue))

def domainsConfig : NetworkProxyConfig Unit where
  domains := some (table.filterMap fun entry => (parsePermission entry.2).map (⟨entry.1, ·⟩))
  mitmHooks := ()

def hostPermission (parsers : HostParsers) (table : List (Text × TomlValue)) (host : Text) :
    NetworkDomainPermission :=
  let config := domainsConfig table
  if (config.deniedDomains.getD []).any fun pattern => normalizeHost parsers pattern = host then
    .deny
  else if (config.allowedDomains.getD []).any fun pattern => normalizeHost parsers pattern = host
    then .allow
  else .none

def AllowsOrDenies : Prop :=
  ∀ entry ∈ table, entry.2 = allowValue ∨ entry.2 = denyValue

section

variable (parsers : HostParsers) (table : List (Text × TomlValue))

def Says (value : TomlValue) (host : Text) : Prop :=
  ∃ key, (key, value) ∈ table ∧ normalizeHost parsers key = host

def Mentions (host : Text) : Prop := ∃ value, Says parsers table value host

def LastSays (value : TomlValue) (host : Text) : Prop :=
  ∃ key, (key, value) ∈ table ∧ normalizeHost parsers key = host ∧
    ∀ other otherValue, (other, otherValue) ∈ table → normalizeHost parsers other = host →
      other ≤ key

end

variable {parsers : HostParsers} {table : List (Text × TomlValue)} {host : Text}
  {value : TomlValue}

theorem mem_domainEntries (sorted : Sorted table) {permission : NetworkDomainPermission}
    {pat : Text} : pat ∈ ((domainsConfig table).domainEntries permission).getD [] ↔
      ∃ value, (pat, value) ∈ table ∧ parsePermission value = some permission := by
  have nodup : (table.filterMap fun ent => (parsePermission ent.2).map
      (NetworkDomainPermissionEntry.mk ent.1)).Pairwise
        fun ent y => ent.pattern ≠ y.pattern := by
    refine List.Pairwise.filterMap _ ?_ sorted
    intro ent y pre hit here hit' here'
    obtain ⟨_, _, rfl⟩ := Option.map_eq_some_iff.mp here
    obtain ⟨_, _, rfl⟩ := Option.map_eq_some_iff.mp here'
    exact pre.ne
  have listed : ∀ patterns : List Text,
      ((some patterns).filter fun patterns => decide (patterns ≠ [])).getD [] = patterns := by
    intro patterns
    cases patterns <;> rfl
  rw [NetworkProxyConfig.domainEntries, domainsConfig, Option.map_some,
    NetworkProxy.effectiveEntries_of_distinct nodup, listed]
  simp only [mem_map, mem_filter, mem_filterMap, decide_eq_true_eq, Prod.exists,
    Option.map_eq_some_iff]
  constructor
  · rintro ⟨ent, ⟨⟨key, value, mem, hit, parsed, rfl⟩, rfl⟩, rfl⟩
    exact ⟨value, mem, parsed⟩
  rintro ⟨value, mem, parsed⟩
  exact ⟨⟨pat, permission⟩, ⟨⟨pat, value, mem, permission, parsed, rfl⟩, rfl⟩, rfl⟩

theorem parsePermission_eq_some_iff {permission : NetworkDomainPermission} :
    parsePermission value = some permission ↔ value = .string (match permission with
      | .none => "none" | .allow => "allow" | .deny => "deny") := by
  constructor
  · intro parsed
    cases value with
    | string text =>
      rw [parsePermission] at parsed
      split_ifs at parsed <;> cases parsed <;> exact congrArg TomlValue.string ‹_›
    | _ => cases parsed
  rintro rfl
  cases permission <;> decide

theorem hostPermission_cases (parsers : HostParsers) (sorted : Sorted table) (host : Text) :
    Says parsers table denyValue host ∧ hostPermission parsers table host = .deny ∨
      ¬ Says parsers table denyValue host ∧ Says parsers table allowValue host ∧
        hostPermission parsers table host = .allow ∨
      ¬ Says parsers table denyValue host ∧ ¬ Says parsers table allowValue host ∧
        hostPermission parsers table host = .none := by
  have denied : ((domainsConfig table).deniedDomains.getD []).any
      (fun pat => normalizeHost parsers pat = host) = true ↔
        Says parsers table denyValue host := by
    simp [NetworkProxyConfig.deniedDomains, mem_domainEntries sorted,
      parsePermission_eq_some_iff, Says, denyValue]
  have allowed : ((domainsConfig table).allowedDomains.getD []).any
      (fun pat => normalizeHost parsers pat = host) = true ↔
        Says parsers table allowValue host := by
    simp [NetworkProxyConfig.allowedDomains, mem_domainEntries sorted,
      parsePermission_eq_some_iff, Says, allowValue]
  rw [← denied, ← allowed, hostPermission]
  split_ifs with deny allow
  · exact .inl ⟨deny, rfl⟩
  · exact .inr (.inl ⟨deny, allow, rfl⟩)
  · exact .inr (.inr ⟨deny, allow, rfl⟩)

theorem hostPermission_eq_iff {y : List (Text × TomlValue)} {host2 : Text}
    (sorted : Sorted table) (sorted' : Sorted y) :
    hostPermission parsers table host = hostPermission parsers y host2 ↔
      (Says parsers table denyValue host ↔ Says parsers y denyValue host2) ∧
        (¬ Says parsers table denyValue host →
          (Says parsers table allowValue host ↔ Says parsers y allowValue host2)) := by
  rcases hostPermission_cases parsers sorted host with
      ⟨deny, eq⟩ | ⟨deny, allow, eq⟩ | ⟨deny, allow, eq⟩ <;>
    rcases hostPermission_cases parsers sorted' host2 with
      ⟨deny', eq'⟩ | ⟨deny', allow', eq'⟩ | ⟨deny', allow', eq'⟩ <;>
    simp [*]

theorem mentions_iff (perms : AllowsOrDenies table) : Mentions parsers table host ↔
    Says parsers table denyValue host ∨ Says parsers table allowValue host := by
  constructor
  · rintro ⟨value, key, mem, eq⟩
    rcases perms _ mem with rfl | rfl
    · exact .inr ⟨key, mem, eq⟩
    · exact .inl ⟨key, mem, eq⟩
  rintro (said | said)
  all_goals exact ⟨_, said⟩

theorem LastSays.mentions (last : LastSays parsers table value host) :
    Mentions parsers table host := by
  obtain ⟨key, mem, spelled, -⟩ := last
  exact ⟨value, key, mem, spelled⟩

variable {key : Text} {V : Type} {ops : MergeOps} {domains : List (Text × TomlValue)}

theorem AllowsOrDenies.scalar (perms : AllowsOrDenies table) (mem : (key, value) ∈ table) :
    value.asTable = none ∧ ∀ path, normalizedWithKeyAliases value path = value := by
  rcases perms (key, value) mem with rfl | rfl
  all_goals exact ⟨rfl, fun path => rfl⟩

theorem normalizeNetworkDomainKeys_concat (ops : MergeOps) (table : List (Text × V))
    (ent : Text × V) :
    normalizeNetworkDomainKeys ops (table ++ [ent]) =
      Table.insert (normalizeHost ops.parsers ent.1) ent.2
        (normalizeNetworkDomainKeys ops table) := by
  simp [normalizeNetworkDomainKeys, Table.collect]

theorem get_normalizeNetworkDomainKeys (sorted : Sorted table) :
    Table.get host (normalizeNetworkDomainKeys ops table) = some value ↔
      LastSays ops.parsers table value host := by
  induction table using reverseRecOn with
  | nil => simp [normalizeNetworkDomainKeys, Table.collect, LastSays]
  | append_singleton table ent ih =>
    obtain ⟨front, -, cross⟩ := pairwise_append.mp sorted
    have last : ∀ y otherValue, (y, otherValue) ∈ table → y < ent.1 :=
      fun y otherValue mem => cross (y, otherValue) mem ent (by simp)
    rw [normalizeNetworkDomainKeys_concat, get_insert]
    by_cases eq : host = normalizeHost ops.parsers ent.1
    · rw [if_pos eq]
      constructor
      · intro here
        obtain rfl := Option.some.inj here
        refine ⟨ent.1, by simp, eq.symm, fun y otherValue mem _ => ?_⟩
        rcases mem_append.mp mem with old | here
        · exact (last y otherValue old).le
        · rw [← mem_singleton.mp here]
      rintro ⟨key, mem, -, greatest⟩
      rcases mem_append.mp mem with old | here
      · have above := greatest ent.1 ent.2 (by simp) eq.symm
        exact absurd (last key value old) above.not_gt
      · rw [← mem_singleton.mp here]
    rw [if_neg eq, ih front]
    have apart : ∀ key value, (key, value) ∈ [ent] → normalizeHost ops.parsers key ≠ host := by
      intro key value here spelled
      rw [← mem_singleton.mp here] at eq
      exact eq spelled.symm
    constructor
    · rintro ⟨key, mem, spelled, greatest⟩
      refine ⟨key, mem_append_left _ mem, spelled, fun y otherValue present eq => ?_⟩
      rcases mem_append.mp present with old | here
      · exact greatest y otherValue old eq
      · exact absurd eq (apart y otherValue here)
    rintro ⟨key, mem, spelled, greatest⟩
    rcases mem_append.mp mem with old | here
    · exact ⟨key, old, spelled, fun y otherValue present =>
        greatest y otherValue (mem_append_left _ present)⟩
    · exact absurd spelled (apart key value here)

theorem get_normalizeNetworkDomainKeys_eq_none :
    Table.get host (normalizeNetworkDomainKeys ops table) = none ↔
      ¬ Mentions ops.parsers table host := by
  induction table using reverseRecOn with
  | nil => simp [normalizeNetworkDomainKeys, Table.collect, Mentions, Says]
  | append_singleton table ent ih =>
    obtain ⟨key, said⟩ := ent
    rw [normalizeNetworkDomainKeys_concat, get_insert]
    by_cases eq : host = normalizeHost ops.parsers key
    · rw [if_pos eq]
      exact iff_of_false (Option.some_ne_none _) (not_not.mpr ⟨said, key, by simp, eq.symm⟩)
    rw [if_neg eq, ih, not_iff_not]
    constructor
    · rintro ⟨value, y, mem, spelled⟩
      exact ⟨value, y, mem_append_left _ mem, spelled⟩
    rintro ⟨value, y, mem, spelled⟩
    rcases mem_append.mp mem with old | here
    · exact ⟨value, y, old, spelled⟩
    obtain ⟨rfl, -⟩ := Prod.mk.inj (mem_singleton.mp here)
    exact absurd spelled.symm eq

theorem sorted_normalizeNetworkDomainKeys (ops : MergeOps) (table : List (Text × V)) :
    Sorted (normalizeNetworkDomainKeys ops table) :=
  sorted_collect _

def domainsPath (prof : Text) : List Text :=
  ["permissions", prof, "network", "domains"]

def domainsAt (prof : Text) (value : TomlValue) : Option (List (Text × TomlValue)) :=
  (value.getPath (domainsPath prof)).bind TomlValue.asTable

theorem plainPath_of_permissions {below : List Text}
    (outside : isPermissionNetworkDomainsPath ("permissions" :: below) = false) :
    PlainPath ("permissions" :: below) := by
  have apart : ∀ {key : Text} {rest : List Text}, "permissions".toList ≠ key →
      "permissions".toList :: below ≠ key :: rest := fun ne eq =>
    ne (List.cons.inj eq).1
  refine ⟨?_, apart (by decide), apart (by decide), ?_, outside,
    decide_eq_false (apart (by decide))⟩
  · intro spelling mem
    have either : spelling.tablePath = ["memories"] ∨
        spelling.tablePath = ["agents".toList] := by
      rcases mem_cons.mp mem with rfl | mem
      · exact .inl rfl
      · exact .inr (by rw [mem_singleton.mp mem])
    rcases either with named | named <;> rw [named] <;> exact apart (by decide)
  match below with
  | [] => rfl
  | [feature] => rfl
  | [_, _] => rfl
  | [_, features, feature] => rfl
  | _ :: _ :: _ :: _ :: _ => rfl

theorem plainPath_nil : PlainPath [] :=
  ⟨by decide, nofun, nofun, rfl, rfl, by decide⟩

theorem plainWay_domains (prof : Text) : PlainWay [] (domainsPath prof) := by
  intro front key tl split
  match front with
  | [] => exact plainPath_nil
  | [_] =>
    obtain ⟨rfl, -⟩ := List.cons.inj split
    exact plainPath_of_permissions rfl
  | [_, _] =>
    obtain ⟨rfl, -⟩ := List.cons.inj split
    exact plainPath_of_permissions rfl
  | [_, _, _] =>
    obtain ⟨rfl, -⟩ := List.cons.inj split
    exact plainPath_of_permissions rfl
  | _ :: _ :: _ :: _ :: _ => simp [domainsPath] at split

def mergedDomains (ops : MergeOps) (prof : Text) (overlay base : List (Text × TomlValue)) :
    List (Text × TomlValue) :=
  (overlays ops (normalizeNetworkDomainKeys ops overlay)).foldl
    (mergeEntry (domainsPath prof)) (normalizeNetworkDomainKeys ops base)

section

variable {ops : MergeOps} {prof : Text} {base overlay : List (Text × TomlValue)}

theorem sorted_foldl_mergeEntry {path : List Text} {ents : List (Text × Overlay)}
    (sorted : Sorted base) : Sorted (ents.foldl (mergeEntry path) base) := by
  induction ents generalizing base with
  | nil => exact sorted
  | cons ent tl ih =>
    apply ih
    rw [mergeEntry]
    cases Table.get ent.1 base <;> exact sorted_insert sorted _ _

theorem unaliased_domains (prof : Text) : Unaliased (domainsPath prof) := by
  intro spelling mem
  rcases mem_cons.mp mem with rfl | mem
  · simp [domainsPath]
  rw [mem_singleton.mp mem]
  simp [domainsPath]

theorem normalizeKeys_domains (prof : Text) (table : List (Text × V)) :
    normalizeKeys ops (domainsPath prof) table = normalizeNetworkDomainKeys ops table := by
  have domains : isPermissionNetworkDomainsPath (domainsPath prof) = true := rfl
  have filters : isShellEnvironmentFiltersPath (domainsPath prof) = false := by
    simp [isShellEnvironmentFiltersPath, domainsPath]
  rw [normalizeKeys, normalizeKeyAliases_of_unaliased (unaliased_domains prof), domains, filters]
  rfl

theorem normalizeNetworkDomainKeys_overlays (table : List (Text × TomlValue)) :
    normalizeNetworkDomainKeys ops (overlays ops table) =
      overlays ops (normalizeNetworkDomainKeys ops table) := by
  rw [overlays_eq_map, overlays_eq_map, normalizeNetworkDomainKeys, normalizeNetworkDomainKeys,
    ← collect_mapValues, mapValues, mapValues, map_map, map_map]
  rfl

theorem sorted_mergedDomains : Sorted (mergedDomains ops prof overlay base) :=
  sorted_foldl_mergeEntry (sorted_normalizeNetworkDomainKeys ops base)

theorem mergeOver_domains (prof : Text) (overlay base : List (Text × TomlValue)) :
    mergeOver ops (.table overlay) (domainsPath prof) (some (.table base)) =
      .table (mergedDomains ops prof overlay base) := by
  have pol : domainsPath prof ≠ ["shell_environment_policy"] := by simp [domainsPath]
  have kept : replaceShellEnvironmentPolicyFilterRepresentation (.table base) (.table overlay)
      (domainsPath prof) = .table base := if_neg pol
  have set : domainsPath prof ≠ ["shell_environment_policy", "set"] := by
    simp [domainsPath]
  have feature : isStructuredFeaturePath (domainsPath prof) = false := rfl
  rw [mergeOver, mergeTomlValuesAtPath, mergeWith, kept, feature]
  change TomlValue.table (mergeTables ops (domainsPath prof) base (overlays ops overlay)) = _
  rw [mergeTables, normalizeKeys_domains, normalizeKeys_domains, displaceSpellings,
    if_neg fun here => set here.2, normalizeNetworkDomainKeys_overlays, mergedDomains]

theorem get_mergedDomains (perms : AllowsOrDenies overlay) (sorted : Sorted overlay)
    (sorted' : Sorted base) :
    Table.get host (mergedDomains ops prof overlay base) = some value ↔
      LastSays ops.parsers overlay value host ∨
        ¬ Mentions ops.parsers overlay host ∧ LastSays ops.parsers base value host := by
  rw [mergedDomains, get_foldl_mergeEntry (sorted_normalizeNetworkDomainKeys ops overlay)]
  cases hit : Table.get host (normalizeNetworkDomainKeys ops overlay) with
  | none =>
    have silent := get_normalizeNetworkDomainKeys_eq_none.mp hit
    have none : ¬ LastSays ops.parsers overlay value host := fun last => silent last.mentions
    rw [get_normalizeNetworkDomainKeys sorted']
    simp [silent, none]
  | some said =>
    have last := (get_normalizeNetworkDomainKeys sorted).mp hit
    have mentioned := last.mentions
    obtain ⟨key, mem, -⟩ := last
    obtain ⟨scalar, kept⟩ := perms.scalar mem
    have plain : PlainPath (domainsPath prof ++ [host]) := plainPath_of_permissions rfl
    dsimp only
    rw [mergeOver_of_not_table plain scalar, kept, ← get_normalizeNetworkDomainKeys sorted, hit]
    simp [mentioned]

theorem mergedDomains_said_iff (perms : AllowsOrDenies overlay) (sorted : Sorted overlay)
    (sorted' : Sorted base) :
    Says ops.parsers (mergedDomains ops prof overlay base) value host ↔
      ∃ key, normalizeHost ops.parsers key = host ∧ (LastSays ops.parsers overlay value key ∨
        ¬ Mentions ops.parsers overlay key ∧ LastSays ops.parsers base value key) := by
  simp only [Says, ← get_eq_some_iff sorted_mergedDomains, get_mergedDomains perms sorted sorted',
    and_comm]

theorem mergeOver_domains_of_absent {base : Option TomlValue}
    (absent : base.bind TomlValue.asTable = none) (perms : AllowsOrDenies overlay)
    (sorted : Sorted overlay) :
    mergeOver ops (.table overlay) (domainsPath prof) base = .table overlay := by
  have kept : normalizedWithKeyAliases (.table overlay) (domainsPath prof) = .table overlay := by
    have eq : normalizedEntries overlay (domainsPath prof) = overlay := by
      rw [normalizedEntries_eq_map]
      refine (map_congr_left fun ent mem => ?_).trans (map_id overlay)
      rw [(perms.scalar mem).2]
      rfl
    rw [normalizedWithKeyAliases, eq, collect_of_sorted sorted,
      normalizeKeyAliases_of_unaliased (unaliased_domains prof)]
  cases base with
  | none => exact kept
  | some base =>
    cases base with
    | table ents => cases absent
    | _ => exact kept

end

def DenialLast (parsers : HostParsers) (table : List (Text × TomlValue)) (host : Text) : Prop :=
  Says parsers table denyValue host → LastSays parsers table denyValue host

/-- The hosts are in normal form, and their last spellings keep the denials. -/
def KeepsDenials (parsers : HostParsers) (overlay base : List (Text × TomlValue)) : Prop :=
  (∀ host, Mentions parsers overlay host ∨ Mentions parsers base host →
    normalizeHost parsers host = host) ∧
  (∀ host, Mentions parsers overlay host → DenialLast parsers overlay host) ∧
  ∀ host, ¬ Mentions parsers overlay host → DenialLast parsers base host

theorem LastSays.toSays (last : LastSays parsers table value host) :
    Says parsers table value host := by
  obtain ⟨key, mem, spelled, -⟩ := last
  exact ⟨key, mem, spelled⟩

theorem exists_lastSays (sorted : Sorted table) (named : Mentions ops.parsers table host) :
    ∃ value, LastSays ops.parsers table value host := by
  cases hit : Table.get host (normalizeNetworkDomainKeys ops table) with
  | none => exact absurd named (get_normalizeNetworkDomainKeys_eq_none.mp hit)
  | some value => exact ⟨value, (get_normalizeNetworkDomainKeys sorted).mp hit⟩

open LastSays

/-- The permission is the same exactly if the last spelling keeps the denial. -/
theorem hostPermission_eq_iff_denialLast {merged : List (Text × TomlValue)}
    (mergedSorted : Sorted merged) (sorted : Sorted table) (perms : AllowsOrDenies table)
    (last : ∀ value, Says ops.parsers merged value host ↔ LastSays ops.parsers table value host) :
    hostPermission ops.parsers merged host = hostPermission ops.parsers table host ↔
      DenialLast ops.parsers table host := by
  rw [hostPermission_eq_iff mergedSorted sorted, last, last]
  constructor
  · rintro ⟨denied, -⟩
    exact denied.mpr
  intro kept
  refine ⟨⟨toSays, kept⟩, fun undenied => ⟨toSays, fun allowed => ?_⟩⟩
  obtain ⟨value, final⟩ := exists_lastSays sorted (⟨_, allowed⟩ : Mentions ops.parsers table host)
  obtain ⟨key, mem, -⟩ := final.toSays
  rcases perms _ mem with eq | eq
  · exact eq ▸ final
  · exact absurd (eq ▸ final) undenied

section

variable {ops : MergeOps} {overlay base : List (Text × TomlValue)}

/-- Otherwise the longest host that is not in normal form would have a longer one before it. -/
theorem normalizeHost_eq_of_mentioned (parsers : HostParsers) {hosts : List Text}
    (formed : ∀ host ∈ hosts, ∃ key ∈ hosts, normalizeHost parsers key = host) :
    ∀ host ∈ hosts, normalizeHost parsers host = host := by
  by_contra unstable
  simp only [not_forall] at unstable
  have ne : (hosts.filter fun host => normalizeHost parsers host ≠ host).toFinset.Nonempty := by
    obtain ⟨host, mem, moves⟩ := unstable
    exact ⟨host, by simp [mem, moves]⟩
  obtain ⟨host, mem, longest⟩ := Finset.exists_max_image _ List.length ne
  obtain ⟨mem, moves⟩ : host ∈ hosts ∧ normalizeHost parsers host ≠ host := by
    simpa using mem
  obtain ⟨key, present, form⟩ := formed host mem
  have moves' : normalizeHost parsers key ≠ key := by
    intro fixed
    obtain rfl : key = host := fixed.symm.trans form
    exact moves form
  have lt : host.length < key.length := by
    by_contra kept
    rw [← form] at kept moves
    exact moves (NetworkProxy.normalizeHost_normalizeHost (Nat.not_lt.mp kept))
  exact absurd (longest key (by simp [present, moves'])) (Nat.not_le.mpr lt)

def mentionedHosts (parsers : HostParsers) (overlay base : List (Text × TomlValue)) : List Text :=
  (overlay ++ base).map fun entry => normalizeHost parsers entry.1

theorem mem_mentionedHosts : host ∈ mentionedHosts parsers overlay base ↔
    Mentions parsers overlay host ∨ Mentions parsers base host := by
  simp only [mentionedHosts, mem_map, mem_append, Prod.exists, Mentions, Says]
  constructor
  · rintro ⟨key, value, mem | mem, spelled⟩
    · exact .inl ⟨value, key, mem, spelled⟩
    · exact .inr ⟨value, key, mem, spelled⟩
  rintro (⟨value, key, mem, spelled⟩ | ⟨value, key, mem, spelled⟩)
  · exact ⟨key, value, .inl mem, spelled⟩
  · exact ⟨key, value, .inr mem, spelled⟩

theorem hostPermission_eq_none_iff (sorted : Sorted table) (perms : AllowsOrDenies table) :
    hostPermission parsers table host = .none ↔ ¬ Mentions parsers table host := by
  rw [mentions_iff perms, not_or]
  rcases hostPermission_cases parsers sorted host with
    ⟨deny, eq⟩ | ⟨deny, allow, eq⟩ | ⟨deny, allow, eq⟩ <;> simp [*]

variable {prof : Text} (sorted : Sorted overlay) (sorted' : Sorted base)
  (perms : AllowsOrDenies overlay) (perms' : AllowsOrDenies base)
include sorted sorted' perms

theorem mergedDomains_said_iff_of_stable
    (stable : ∀ host, Mentions ops.parsers overlay host ∨ Mentions ops.parsers base host →
      normalizeHost ops.parsers host = host) :
    Says ops.parsers (mergedDomains ops prof overlay base) value host ↔
      LastSays ops.parsers overlay value host ∨
        ¬ Mentions ops.parsers overlay host ∧ LastSays ops.parsers base value host := by
  rw [mergedDomains_said_iff perms sorted sorted']
  have named : ∀ key, (LastSays ops.parsers overlay value key ∨
      ¬ Mentions ops.parsers overlay key ∧ LastSays ops.parsers base value key) →
        normalizeHost ops.parsers key = key := fun key spoken =>
    stable key (spoken.imp mentions fun last => last.2.mentions)
  constructor
  · rintro ⟨key, form, spoken⟩
    obtain rfl : key = host := (named key spoken).symm.trans form
    exact spoken
  intro spoken
  exact ⟨host, named host spoken, spoken⟩

include perms'

theorem hostPermission_mergedDomains_iff
    (stable : ∀ host, Mentions ops.parsers overlay host ∨ Mentions ops.parsers base host →
      normalizeHost ops.parsers host = host) (host : Text) :
    (Mentions ops.parsers overlay host →
      (hostPermission ops.parsers (mergedDomains ops prof overlay base) host =
        hostPermission ops.parsers overlay host ↔ DenialLast ops.parsers overlay host)) ∧
    (¬ Mentions ops.parsers overlay host →
      (hostPermission ops.parsers (mergedDomains ops prof overlay base) host =
        hostPermission ops.parsers base host ↔ DenialLast ops.parsers base host)) := by
  constructor
  · intro mine
    refine hostPermission_eq_iff_denialLast sorted_mergedDomains sorted perms fun value => ?_
    rw [mergedDomains_said_iff_of_stable sorted sorted' perms stable]
    simp [mine]
  intro y
  refine hostPermission_eq_iff_denialLast sorted_mergedDomains sorted' perms' fun value => ?_
  have silent : ¬ LastSays ops.parsers overlay value host := fun last => y last.mentions
  rw [mergedDomains_said_iff_of_stable sorted sorted' perms stable]
  simp [y, silent]

theorem mergedDomains_iff : (∀ host, (Mentions ops.parsers overlay host →
        hostPermission ops.parsers (mergedDomains ops prof overlay base) host =
          hostPermission ops.parsers overlay host) ∧
      (¬ Mentions ops.parsers overlay host →
        hostPermission ops.parsers (mergedDomains ops prof overlay base) host =
          hostPermission ops.parsers base host)) ↔
      KeepsDenials ops.parsers overlay base := by
  have mergedSorted := @sorted_mergedDomains ops prof base overlay
  constructor
  · intro agree
    have formed : ∀ host ∈ mentionedHosts ops.parsers overlay base,
        ∃ key ∈ mentionedHosts ops.parsers overlay base, normalizeHost ops.parsers key = host := by
      intro host mem
      have given : hostPermission ops.parsers (mergedDomains ops prof overlay base) host ≠
          .none := by
        by_cases mine : Mentions ops.parsers overlay host
        · rw [(agree host).1 mine, ne_eq, hostPermission_eq_none_iff sorted perms]
          exact not_not.mpr mine
        rw [(agree host).2 mine, ne_eq, hostPermission_eq_none_iff sorted' perms']
        exact not_not.mpr ((mem_mentionedHosts.mp mem).resolve_left mine)
      have spoken : ∃ value, Says ops.parsers (mergedDomains ops prof overlay base) value host := by
        rcases hostPermission_cases ops.parsers mergedSorted host with
          ⟨deny, -⟩ | ⟨-, allow, -⟩ | ⟨-, -, none⟩
        · exact ⟨_, deny⟩
        · exact ⟨_, allow⟩
        · exact absurd none given
      obtain ⟨value, said⟩ := spoken
      obtain ⟨key, form, last⟩ := (mergedDomains_said_iff perms sorted sorted').mp said
      exact ⟨key, mem_mentionedHosts.mpr (last.imp mentions fun last => last.2.mentions),
        form⟩
    have stable : ∀ host, Mentions ops.parsers overlay host ∨ Mentions ops.parsers base host →
        normalizeHost ops.parsers host = host := fun host named =>
      normalizeHost_eq_of_mentioned ops.parsers formed host (mem_mentionedHosts.mpr named)
    have kept := @hostPermission_mergedDomains_iff ops overlay base prof sorted sorted'
      perms perms' stable
    exact ⟨stable, fun host mine => ((kept host).1 mine).mp ((agree host).1 mine),
      fun host y => ((kept host).2 y).mp ((agree host).2 y)⟩
  rintro ⟨stable, last, last'⟩ host
  have kept := @hostPermission_mergedDomains_iff ops overlay base prof sorted sorted'
    perms perms' stable host
  exact ⟨fun mine => (kept.1 mine).mpr (last host mine), fun y => (kept.2 y).mpr (last' host y)⟩

end

theorem getPath_of_domainsAt {prof : Text} {layer : TomlValue}
    (present : domainsAt prof layer = some domains) :
    layer.getPath (domainsPath prof) = some (.table domains) := by
  obtain ⟨value, hit, ents⟩ := Option.bind_eq_some_iff.mp present
  cases value with
  | table entries' =>
    obtain rfl := Option.some.inj ents
    exact hit
  | _ => cases ents

/-- The permissions are right exactly if the base has no domains or the last spellings keep the
denials. -/
theorem domain_merge_keeps_denials_iff (ops : MergeOps) (prof : Text) {base overlay : TomlValue}
    {domains : List (Text × TomlValue)} (sorted : base.Sorted) (sorted' : overlay.Sorted)
    (present : domainsAt prof overlay = some domains) (perms : AllowsOrDenies domains)
    (perms' : AllowsOrDenies ((domainsAt prof base).getD [])) :
    (∃ merged, domainsAt prof (mergeTomlValues ops base overlay) = some merged ∧
      ∀ host, (Mentions ops.parsers domains host →
          hostPermission ops.parsers merged host = hostPermission ops.parsers domains host) ∧
        (¬ Mentions ops.parsers domains host → hostPermission ops.parsers merged host =
          hostPermission ops.parsers ((domainsAt prof base).getD []) host)) ↔
      ∀ baseDomains, domainsAt prof base = some baseDomains →
        KeepsDenials ops.parsers domains baseDomains := by
  have hit := getPath_of_domainsAt present
  have domainsSorted : Sorted domains := (sorted'.of_getPath hit).keys_sorted
  have merged : domainsAt prof (mergeTomlValues ops base overlay) =
      (mergeOver ops (.table domains) (domainsPath prof)
        (base.getPath (domainsPath prof))).asTable := by
    have way := @getPath_mergeOver ops _ _ (plainWay_domains prof) _ _ sorted' hit (some base)
    exact (congrArg (·.bind TomlValue.asTable) way)
  rw [merged]
  cases there : domainsAt prof base with
  | none =>
    rw [mergeOver_domains_of_absent there perms domainsSorted]
    refine iff_of_true ⟨domains, rfl, fun host => ⟨fun _ => rfl, fun silent => ?_⟩⟩ nofun
    rw [(hostPermission_eq_none_iff domainsSorted perms).mpr silent]
    rfl
  | some baseDomains =>
    have hit' := getPath_of_domainsAt there
    have baseSorted : Sorted baseDomains := (sorted.of_getPath hit').keys_sorted
    rw [there] at perms'
    have exact := @mergedDomains_iff ops domains baseDomains prof domainsSorted baseSorted
      perms perms'
    rw [hit', mergeOver_domains]
    simpa [TomlValue.asTable] using exact

def posixMergeOps : MergeOps where
  windows := false
  credentialBrokerProviderContextEnvKeys := []
  parsers :=
    { isIpAddr := fun text => text.count '.' = 3 && text.all fun c => c.isDigit || c = '.'
      parseUrlHost := some }
  toLowercase := Text.toAsciiLowercase

/-- A layer with the domains of the profile `dev`. -/
def domainsLayer (domains : List (Text × TomlValue)) : TomlValue :=
  .table [("permissions", .table [("dev", .table [("network",
    .table [("domains", .table domains)])])])]

theorem sorted_singleton (sorted : value.Sorted) : (TomlValue.table [(key, value)]).Sorted := by
  refine .table _ (pairwise_singleton _ _) fun ent mem => ?_
  rw [mem_singleton.mp mem]
  exact sorted

theorem sorted_domainsLayer (keys : Sorted domains) (perms : AllowsOrDenies domains) :
    (domainsLayer domains).Sorted := by
  refine sorted_singleton (sorted_singleton (sorted_singleton (sorted_singleton ?_)))
  refine .table _ keys fun ent mem => ?_
  rcases perms ent mem with eq | eq <;> rw [eq] <;> exact .string _

/-- A spelling in upper case replaces the denial of the base, and nothing else. -/
theorem domain_merge_overrides_spelling :
    ∃ merged, domainsAt "dev" (mergeTomlValues posixMergeOps
        (domainsLayer [("example.com", denyValue)])
        (domainsLayer [("EXAMPLE.COM", allowValue)])) = some merged ∧
      ∀ host, (Mentions posixMergeOps.parsers [("EXAMPLE.COM", allowValue)] host →
          hostPermission posixMergeOps.parsers merged host =
            hostPermission posixMergeOps.parsers [("EXAMPLE.COM", allowValue)] host) ∧
        (¬ Mentions posixMergeOps.parsers [("EXAMPLE.COM", allowValue)] host →
          hostPermission posixMergeOps.parsers merged host =
            hostPermission posixMergeOps.parsers [("example.com", denyValue)] host) := by
  have one : ∀ key : Text, Sorted [(key, allowValue)] ∧ Sorted [(key, denyValue)] :=
    fun key => ⟨pairwise_singleton _ _, pairwise_singleton _ _⟩
  have allows : ∀ key : Text, AllowsOrDenies [(key, allowValue)] := fun key ent mem =>
    .inl (by rw [mem_singleton.mp mem])
  have denies : ∀ key : Text, AllowsOrDenies [(key, denyValue)] := fun key ent mem =>
    .inr (by rw [mem_singleton.mp mem])
  refine (domain_merge_keeps_denials_iff posixMergeOps "dev"
    (sorted_domainsLayer (one _).2 (denies _)) (sorted_domainsLayer (one _).1 (allows _)) rfl
    (allows _) (denies _)).mpr fun baseDomains present => ?_
  obtain rfl := Option.some.inj present
  refine ⟨fun host mentioned => ?_, fun host _ said => ?_, fun host _ said => ?_⟩
  · have named : host = "example.com" := by
      rcases mentioned with ⟨value, key, mem, rfl⟩ | ⟨value, key, mem, rfl⟩ <;>
        rw [(Prod.mk.inj (mem_singleton.mp mem)).1] <;> decide +kernel
    rw [named]
    decide +kernel
  · obtain ⟨key, mem, -⟩ := said
    exact absurd (Prod.mk.inj (mem_singleton.mp mem)).2 (by simp [denyValue, allowValue])
  obtain ⟨key, mem, spelled⟩ := said
  refine ⟨key, mem, spelled, fun y otherValue present _ => ?_⟩
  rw [(Prod.mk.inj (mem_singleton.mp mem)).1, (Prod.mk.inj (mem_singleton.mp present)).1]

/-- The overlay denies a host, but under a base with domains its last spelling allows it. -/
theorem domain_merge_drops_denial :
    let domains := [("EXAMPLE.COM".toList, denyValue), ("example.com".toList, allowValue)]
    let host := "example.com".toList
    hostPermission posixMergeOps.parsers domains host = .deny ∧
      (domainsAt "dev".toList (mergeTomlValues posixMergeOps (domainsLayer [])
        (domainsLayer domains))).map (hostPermission posixMergeOps.parsers · host) = some .allow ∧
      (domainsAt "dev".toList (mergeTomlValues posixMergeOps (.table [])
        (domainsLayer domains))).map (hostPermission posixMergeOps.parsers · host) =
          some .deny := by
  decide +kernel

end Codex.Config
