import Codex.Permissions.Native

/-!
# Intersection of permission profiles

What a command requests is granted in part.
-/

namespace Codex.Permissions

open FileSystemAccessMode (deny_atMost atMost_write canRead canWrite)
open Specificity UriPath NativePath

def accessCovers (requested granted : FileSystemAccessMode) : Bool :=
  match granted with
  | .read => requested.canRead
  | .write => requested.canWrite
  | .deny => false

variable (host : Host)

def resolvePermissionPath (cwd : NativePath) (path : FileSystemPath NativePath) :
    Option NativePath :=
  resolveNativePath host cwd path

def materializeCwdDependentEntry (cwd : NativePath)
    (entry : FileSystemSandboxEntry NativePath) : FileSystemSandboxEntry NativePath :=
  match entry.path with
  | .special (.projectRoots _) =>
    match resolvePermissionPath host cwd entry.path with
    | some path => { entry with path := .path path }
    | none => entry
  | .globPattern pat => { entry with path := .globPattern (host.resolvePattern pat cwd) }
  | .path _ | .special _ => entry

def globStaticPrefixPath (cwd : NativePath) (pat : Text) : Option NativePath :=
  let resolved := host.resolvePattern pat cwd
  match resolved.findIdx? (· ∈ "*?[]".toList) with
  | some 0 => none
  | some idx =>
    let front := resolved.take idx
    if front.getLast? = some '/' ∨ front.getLast? = some '\\' then
      some (resolveText [] front)
    else some (resolveText [] front).dropLast
  | none => some (resolveText [] resolved)

def pathsMayOverlap (left right : NativePath) : Bool :=
  if left = right then true
  else if left.isOpaque || right.isOpaque then true
  else left.startsWith right || right.startsWith left

section

variable (cwd : NativePath)

def grantedFileSystemEntryWithinRequest (requested : List (FileSystemSandboxEntry NativePath))
    (granted : FileSystemSandboxEntry NativePath) : Bool :=
  if !granted.access.canRead then false
  else
    let policy := FileSystemSandboxPolicy.restricted requested
    match resolvePermissionPath host cwd granted.path with
    | some path =>
      if (ReadDenyMatcher.new host policy cwd).any (·.isReadDenied path) then false
      else accessCovers (policy.resolveAccessWithCwd host path cwd) granted.access
    | none => requested.any fun entry =>
      accessCovers entry.access granted.access && entry.path.same posixOps granted.path

def denyEntryConstrainsAcceptedGrant (accepted : List (FileSystemSandboxEntry NativePath))
    (denied : FileSystemSandboxEntry NativePath) : Bool :=
  accepted.any fun entry => entry.access.canRead &&
    match resolvePermissionPath host cwd entry.path with
    | none => false
    | some grantPath =>
      (match denied.path with
        | .globPattern pat => globStaticPrefixPath host cwd pat
        | .path _ | .special _ => resolvePermissionPath host cwd denied.path).any
          (pathsMayOverlap · grantPath)

def retainedDenyEntries (source accepted : List (FileSystemSandboxEntry NativePath)) :
    List (FileSystemSandboxEntry NativePath) :=
  (source.filter fun entry => entry.access = .deny &&
    denyEntryConstrainsAcceptedGrant host cwd accepted entry).map
      (materializeCwdDependentEntry host cwd)

def acceptedEntries (requested granted : List (FileSystemSandboxEntry NativePath)) :
    List (FileSystemSandboxEntry NativePath) :=
  Distinct.extend (FileSystemSandboxEntry.same posixOps) []
    ((granted.filter (grantedFileSystemEntryWithinRequest host cwd requested)).map
      (materializeCwdDependentEntry host cwd))

def intersectFileSystem (requested granted : FileSystemPermissions NativePath) :
    FileSystemPermissions NativePath :=
  let accepted := acceptedEntries host cwd requested.entries granted.entries
  let fromRequested := retainedDenyEntries host cwd requested.entries accepted
  let fromGranted := retainedDenyEntries host cwd granted.entries accepted
  { entries := Distinct.extend (FileSystemSandboxEntry.same posixOps)
      (Distinct.extend (FileSystemSandboxEntry.same posixOps) accepted fromRequested) fromGranted
    globScanMaxDepth := (mergeGlobScanMaxDepth fromRequested requested.globScanMaxDepth fromGranted
      granted.globScanMaxDepth).filter (· ≠ 0) }

def intersectPermissionProfiles (requested granted : AdditionalPermissionProfile NativePath) :
    AdditionalPermissionProfile NativePath where
  fileSystem := (requested.fileSystem.map fun fileSystem =>
    intersectFileSystem host cwd fileSystem (granted.fileSystem.getD {})).filter
      fun fileSystem => fileSystem.entries ≠ []
  network := match requested.network, granted.network with
    | some ⟨some true⟩, some ⟨some true⟩ => some ⟨some true⟩
    | _, _ => none

end

open AdditionalPermissionProfile FileSystemPath List

section

variable {requested granted result : List (NativePath × FileSystemAccessMode)}
  {path root : NativePath} {access : FileSystemAccessMode}

def Accepts (requested : List (NativePath × FileSystemAccessMode)) (path : NativePath)
    (access : FileSystemAccessMode) : Prop :=
  (∀ denied, (denied, .deny) ∈ requested → denied ≠ [] → ¬ denied <+: path) ∧
    accessCovers (valueAt .deny requested path) access = true

structure IntersectsAt (requested granted result : List (NativePath × FileSystemAccessMode))
    (path : NativePath) : Prop where
  granted_of_mem : ∀ root access, (root, access) ∈ result → root <+: path → access ≠ .deny →
    (root, access) ∈ granted ∧ Accepts requested root access
  mem_of_accepts : ∀ root access, (root, access) ∈ granted → root <+: path →
    Accepts requested root access → (root, access) ∈ result
  denied_of_mem : ∀ root, (root, .deny) ∈ result → root <+: path →
    (root, .deny) ∈ requested ∨ (root, .deny) ∈ granted
  mem_of_denied : ∀ root access, (root, access) ∈ result → root <+: path → access ≠ .deny →
    ∀ denied, ((denied, .deny) ∈ requested ∨ (denied, .deny) ∈ granted) → denied <+: path →
      (denied, .deny) ∈ result

theorem accessCovers_iff {given : FileSystemAccessMode} :
    accessCovers given access = true ↔ access ≠ .deny ∧ access.AtMost given := by
  cases access <;> cases given <;> decide

namespace IntersectsAt

variable (intersects : IntersectsAt requested granted result path)
include intersects

section

variable (dec : DecidesAt result path root access)
include dec

theorem denied_shallower (allowed : access ≠ .deny) {denied : NativePath}
    (mem : (denied, .deny) ∈ requested ∨ (denied, .deny) ∈ granted) (above : denied <+: path) :
    denied.length < root.length := by
  have kept := intersects.mem_of_denied root access dec.1 dec.2.1 allowed denied mem above
  rcases dec.2.2 denied .deny kept above with lt | ⟨-, weaker⟩
  · exact lt
  cases access with
  | deny => exact absurd rfl allowed
  | read | write => exact absurd weaker (by decide)

/-- The request decides as at the accepted root above, or by a deeper entry that is no denial. -/
theorem requested_cases (allowed : access ≠ .deny)
    {inner : NativePath} (between : root <+: inner) (above : inner <+: path) :
    ∃ top given, DecidesAt requested inner top given ∧
      (top.length ≤ root.length ∧ access.AtMost given ∨
        root.length < top.length ∧ given ≠ .deny) := by
  obtain ⟨-, -, covers⟩ := intersects.granted_of_mem root access dec.1 dec.2.1 allowed
  have permitted := (accessCovers_iff.mp covers).2
  rcases valueAt_cases .deny requested root with ⟨-, silent⟩ | ⟨place, val, decided, eq⟩
  · rw [silent] at permitted
    cases access with
    | deny => exact absurd rfl allowed
    | read | write => exact absurd permitted (by decide)
  obtain ⟨top, given, deciding⟩ := exists_decidesAt decided.1 (decided.2.1.trans between)
  refine ⟨top, given, deciding, ?_⟩
  by_cases shallow : top.length ≤ root.length
  · have beyond := prefix_of_prefix_length_le deciding.2.1 between shallow
    have atRoot : valueAt .deny requested root = given :=
      (deciding.at_root beyond between).valueAt_eq
    rw [atRoot] at permitted
    exact .inl ⟨shallow, permitted⟩
  refine .inr ⟨Nat.lt_of_not_le shallow, fun denies => ?_⟩
  rw [denies] at deciding
  have := intersects.denied_shallower dec allowed (.inl deciding.1)
    (deciding.2.1.trans above)
  omega

theorem granted_read_shallower
    (allowed : access ≠ .deny) {reading : NativePath} (mem : (reading, .read) ∈ granted)
    (above : reading <+: path) : reading.length ≤ root.length := by
  by_contra deeper
  rw [Nat.not_le] at deeper
  have between := prefix_of_prefix_length_le dec.2.1 above deeper.le
  obtain ⟨-, plain, -⟩ := intersects.granted_of_mem root access dec.1 dec.2.1 allowed
  have accepted : Accepts requested reading .read := by
    constructor
    · intro denied here proper beyond
      have shallower := intersects.denied_shallower dec allowed (.inl here)
        (beyond.trans above)
      exact plain denied here proper (prefix_of_prefix_length_le beyond between shallower.le)
    obtain ⟨top, given, deciding, ⟨-, ok⟩ | ⟨-, permits⟩⟩ :=
      intersects.requested_cases dec allowed between above
    · rw [deciding.valueAt_eq]
      exact ok.1 (decide_eq_true allowed)
    rw [deciding.valueAt_eq]
    exact decide_eq_true permits
  have kept := intersects.mem_of_accepts reading .read mem above accepted
  rcases dec.2.2 reading .read kept above with shallower | ⟨eq, -⟩
  · omega
  rw [eq] at deeper
  omega

end

theorem atMost_granted : (valueAt .deny result path).AtMost (valueAt .deny granted path) := by
  rcases valueAt_cases .deny result path with ⟨-, silent⟩ | ⟨root, access, dec, val⟩
  · rw [silent]
    exact deny_atMost _
  rw [val]
  by_cases allowed : access = .deny
  · rw [allowed]
    exact deny_atMost _
  obtain ⟨mine, -⟩ := intersects.granted_of_mem root access dec.1 dec.2.1 allowed
  obtain ⟨top, given, deciding⟩ := exists_decidesAt mine dec.2.1
  rw [deciding.valueAt_eq]
  have permits : given ≠ .deny := by
    intro denies
    rw [denies] at deciding
    have shallower := intersects.denied_shallower dec allowed (.inr deciding.1) deciding.2.1
    rcases deciding.2.2 root access mine dec.2.1 with deeper | ⟨eq, -⟩
    · omega
    rw [eq] at shallower
    omega
  rcases deciding.2.2 root access mine dec.2.1 with deeper | ⟨-, weaker⟩
  · cases given with
    | deny => exact absurd rfl permits
    | write => exact atMost_write access
    | read =>
      have := intersects.granted_read_shallower dec allowed deciding.1 deciding.2.1
      omega
  · exact .of_le weaker permits

theorem atMost_requested_iff : (valueAt .deny result path).AtMost (valueAt .deny requested path) ↔
      ¬ (valueAt .deny requested path = .read ∧ valueAt .deny result path = .write) := by
  constructor
  · rintro le ⟨reads, writes⟩
    rw [reads, writes] at le
    exact absurd le (by decide)
  intro narrow
  rcases valueAt_cases .deny result path with ⟨-, silent⟩ | ⟨root, access, dec, val⟩
  · rw [silent]
    exact deny_atMost _
  rw [val] at narrow ⊢
  by_cases allowed : access = .deny
  · rw [allowed]
    exact deny_atMost _
  obtain ⟨top, given, deciding, ⟨-, ok⟩ | ⟨-, permits⟩⟩ :=
    intersects.requested_cases dec allowed dec.2.1 (prefix_refl path)
  · rw [deciding.valueAt_eq]
    exact ok
  rw [deciding.valueAt_eq] at narrow ⊢
  revert narrow
  cases access <;> cases given <;> simp_all [FileSystemAccessMode.AtMost, canRead, canWrite]

/-- Writing comes from an accepted entry with no denial and no granted read entry below. -/
theorem writes_iff : valueAt .deny result path = .write ↔
    ∃ root, (root, .write) ∈ granted ∧ root <+: path ∧ Accepts requested root .write ∧
      (∀ reading, (reading, .read) ∈ granted → reading <+: path → reading.length ≤ root.length) ∧
      ∀ denied, ((denied, .deny) ∈ requested ∨ (denied, .deny) ∈ granted) → denied <+: path →
        denied.length < root.length := by
  constructor
  · intro writes
    rcases valueAt_cases .deny result path with ⟨-, silent⟩ | ⟨root, access, dec, val⟩
    · rw [silent] at writes
      cases writes
    rw [val] at writes
    subst writes
    have allowed : FileSystemAccessMode.write ≠ .deny := by decide
    obtain ⟨mine, accepted⟩ := intersects.granted_of_mem root .write dec.1 dec.2.1 allowed
    exact ⟨root, mine, dec.2.1, accepted,
      fun _ mem above => intersects.granted_read_shallower dec allowed mem above,
      fun _ mem above => intersects.denied_shallower dec allowed mem above⟩
  rintro ⟨root, mine, above, accepted, reads, denials⟩
  have kept := intersects.mem_of_accepts root .write mine above accepted
  obtain ⟨top, access, dec⟩ := exists_decidesAt kept above
  rw [dec.valueAt_eq]
  have beyond := dec.2.2 root .write kept above
  cases access with
  | write => rfl
  | deny =>
    have shallower := denials top (intersects.denied_of_mem top dec.1 dec.2.1)
      dec.2.1
    rcases beyond with deeper | ⟨eq, -⟩
    · omega
    rw [eq] at shallower
    omega
  | read =>
    obtain ⟨given, -⟩ := intersects.granted_of_mem top .read dec.1 dec.2.1 (by decide)
    have shallower := reads top given dec.2.1
    rcases beyond with deeper | ⟨-, weaker⟩
    · omega
    · exact absurd weaker (by decide)

end IntersectsAt

end

section

variable {host : Host} {cwd path : NativePath}
  {requested granted accepted source : List (FileSystemSandboxEntry NativePath)}
  {entry : FileSystemSandboxEntry NativePath}

theorem materialize_of_concrete (real : entry.path.isConcrete = true) :
    materializeCwdDependentEntry host cwd entry = entry := by
  obtain ⟨entryPath, access, behavior⟩ := entry
  cases entryPath with
  | path named => rfl
  | globPattern pat => cases real
  | special val => cases val <;> first | rfl | cases real

theorem mem_materialized (real : Concrete source)
    (kept : FileSystemSandboxEntry NativePath → Bool) :
    entry ∈ (source.filter kept).map (materializeCwdDependentEntry host cwd) ↔
      entry ∈ source ∧ kept entry = true := by
  rw [mem_map]
  constructor
  · rintro ⟨y, mem, eq⟩
    obtain ⟨here, holds⟩ := mem_filter.mp mem
    rw [materialize_of_concrete (real y here)] at eq
    exact eq ▸ ⟨here, holds⟩
  rintro ⟨here, holds⟩
  exact ⟨entry, mem_filter.mpr ⟨here, holds⟩, materialize_of_concrete (real entry here)⟩

theorem mem_acceptedEntries (real : Concrete granted) :
    entry ∈ acceptedEntries host cwd requested granted ↔
      entry ∈ granted ∧ grantedFileSystemEntryWithinRequest host cwd requested entry = true := by
  rw [acceptedEntries, Distinct.mem_extend_iff entry_same_iff, mem_materialized real]
  simp

variable {requestedDepth grantedDepth : Option Nat}

theorem mem_intersectFileSystem (real : Concrete requested) (real' : Concrete granted) :
    entry ∈ (intersectFileSystem host cwd ⟨requested, requestedDepth⟩
        ⟨granted, grantedDepth⟩).entries ↔
      entry ∈ acceptedEntries host cwd requested granted ∨
        (entry ∈ requested ∨ entry ∈ granted) ∧ entry.access = .deny ∧
          denyEntryConstrainsAcceptedGrant host cwd
            (acceptedEntries host cwd requested granted) entry = true := by
  simp only [intersectFileSystem, Distinct.mem_extend_iff entry_same_iff, retainedDenyEntries,
    mem_materialized real, mem_materialized real', Bool.and_eq_true, decide_eq_true_eq]
  tauto

theorem within_iff (real : Concrete requested) (named : entry.path.isConcrete = true)
    (cwdClear : cwd.isOpaque = false) (clear : entry.path.target.isOpaque = false) :
    grantedFileSystemEntryWithinRequest host cwd requested entry = true ↔
      Accepts (targets requested) entry.path.target entry.access := by
  rw [grantedFileSystemEntryWithinRequest, resolvePermissionPath,
    resolveNativePath_of_concrete named]
  dsimp only
  rw [resolveAccessWithCwd_of_concrete real cwdClear clear]
  have denied := @isReadDenied_iff host requested cwd entry.path.target real
  split_ifs with hidden blocked
  · have denies : entry.access = .deny := by simpa [canRead] using hidden
    simp [Accepts, denies, accessCovers]
  · obtain ⟨place, mem, proper, above⟩ := denied.mp blocked
    exact iff_of_false (by simp) fun accepts => accepts.1 place mem proper above
  exact ⟨fun covers => ⟨fun place mem proper above =>
    blocked (denied.mpr ⟨place, mem, proper, above⟩), covers⟩, And.right⟩

theorem pathsMayOverlap_of_above {left right : NativePath} (clear : path.isOpaque = false)
    (above : left <+: path) (above' : right <+: path) : pathsMayOverlap left right = true := by
  have leftClear := clear_of_above clear above
  have rightClear := clear_of_above clear above'
  rw [pathsMayOverlap]
  split_ifs with eq hidden
  · rfl
  · rfl
  rcases Nat.le_total left.length right.length with lt | longer
  · have beyond := prefix_of_prefix_length_le above above' lt
    simp [(startsWith_iff rightClear).mpr beyond]
  have beyond := prefix_of_prefix_length_le above' above longer
  simp [(startsWith_iff leftClear).mpr beyond]

theorem constrains_of_above {denied : FileSystemSandboxEntry NativePath}
    (clear : path.isOpaque = false) (mem : entry ∈ accepted)
    (named : entry.path.isConcrete = true) (deniedNamed : denied.path.isConcrete = true)
    (reads : entry.access ≠ .deny) (above : entry.path.target <+: path)
    (deniedAbove : denied.path.target <+: path) :
    denyEntryConstrainsAcceptedGrant host cwd accepted denied = true := by
  have overlap := pathsMayOverlap_of_above clear deniedAbove above
  refine any_eq_true.mpr ⟨entry, mem, ?_⟩
  rw [Bool.and_eq_true, resolvePermissionPath, resolveNativePath_of_concrete named]
  refine ⟨decide_eq_true reads, ?_⟩
  have place := @resolveNativePath_of_concrete host cwd denied.path deniedNamed
  cases path : denied.path with
  | globPattern pat =>
    rw [path] at deniedNamed
    cases deniedNamed
  | path named =>
    rw [path] at overlap
    exact overlap
  | special val =>
    rw [path] at overlap place
    simpa [resolvePermissionPath, place] using overlap

theorem intersectsAt_of_concrete (real : Concrete requested) (real' : Concrete granted)
    (cwdClear : cwd.isOpaque = false) (clear : path.isOpaque = false) :
    IntersectsAt (targets requested) (targets granted)
      (targets (intersectFileSystem host cwd ⟨requested, requestedDepth⟩
        ⟨granted, grantedDepth⟩).entries) path := by
  have le : ∀ entry ∈ granted, entry.path.target <+: path →
      (grantedFileSystemEntryWithinRequest host cwd requested entry = true ↔
        Accepts (targets requested) entry.path.target entry.access) :=
    fun entry mem above => within_iff real (real' entry mem) cwdClear
      (clear_of_above clear above)
  have accepted : ∀ entry ∈ (intersectFileSystem host cwd ⟨requested, requestedDepth⟩
      ⟨granted, grantedDepth⟩).entries, entry.access ≠ .deny →
      entry ∈ acceptedEntries host cwd requested granted := by
    intro entry mem allowed
    rcases (mem_intersectFileSystem real real').mp mem with mine | ⟨-, denies, -⟩
    · exact mine
    · exact absurd denies allowed
  constructor
  · intro root access mem above allowed
    obtain ⟨entry, here, eq⟩ := mem_map.mp mem
    obtain ⟨rfl, rfl⟩ := Prod.mk.inj eq
    obtain ⟨given, holds⟩ := (mem_acceptedEntries real').mp (accepted entry here allowed)
    exact ⟨mem_map_of_mem given, (le entry given above).mp holds⟩
  · intro root access mem above accepts
    obtain ⟨entry, here, eq⟩ := mem_map.mp mem
    obtain ⟨rfl, rfl⟩ := Prod.mk.inj eq
    refine mem_map_of_mem ((mem_intersectFileSystem real real').mpr (.inl ?_))
    exact (mem_acceptedEntries real').mpr ⟨here, (le entry here above).mpr accepts⟩
  · intro root mem above
    obtain ⟨entry, here, eq⟩ := mem_map.mp mem
    obtain ⟨rfl, denies⟩ := Prod.mk.inj eq
    rcases (mem_intersectFileSystem real real').mp here with mine | ⟨source, -, -⟩
    · obtain ⟨given, holds⟩ := (mem_acceptedEntries real').mp mine
      have accepts := (le entry given above).mp holds
      exact absurd denies (accessCovers_iff.mp accepts.2).1
    rcases source with asked | given
    · exact .inl (mem_map.mpr ⟨entry, asked, eq⟩)
    · exact .inr (mem_map.mpr ⟨entry, given, eq⟩)
  intro root access mem above allowed denied source deniedAbove
  obtain ⟨entry, here, eq⟩ := mem_map.mp mem
  obtain ⟨rfl, rfl⟩ := Prod.mk.inj eq
  have mine := accepted entry here allowed
  have named := real' entry ((mem_acceptedEntries real').mp mine).1
  have either : ∃ y, (y ∈ requested ∨ y ∈ granted) ∧
      (y.path.target, y.access) = (denied, .deny) := by
    rcases source with asked | given
    · obtain ⟨y, mine, eq⟩ := mem_map.mp asked
      exact ⟨y, .inl mine, eq⟩
    obtain ⟨y, mine, eq⟩ := mem_map.mp given
    exact ⟨y, .inr mine, eq⟩
  obtain ⟨y, origin, eq⟩ := either
  obtain ⟨rfl, denies⟩ := Prod.mk.inj eq
  have otherNamed : y.path.isConcrete = true :=
    origin.elim (real y) (real' y)
  refine mem_map.mpr ⟨y, (mem_intersectFileSystem real real').mpr (.inr ?_), eq⟩
  exact ⟨origin, denies, constrains_of_above clear mine named otherNamed allowed above
    deniedAbove⟩

theorem concrete_intersectFileSystem (real : Concrete requested) (real' : Concrete granted) :
    Concrete (intersectFileSystem host cwd ⟨requested, requestedDepth⟩
      ⟨granted, grantedDepth⟩).entries := by
  intro entry mem
  rcases (mem_intersectFileSystem real real').mp mem with mine | ⟨source, -, -⟩
  · exact real' entry ((mem_acceptedEntries real').mp mine).1
  · exact source.elim (real entry) (real' entry)

theorem entries_intersectPermissionProfiles (asked given : AdditionalPermissionProfile NativePath) :
    (intersectPermissionProfiles host cwd asked given).entries =
      (asked.fileSystem.map fun fileSystem => (intersectFileSystem host cwd fileSystem
        (given.fileSystem.getD {})).entries).getD [] := by
  rw [intersectPermissionProfiles, entries]
  cases asked.fileSystem with
  | none => rfl
  | some fileSystem =>
    by_cases none : (intersectFileSystem host cwd fileSystem
        (given.fileSystem.getD {})).entries = []
    all_goals simp [Option.filter_some, none]

end

def entriesAccess (cwd path : NativePath)
    (entries : List (FileSystemSandboxEntry NativePath)) : FileSystemAccessMode :=
  (FileSystemSandboxPolicy.restricted entries).resolveAccessWithCwd host path cwd

/-- The request gives reading only, but a granted write entry above is within the request. -/
def WidensRequest (cwd path : NativePath)
    (requested granted : List (FileSystemSandboxEntry NativePath)) : Prop :=
  entriesAccess host cwd path requested = .read ∧
    ∃ entry ∈ granted, entry.access = .write ∧ entry.path.target <+: path ∧
      grantedFileSystemEntryWithinRequest host cwd requested entry = true ∧
      (∀ other ∈ granted, other.access = .read → other.path.target <+: path →
        other.path.target.length ≤ entry.path.target.length) ∧
      ∀ other, other ∈ requested ∨ other ∈ granted → other.access = .deny →
        other.path.target <+: path → other.path.target.length < entry.path.target.length

theorem widensRequest_iff {host : Host} {cwd path : NativePath}
    {requested granted : List (FileSystemSandboxEntry NativePath)}
    {requestedDepth grantedDepth : Option Nat}
    (real : Concrete requested) (real' : Concrete granted)
    (cwdClear : cwd.isOpaque = false) (clear : path.isOpaque = false) :
    WidensRequest host cwd path requested granted ↔ valueAt .deny (targets requested) path = .read ∧
        valueAt .deny (targets (intersectFileSystem host cwd ⟨requested, requestedDepth⟩
          ⟨granted, grantedDepth⟩).entries) path = .write := by
  have intersects := @intersectsAt_of_concrete host cwd path requested granted requestedDepth
    grantedDepth real real' cwdClear clear
  rw [WidensRequest, entriesAccess, resolveAccessWithCwd_of_concrete real cwdClear clear,
    intersects.writes_iff]
  refine and_congr_right fun _ => ?_
  constructor
  · rintro ⟨entry, mem, writes, above, within, reads, denials⟩
    have accepts := (within_iff real (real' entry mem) cwdClear
      (clear_of_above clear above)).mp within
    rw [writes] at accepts
    refine ⟨entry.path.target, mem_map.mpr ⟨entry, mem, by rw [writes]⟩, above, accepts,
      ?_, ?_⟩
    · intro reading here beyond
      obtain ⟨y, mine, eq⟩ := mem_map.mp here
      obtain ⟨rfl, isRead⟩ := Prod.mk.inj eq
      exact reads y mine isRead beyond
    rintro denied (asked | given) beyond
    · obtain ⟨y, mine, eq⟩ := mem_map.mp asked
      obtain ⟨rfl, denies⟩ := Prod.mk.inj eq
      exact denials y (.inl mine) denies beyond
    obtain ⟨y, mine, eq⟩ := mem_map.mp given
    obtain ⟨rfl, denies⟩ := Prod.mk.inj eq
    exact denials y (.inr mine) denies beyond
  rintro ⟨root, here, above, accepts, reads, denials⟩
  obtain ⟨entry, mem, eq⟩ := mem_map.mp here
  obtain ⟨rfl, writes⟩ := Prod.mk.inj eq
  have within := (@within_iff host cwd requested entry real (real' entry mem)
    cwdClear (clear_of_above clear above)).mpr (by rw [writes]; exact accepts)
  refine ⟨entry, mem, writes, above, within, ?_, ?_⟩
  · intro y mine isRead beyond
    exact reads _ (mem_map.mpr ⟨y, mine, by rw [isRead]⟩) beyond
  intro y source denies beyond
  refine denials _ ?_ beyond
  rw [← denies]
  exact source.imp mem_map_of_mem mem_map_of_mem

/-- The intersection gives no more than either, except at a read entry below a granted write entry.
-/
theorem intersection_atMost_iff (host : Host) (cwd path : NativePath)
    (requested granted : AdditionalPermissionProfile NativePath)
    (real : Concrete requested.entries) (real' : Concrete granted.entries) :
    let result := entriesAccess host cwd path
      (intersectPermissionProfiles host cwd requested granted).entries
    (result.AtMost (entriesAccess host cwd path requested.entries) ∧
        result.AtMost (entriesAccess host cwd path granted.entries)) ↔
      ¬ WidensRequest host cwd path requested.entries granted.entries := by
  intro result
  by_cases hidden : cwd.isOpaque = true ∨ path.isOpaque = true
  · have denied : ∀ ents, entriesAccess host cwd path ents = .deny :=
      fun ents => resolveAccessWithCwd_of_opaquePath rfl hidden
    rw [WidensRequest, denied requested.entries, show result = .deny from denied _]
    exact iff_of_true ⟨.refl _, deny_atMost _⟩ (by simp)
  simp only [not_or, Bool.not_eq_true] at hidden
  obtain ⟨cwdClear, clear⟩ := hidden
  cases asked : requested.fileSystem with
  | none =>
    have nothing : requested.entries = [] := by
      simp [entries, asked]
    have denied : entriesAccess host cwd path [] = .deny :=
      resolveAccessWithCwd_of_concrete (fun _ mem => by cases mem) cwdClear clear
    have silent : result = .deny := by
      simp [result, entries_intersectPermissionProfiles, asked, denied]
    rw [WidensRequest, nothing, denied, silent]
    exact iff_of_true ⟨.refl _, deny_atMost _⟩ (by simp)
  | some fileSystem =>
    have ents : requested.entries = fileSystem.entries := by
      simp [entries, asked]
    rw [ents] at real ⊢
    have intersects := @intersectsAt_of_concrete host cwd path fileSystem.entries granted.entries
      fileSystem.globScanMaxDepth (granted.fileSystem.getD {}).globScanMaxDepth real real'
      cwdClear clear
    have intersected : result = valueAt .deny (targets (intersectFileSystem host cwd fileSystem
        (granted.fileSystem.getD {})).entries) path := by
      simp only [result, entries_intersectPermissionProfiles, asked, Option.map_some,
        Option.getD_some]
      exact resolveAccessWithCwd_of_concrete (concrete_intersectFileSystem real real')
        cwdClear clear
    rw [intersected, widensRequest_iff real real' cwdClear clear, entriesAccess,
      resolveAccessWithCwd_of_concrete real cwdClear clear, entriesAccess,
      resolveAccessWithCwd_of_concrete real' cwdClear clear,
      ← intersects.atMost_requested_iff]
    exact and_iff_left intersects.atMost_granted

def entriesProfile (entries : List (FileSystemSandboxEntry NativePath)) :
    AdditionalPermissionProfile NativePath where
  network := none
  fileSystem := some { entries }

theorem intersection_atMost_nested :
    let requested := entriesProfile [pathEntry ["a".toList] .write,
      pathEntry ["a".toList, "b".toList] .deny]
    let granted := entriesProfile [pathEntry ["a".toList] .read]
    let path := ["a".toList, "c".toList]
    let result := entriesAccess plainHost [] path
      (intersectPermissionProfiles plainHost [] requested granted).entries
    result = .read ∧ result.AtMost (entriesAccess plainHost [] path requested.entries) ∧
      result.AtMost (entriesAccess plainHost [] path granted.entries) := by
  intro requested granted path result
  refine ⟨by decide +kernel, (intersection_atMost_iff plainHost [] path requested granted
    (by simp [requested, entriesProfile, entries, Concrete, pathEntry,
      isConcrete])
    (by simp [granted, entriesProfile, entries, Concrete, pathEntry,
      isConcrete])).mpr ?_⟩
  rintro ⟨-, entry, mem, writes, -⟩
  obtain rfl := mem_singleton.mp mem
  cases writes

/-- A directory that is requested for reading only becomes writable with the directory above it. -/
theorem intersection_widens_requested_read :
    let requested := entriesProfile [pathEntry ["a".toList] .write,
      pathEntry ["a".toList, "b".toList] .read]
    let granted := entriesProfile [pathEntry ["a".toList] .write]
    let path := ["a".toList, "b".toList, "c".toList]
    entriesAccess plainHost [] path requested.entries = .read ∧ entriesAccess plainHost [] path
        (intersectPermissionProfiles plainHost [] requested granted).entries = .write := by
  decide +kernel

end Codex.Permissions
