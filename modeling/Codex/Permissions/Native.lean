import Codex.Foundation.Glob
import Codex.Foundation.Lists
import Codex.Permissions.Policy

/-!
# Policies on a POSIX host

An absolute path of the host is the list of its components.
-/

namespace Codex.Permissions

open Specificity UriPath List FileSystemSandboxPolicy

abbrev NativePath := List Text

namespace NativePath

def isDrive (part : Text) : Bool :=
  match part with
  | [letter, ':'] => letter.isAlpha
  | _ => false

def isOpaque (path : NativePath) : Bool :=
  path.head?.any isDrive || path.any fun part => decide ('\x00' ∈ part)

def componentMove (part : Text) : Option (Walk.Move Text) :=
  if part = [] ∨ part = "." then none
  else if part = ".." then some .up
  else some (.down part)

def resolveText (base : NativePath) (path : Text) : NativePath :=
  Walk.resolve 0 base ((path.splitOn '/').filterMap componentMove)

def lexicalDepth (path : NativePath) : Option Nat :=
  if path.isOpaque then none else some path.length

def startsWith (path base : NativePath) : Bool :=
  path = base || (!path.isOpaque && !base.isOpaque && base.isPrefixOf path)

def join (base : NativePath) (path : Text) : Option NativePath :=
  if '\x00' ∈ path then none
  else if path = [] then some base
  else if path.head? = some '/' then some (resolveText [] path)
  else if base.isOpaque || (resolveText base path).isOpaque then none
  else some (resolveText base path)

def joinDescendant (base : NativePath) (path : Text) : Option NativePath :=
  (base.join path).filter fun descendant =>
    path.head? ≠ some '/' && descendant.startsWith base

variable {path base : NativePath}

theorem clear_of_above (clear : path.isOpaque = false) (above : base <+: path) :
    base.isOpaque = false := by
  obtain ⟨tl, rfl⟩ := above
  rw [isOpaque, Bool.or_eq_false_iff] at clear ⊢
  refine ⟨?_, ?_⟩
  · cases base with
    | nil => rfl
    | cons part base => exact clear.1
  have all := clear.2
  rw [any_append, Bool.or_eq_false_iff] at all
  exact all.1

theorem startsWith_iff (clear : path.isOpaque = false) :
    path.startsWith base = true ↔ base <+: path := by
  rw [startsWith, Bool.or_eq_true, decide_eq_true_eq, Bool.and_eq_true, Bool.and_eq_true,
    isPrefixOf_iff_prefix]
  constructor
  · rintro (rfl | ⟨-, above⟩)
    · exact prefix_refl path
    · exact above
  intro above
  exact .inr ⟨⟨by simp [clear], by simp [clear_of_above clear above]⟩, above⟩

theorem lexicalDepth_of_clear (clear : path.isOpaque = false) :
    path.lexicalDepth = some path.length := by
  simp [lexicalDepth, clear]

theorem clear_of_lexicalDepth {depth : Nat} (deep : path.lexicalDepth = some depth) :
    path.isOpaque = false ∧ path.length = depth := by
  rw [lexicalDepth] at deep
  split_ifs at deep with hidden
  exact ⟨by simpa using hidden, Option.some.inj deep⟩

end NativePath

def posixOps : PathOps NativePath where
  same path other := decide (path = other)
  inferPathConvention _ := some .posix
  lexicalDepth := NativePath.lexicalDepth
  isOpaque := NativePath.isOpaque
  startsWith := NativePath.startsWith
  join := NativePath.join
  joinDescendant := NativePath.joinDescendant
  topmost path := if path.isOpaque then path else []
  same_refl _ := decide_eq_true rfl
  same_symm _ _ equal := decide_eq_true (of_decide_eq_true equal).symm
  startsWith_of_same path other equal := by
    rw [of_decide_eq_true equal, NativePath.startsWith, decide_eq_true rfl, Bool.true_or]
  convention_of_same _ _ _ := rfl
  depth_of_same _ _ equal := by rw [of_decide_eq_true equal]
  depth_le path base depth baseDepth below deep baseDeep := by
    obtain ⟨clear, rfl⟩ := NativePath.clear_of_lexicalDepth deep
    obtain ⟨-, rfl⟩ := NativePath.clear_of_lexicalDepth baseDeep
    exact ((NativePath.startsWith_iff clear).mp below).length_le

theorem entry_same_iff (ent other : FileSystemSandboxEntry NativePath) :
    ent.same posixOps other = true ↔ ent = other := by
  obtain ⟨path, access, behavior⟩ := ent
  obtain ⟨path2, otherAccess, otherBehavior⟩ := other
  cases path <;> cases path2 <;>
    simp [FileSystemSandboxEntry.same, FileSystemPath.same, posixOps, and_assoc]

structure Host where
  tmpdir : Option NativePath
  /-- There is a directory `/tmp`. -/
  slashTmpIsDir : Bool
  resolveAgainstBase : Text → NativePath → NativePath
  resolvePattern : Text → NativePath → Text
  globMatcher : Text → Option (NativePath → Bool)

def resolveNativePath (host : Host) (cwd : NativePath) :
    FileSystemPath NativePath → Option NativePath
  | .path path => some path
  | .globPattern _ => none
  | .special .root => some []
  | .special (.projectRoots subpath) =>
    some (match subpath with
      | some subpath => host.resolveAgainstBase subpath cwd
      | none => cwd)
  | .special .tmpdir => host.tmpdir
  | .special .slashTmp => if host.slashTmpIsDir then some ["tmp"] else none
  | .special .minimal | .special (.unknown _ _) => none

def resolveEntryPath (host : Host) (cwd : NativePath) (path : FileSystemPath NativePath) :
    Option NativePath :=
  resolveNativePath host cwd path

def localPolicyContext (host : Host) (cwd : NativePath) :
    FileSystemSandboxPolicyContext NativePath where
  cwd := cwd
  workspaceRoots := [cwd]
  temporaryDirectories := some host.tmpdir.toList

def dedupAbsolutePaths (paths : List NativePath) : List NativePath :=
  Distinct.extend (fun path other => decide (path = other)) [] paths

def specialPathsShareTarget : FileSystemSpecialPath → FileSystemSpecialPath → Bool
  | .root, .root => true
  | .minimal, .minimal => true
  | .tmpdir, .tmpdir => true
  | .slashTmp, .slashTmp => true
  | .projectRoots left, .projectRoots right => left = right
  | .unknown left leftSubpath, .unknown right rightSubpath =>
    left = right && leftSubpath = rightSubpath
  | _, _ => false

def specialPathMatchesAbsolutePath (value : FileSystemSpecialPath) (path : NativePath) : Bool :=
  match value with
  | .root => path = []
  | .slashTmp => path = ["tmp".toList]
  | _ => false

def fileSystemPathsShareTarget : FileSystemPath NativePath → FileSystemPath NativePath → Bool
  | .path left, .path right => left = right
  | .special left, .special right => specialPathsShareTarget left right
  | .path path, .special value => specialPathMatchesAbsolutePath value path
  | .special value, .path path => specialPathMatchesAbsolutePath value path
  | .globPattern left, .globPattern right => left = right
  | .globPattern _, _ => false
  | _, .globPattern _ => false

/-- What an entry's path is on disk; `/tmp` counts on Unix only. -/
structure DiskTargets (P : Type) where
  unix : Bool
  shareTarget : FileSystemPath P → FileSystemPath P → Bool

def posixTargets : DiskTargets NativePath := ⟨true, fileSystemPathsShareTarget⟩

namespace FileSystemSandboxPolicy

section

variable {P : Type} [DecidableEq P] (ends : DiskTargets P) (pol : FileSystemSandboxPolicy P)

def hasRootAccess (predicate : FileSystemAccessMode → Bool) : Bool :=
  pol.kind = .restricted && pol.entries.any fun entry =>
    entry.path = .special .root && predicate entry.access

def hasDeniedReadRestrictions : Bool :=
  pol.kind = .restricted && pol.entries.any fun entry =>
    entry.access = .deny && !(entry.path = .special .slashTmp && !ends.unix)

def hasFullDiskReadAccess : Bool :=
  match pol.kind with
  | .unrestricted | .externalSandbox => true
  | .restricted => pol.hasRootAccess FileSystemAccessMode.canRead &&
      !pol.hasDeniedReadRestrictions ends

variable (entry : FileSystemSandboxEntry P)

def hasSameTargetWriteOverride : Bool :=
  pol.entries.any fun cand => cand.access.canWrite &&
    decide (entry.access < cand.access) && ends.shareTarget cand.path entry.path

def narrowsWrite : Bool :=
  !entry.access.canWrite && match entry.path with
    | .path _ => !pol.hasSameTargetWriteOverride ends entry
    | .globPattern _ => true
    | .special .root => entry.access = .deny
    | .special .slashTmp => ends.unix && !pol.hasSameTargetWriteOverride ends entry
    | .special .minimal => false
    | .special (.unknown _ _) => false
    | .special _ => !pol.hasSameTargetWriteOverride ends entry

def hasWriteNarrowingEntries : Bool :=
  pol.kind = .restricted && pol.entries.any (pol.narrowsWrite ends)

def hasFullDiskWriteAccess : Bool :=
  match pol.kind with
  | .unrestricted | .externalSandbox => true
  | .restricted => pol.hasRootAccess FileSystemAccessMode.canWrite &&
      !pol.hasWriteNarrowingEntries ends

end

variable (host : Host) (pol : FileSystemSandboxPolicy NativePath)

def resolveAccessWithCwd (path cwd : NativePath) : FileSystemAccessMode :=
  pol.resolveAccess posixOps (localPolicyContext host cwd) path

def canReadPathWithCwd (path cwd : NativePath) : Bool :=
  (pol.resolveAccessWithCwd host path cwd).canRead

def resolvedEntriesWithCwd (cwd : NativePath) : List (NativePath × FileSystemAccessMode) :=
  pol.entries.filterMap fun entry =>
    (resolveEntryPath host cwd entry.path).map (·, entry.access)

def getUnreadableRootsWithCwd (cwd : NativePath) : List NativePath :=
  if pol.kind ≠ .restricted then []
  else dedupAbsolutePaths (((pol.resolvedEntriesWithCwd host cwd).filter fun entry =>
    entry.2 = .deny && !pol.canReadPathWithCwd host entry.1 cwd && entry.1 ≠ []).map Prod.fst)

def getUnreadableGlobsWithCwd (cwd : NativePath) : List Text :=
  if pol.kind ≠ .restricted then []
  else pol.entries.filterMap fun entry =>
    match entry.path with
    | .globPattern pattern =>
      if entry.access = .deny then some (host.resolvePattern pattern cwd) else none
    | _ => none

end FileSystemSandboxPolicy

structure ReadDenyMatcher where
  deniedRoots : List NativePath
  denyReadMatchers : List (NativePath → Bool)
  invalidPattern : Bool

namespace ReadDenyMatcher

def new (host : Host) (pol : FileSystemSandboxPolicy NativePath) (cwd : NativePath) :
    Option ReadDenyMatcher :=
  if pol.hasDeniedReadRestrictions posixTargets then
    let matchers := (pol.getUnreadableGlobsWithCwd host cwd).map host.globMatcher
    some {
      deniedRoots := pol.getUnreadableRootsWithCwd host cwd
      denyReadMatchers := matchers.filterMap id
      invalidPattern := matchers.any Option.isNone }
  else none

def isReadDenied (matcher : ReadDenyMatcher) (path : NativePath) : Bool :=
  matcher.invalidPattern || matcher.deniedRoots.any (fun root => root.isPrefixOf path) ||
    matcher.denyReadMatchers.any fun isMatch => isMatch path

end ReadDenyMatcher

def FileSystemPath.isConcrete : FileSystemPath NativePath → Bool
  | .path _ => true
  | .special .root => true
  | _ => false

def Concrete (entries : List (FileSystemSandboxEntry NativePath)) : Prop :=
  ∀ entry ∈ entries, entry.path.isConcrete = true

def FileSystemPath.target : FileSystemPath NativePath → NativePath
  | .path named => named
  | _ => []

def targets (entries : List (FileSystemSandboxEntry NativePath)) :
    List (NativePath × FileSystemAccessMode) :=
  entries.map fun entry => (entry.path.target, entry.access)

section

variable {host : Host} {entries : List (FileSystemSandboxEntry NativePath)}
  {cwd path : NativePath}

theorem resolveNativePath_of_concrete {entryPath : FileSystemPath NativePath}
    (real : entryPath.isConcrete = true) :
    resolveNativePath host cwd entryPath = some entryPath.target := by
  cases entryPath with
  | path named => rfl
  | globPattern pat => cases real
  | special val => cases val <;> first | rfl | cases real

theorem resolveAccessWithCwd_of_opaquePath {pol : FileSystemSandboxPolicy NativePath}
    (restr : pol.kind = .restricted) (hidden : cwd.isOpaque = true ∨ path.isOpaque = true) :
    pol.resolveAccessWithCwd host path cwd = .deny := by
  apply resolveAccess_of_not_evaluable restr
  rintro ⟨-, -, deep, cwdDeep, -⟩
  rcases hidden with hidden | hidden
  · exact cwdDeep (by simp [posixOps, localPolicyContext, NativePath.lexicalDepth, hidden])
  · exact deep (by simp [posixOps, NativePath.lexicalDepth, hidden])

theorem valueAt_of_denied {named : List (NativePath × FileSystemAccessMode)} {denied : NativePath}
    (mem : (denied, .deny) ∈ named) : valueAt .deny named denied = .deny := by
  rcases valueAt_cases .deny named denied with ⟨-, silent⟩ | ⟨root, access, dec, val⟩
  · exact silent
  rw [val]
  rcases dec.2.2 denied .deny mem (prefix_refl denied) with deeper | ⟨-, stronger⟩
  · exact absurd dec.2.1.length_le (Nat.not_le.mpr deeper)
  cases access with
  | deny => rfl
  | read | write => exact absurd stronger (by decide)

variable (real : Concrete entries)
include real

theorem resolvedEntriesWithCwd_of_concrete :
    (restricted entries).resolvedEntriesWithCwd host cwd = targets entries := by
  rw [resolvedEntriesWithCwd, targets, ← filterMap_eq_map]
  refine filterMap_congr fun ent mem => ?_
  rw [resolveEntryPath, resolveNativePath_of_concrete (real ent mem)]
  rfl

theorem resolvedEntries_of_concrete (clear : cwd.isOpaque = false) :
    (restricted entries).resolvedEntries posixOps
      (localPolicyContext host cwd) = targets entries := by
  have named : ∀ ent ∈ entries, resolvedEntry posixOps
      (localPolicyContext host cwd) ent = [(ent.path.target, ent.access)] := by
    rintro ⟨entryPath, access, behavior⟩ mem
    cases entryPath with
    | path named => rfl
    | globPattern pat => cases real _ mem
    | special val =>
      cases val with
      | root =>
        simp [resolvedEntry, entryPaths,
          posixOps, localPolicyContext, NativePath.lexicalDepth, clear,
          FileSystemPath.target]
      | minimal | projectRoots | tmpdir | slashTmp | unknown => cases real _ mem
  rw [resolvedEntries, targets, ← flatMap_pure_eq_map]
  exact flatMap_congr fun ent mem => named ent mem

theorem resolveAccessWithCwd_of_concrete (cwdClear : cwd.isOpaque = false)
    (clear : path.isOpaque = false) :
    (restricted entries).resolveAccessWithCwd host path cwd =
      valueAt .deny (targets entries) path := by
  have named := @resolvedEntries_of_concrete host entries cwd real cwdClear
  have usable : usable posixOps (targets entries) = true := by
    refine List.all_eq_true.mpr fun ent _ => ?_
    cases hidden : ent.1.isOpaque <;> simp [posixOps, NativePath.lexicalDepth, hidden]
  have evals : FileSystemSandboxPolicy.Evaluable posixOps (localPolicyContext host cwd) path
      ((restricted entries).resolvedEntries posixOps
        (localPolicyContext host cwd)) := by
    refine ⟨nofun, rfl, ?_, ?_, by rw [named, usable]⟩
    · simp [posixOps, NativePath.lexicalDepth, clear]
    · simp [posixOps, localPolicyContext, NativePath.lexicalDepth, cwdClear]
  rw [resolveAccessWithCwd, resolveAccess_of_evaluable rfl evals, named, valueAt]
  congr 1
  refine filterMap_congr fun ent _ => ?_
  by_cases above : ent.1 <+: path
  · have below := (NativePath.startsWith_iff clear).mpr above
    have deep := NativePath.lexicalDepth_of_clear (NativePath.clear_of_above clear above)
    simp [posixOps, below, deep, above]
  have apart : path.startsWith ent.1 = false :=
    Bool.eq_false_iff.mpr fun below => above ((NativePath.startsWith_iff clear).mp below)
  simp [posixOps, apart, above]

theorem canRead_of_denied {denied : NativePath} (mem : (denied, .deny) ∈ targets entries) :
    (restricted entries).canReadPathWithCwd host denied cwd = false := by
  have denies : (restricted entries).resolveAccessWithCwd host denied cwd = .deny := by
    by_cases hidden : cwd.isOpaque = true ∨ denied.isOpaque = true
    · exact resolveAccessWithCwd_of_opaquePath rfl hidden
    simp only [not_or, Bool.not_eq_true] at hidden
    rw [resolveAccessWithCwd_of_concrete real hidden.1 hidden.2, valueAt_of_denied mem]
  rw [canReadPathWithCwd, denies]
  rfl

theorem mem_getUnreadableRootsWithCwd {denied : NativePath} :
    denied ∈ (restricted entries).getUnreadableRootsWithCwd host cwd ↔
      (denied, .deny) ∈ targets entries ∧ denied ≠ [] := by
  have free : ¬ (restricted entries).kind ≠ .restricted := not_not.mpr rfl
  rw [getUnreadableRootsWithCwd, if_neg free, dedupAbsolutePaths,
    Distinct.mem_extend_iff (fun _ _ => decide_eq_true_iff), resolvedEntriesWithCwd_of_concrete
    real]
  simp only [not_mem_nil, false_or, mem_map, mem_filter, Bool.and_eq_true,
    decide_eq_true_eq, Bool.not_eq_eq_eq_not, Bool.not_true, Prod.exists]
  constructor
  · rintro ⟨named, access, ⟨mem, ⟨rfl, -⟩, proper⟩, rfl⟩
    exact ⟨mem, proper⟩
  rintro ⟨mem, proper⟩
  exact ⟨denied, .deny, ⟨mem, ⟨rfl, canRead_of_denied real mem⟩, proper⟩, rfl⟩

theorem isReadDenied_iff :
    (ReadDenyMatcher.new host (restricted entries) cwd).any (·.isReadDenied path) = true ↔
      ∃ denied, (denied, .deny) ∈ targets entries ∧ denied ≠ [] ∧ denied <+: path := by
  have free : ¬ (restricted entries).kind ≠ .restricted := not_not.mpr rfl
  have globs : (restricted entries).getUnreadableGlobsWithCwd host cwd = [] := by
    rw [getUnreadableGlobsWithCwd, if_neg free]
    refine filterMap_eq_nil_iff.mpr fun ent mem => ?_
    have named := real ent mem
    cases path : ent.path with
    | globPattern pat =>
      rw [path] at named
      cases named
    | path | special => rfl
  rw [ReadDenyMatcher.new, globs]
  split_ifs with restrictions
  · simp only [Option.any_some, ReadDenyMatcher.isReadDenied, map_nil, any_nil,
      Bool.false_or, filterMap_nil, Bool.or_false, any_eq_true,
      mem_getUnreadableRootsWithCwd real, isPrefixOf_iff_prefix]
    exact ⟨fun ⟨denied, ⟨mem, proper⟩, above⟩ => ⟨denied, mem, proper, above⟩,
      fun ⟨denied, mem, proper, above⟩ => ⟨denied, ⟨mem, proper⟩, above⟩⟩
  refine iff_of_false (by simp) ?_
  rintro ⟨denied, mem, -, -⟩
  obtain ⟨ent, here, eq⟩ := List.mem_map.mp mem
  refine restrictions ?_
  rw [hasDeniedReadRestrictions, Bool.and_eq_true]
  refine ⟨rfl, List.any_eq_true.mpr ⟨ent, here, ?_⟩⟩
  simp [(Prod.mk.inj eq).2, posixTargets]

end

def plainHost : Host where
  tmpdir := none
  slashTmpIsDir := true
  resolveAgainstBase text base :=
    NativePath.resolveText (if text.head? = some '/' then [] else base) text
  resolvePattern pattern base :=
    if pattern.head? = some '/' then pattern
    else '/' :: ['/'].intercalate (base ++ pattern.splitOn '/')
  globMatcher pattern := some fun path => Glob.isMatch (fun part other => part = other)
    ((NativePath.resolveText [] pattern).map fun part =>
      Glob.Token.one (if part = ['*'] then none else some part)) path

def pathEntry (path : NativePath) (access : FileSystemAccessMode) :
    FileSystemSandboxEntry NativePath where
  path := .path path
  access := access

namespace FileSystemSandboxPolicy

def protectedMetadataPathNames : List Text := [".git", ".agents", ".codex"]

section

variable {P : Type} (ops : PathOps P)

def metadataAt (path root : P) : Option (P × Text) :=
  protectedMetadataPathNames.findSome? fun name =>
    (ops.joinDescendant root name).bind fun guarded =>
      if ops.startsWith path guarded then some (guarded, name) else none

def metadataWriteDenial (pol : FileSystemSandboxPolicy P)
    (ctx : FileSystemSandboxPolicyContext P) (path : P) : Option Text :=
  if pol.kind ≠ .restricted then none
  else
    let entries := pol.resolvedEntries ops ctx
    match (entries.filter fun entry => entry.2.canWrite).findSome? fun entry =>
        metadataAt ops path entry.1 with
    | none => none
    | some (guarded, name) =>
      if entries.any fun entry => entry.2.canWrite && ops.startsWith path entry.1 &&
          ops.startsWith entry.1 guarded then none
      else some name

end

def canWritePathWithCwd (host : Host) (pol : FileSystemSandboxPolicy NativePath)
    (path cwd : NativePath) : Bool :=
  (pol.resolveAccessWithCwd host path cwd).canWrite &&
    (pol.hasFullDiskWriteAccess posixTargets ||
      (pol.metadataWriteDenial posixOps (localPolicyContext host cwd) path).isNone)

end FileSystemSandboxPolicy

structure FileTree where
  isDir : NativePath → Bool
  isFile : NativePath → Bool
  resolveGitdirFromFile : NativePath → Option NativePath
  normalizeEffective : NativePath → NativePath

/-- A tree without links and without pointers to a git directory. -/
structure FileTree.Plain (tree : FileTree) : Prop where
  normalizeEffective_eq : ∀ path, tree.normalizeEffective path = path
  resolveGitdir_eq : ∀ path, tree.resolveGitdirFromFile path = none

structure WritableRoot where
  root : NativePath
  readOnlySubpaths : List NativePath
  protectedMetadataNames : List Text

def NativePath.strip (base path : NativePath) : Option NativePath :=
  if base.isPrefixOf path then some (path.drop base.length) else none

namespace WritableRoot

def pathContainsProtectedMetadataName (writable : WritableRoot) (path : NativePath) : Bool :=
  match NativePath.strip writable.root path with
  | some (part :: _) => writable.protectedMetadataNames.any fun name => part = name
  | _ => false

def isPathWritable (writable : WritableRoot) (path : NativePath) : Bool :=
  writable.root.isPrefixOf path &&
    !writable.readOnlySubpaths.any (fun subpath => subpath.isPrefixOf path) &&
    !writable.pathContainsProtectedMetadataName path

theorem pathContainsProtectedMetadataName_iff {writable : WritableRoot} {path : NativePath} :
    writable.pathContainsProtectedMetadataName path = true ↔
      ∃ name ∈ writable.protectedMetadataNames, writable.root ++ [name] <+: path := by
  rw [pathContainsProtectedMetadataName, NativePath.strip]
  split_ifs with above
  · obtain ⟨tl, rfl⟩ := isPrefixOf_iff_prefix.mp above
    rw [drop_left]
    cases tl with
    | nil =>
      refine iff_of_false (by simp) ?_
      rintro ⟨name, -, below⟩
      have longer := below.length_le
      simp only [length_append, length_cons, length_nil] at longer
      omega
    | cons part tl =>
      rw [any_eq_true]
      simp [prefix_append_right_inj, @eq_comm _ part]
  refine iff_of_false (by simp) ?_
  rintro ⟨name, -, below⟩
  exact above (List.isPrefixOf_iff_prefix.mpr ((prefix_append _ [name]).trans below))

theorem isPathWritable_iff {writable : WritableRoot} {path : NativePath} :
    writable.isPathWritable path = true ↔
      writable.root <+: path ∧ (∀ subpath ∈ writable.readOnlySubpaths, ¬ subpath <+: path) ∧
        ∀ name ∈ writable.protectedMetadataNames, ¬ writable.root ++ [name] <+: path := by
  have named := @pathContainsProtectedMetadataName_iff writable path
  rw [isPathWritable, Bool.and_eq_true, Bool.and_eq_true, isPrefixOf_iff_prefix,
    Bool.not_eq_true', Bool.not_eq_true', Bool.eq_false_iff, Bool.eq_false_iff, ne_eq, ne_eq, named]
  simp [and_assoc]

end WritableRoot

def defaultReadOnlySubpathsForWritableRoot (tree : FileTree) (writableRoot : NativePath)
    (protectMissingDotCodex : Bool) : List NativePath :=
  let topLevelGit := writableRoot ++ [".git".toList]
  let topLevelAgents := writableRoot ++ [".agents".toList]
  let topLevelCodex := writableRoot ++ [".codex".toList]
  let gitdir := if tree.isFile topLevelGit then tree.resolveGitdirFromFile topLevelGit else none
  dedupAbsolutePaths
    ((if tree.isDir topLevelGit || tree.isFile topLevelGit then gitdir.toList ++ [topLevelGit]
      else []) ++
    (if tree.isDir topLevelAgents then [topLevelAgents] else []) ++
    if protectMissingDotCodex || tree.isDir topLevelCodex then [topLevelCodex] else [])

def hasExplicitResolvedPathEntry (entries : List (NativePath × FileSystemAccessMode))
    (path : NativePath) : Bool :=
  entries.any fun entry => entry.1 = path

namespace FileSystemSandboxPolicy

variable (host : Host) (pol : FileSystemSandboxPolicy NativePath)

def protectedMetadataNamesForWritableRoot (root : NativePath) (rawWritableRoots : List NativePath)
    (cwd : NativePath) : List Text :=
  protectedMetadataPathNames.filter fun name =>
    ((root ++ [name]) :: rawWritableRoots.map (· ++ [name])).all fun path =>
      !pol.canWritePathWithCwd host path cwd

end FileSystemSandboxPolicy

def rawCarveoutPath (root : NativePath) (rawWritableRoots : List NativePath)
    (path : NativePath) : Option NativePath :=
  if root = [] then none
  else if path = root then none
  else if root.isPrefixOf path then some path
  else rawWritableRoots.findSome? fun rawRoot =>
    match NativePath.strip rawRoot path with
    | some (part :: suffix) => some (root ++ part :: suffix)
    | _ => none

def carveoutPath (resolve : NativePath → NativePath) (root : NativePath)
    (rawWritableRoots : List NativePath) (path : NativePath) : Option NativePath :=
  match rawCarveoutPath root rawWritableRoots path with
  | some carveout => some carveout
  | none => if resolve path = root || !root.isPrefixOf (resolve path) then none
      else some (resolve path)

theorem carveoutPath_of_plain {resolve : NativePath → NativePath}
    (plain : ∀ path, resolve path = path) {root path : NativePath}
    {roots : List NativePath} (raw : ∀ rawRoot ∈ roots, rawRoot = root) :
    carveoutPath resolve root roots path =
      if root <+: path ∧ path ≠ root then some path else none := by
  by_cases below : root <+: path ∧ path ≠ root
  · obtain ⟨above, proper⟩ := below
    have literal : rawCarveoutPath root roots path = none ∨
        rawCarveoutPath root roots path = some path := by
      rw [rawCarveoutPath, if_neg proper, if_pos (List.isPrefixOf_iff_prefix.mpr above)]
      exact (em (root = [])).imp (fun top => if_pos top) (fun top => if_neg top)
    rcases literal with none | some
    · simp [carveoutPath, none, plain, above, proper]
    · simp [carveoutPath, some, above, proper]
  have out : rawCarveoutPath root roots path = none := by
    rw [rawCarveoutPath]
    split_ifs with top eq above
    · rfl
    · rfl
    · exact absurd ⟨List.isPrefixOf_iff_prefix.mp above, eq⟩ below
    refine findSome?_eq_none_iff.mpr fun rawRoot mem => ?_
    rw [raw rawRoot mem, NativePath.strip, if_neg above]
  rw [if_neg below, carveoutPath, out]
  simp only [plain, Bool.or_eq_true, decide_eq_true_eq, Bool.not_eq_true',
    ite_eq_left_iff, not_or, Bool.not_eq_false, isPrefixOf_iff_prefix]
  exact fun ins => absurd ⟨ins.2, ins.1⟩ below

namespace FileSystemSandboxPolicy

variable (host : Host) (tree : FileTree) (pol : FileSystemSandboxPolicy NativePath)

def writableEntries (cwd : NativePath) : List NativePath :=
  ((pol.resolvedEntriesWithCwd host cwd).filter fun entry =>
    entry.2.canWrite && pol.canWritePathWithCwd host entry.1 cwd).map Prod.fst

variable (resolve : NativePath → NativePath)

def writableRootAt (cwd root : NativePath) : WritableRoot :=
  let resolvedEntries := pol.resolvedEntriesWithCwd host cwd
  let rawWritableRoots := (pol.writableEntries host cwd).filter fun path => resolve path = root
  { root := root
    protectedMetadataNames :=
      pol.protectedMetadataNamesForWritableRoot host root rawWritableRoots cwd
    readOnlySubpaths := dedupAbsolutePaths
      (((defaultReadOnlySubpathsForWritableRoot tree root (resolve cwd = root)).filter fun path =>
        !hasExplicitResolvedPathEntry resolvedEntries path) ++
      (resolvedEntries.filter fun entry => !entry.2.canWrite &&
        !pol.canWritePathWithCwd host entry.1 cwd).filterMap fun entry =>
          carveoutPath resolve root rawWritableRoots entry.1) }

def getWritableRootsWithCwdImpl (cwd : NativePath) : List WritableRoot :=
  if pol.hasFullDiskWriteAccess posixTargets then []
  else (dedupAbsolutePaths ((pol.writableEntries host cwd).map resolve)).map
    (pol.writableRootAt host tree resolve cwd)

def getWritableRootsWithCwd (cwd : NativePath) : List WritableRoot :=
  pol.getWritableRootsWithCwdImpl host tree tree.normalizeEffective cwd

open Option

section

variable {P : Type} [DecidableEq P] (ends : DiskTargets P) (pol : FileSystemSandboxPolicy P)

def canWritePath (ops : PathOps P) (ctx : FileSystemSandboxPolicyContext P) (path : P) : Bool :=
  (pol.resolveAccess ops ctx path).canWrite &&
    (pol.hasFullDiskWriteAccess ends || (pol.metadataWriteDenial ops ctx path).isNone)

end

section

variable {P : Type} (ops : PathOps P) (ctx : FileSystemSandboxPolicyContext P) (path : P)

def guardedBy (entry : FileSystemSandboxEntry P) : Option (P × Text) :=
  ((resolvedEntry ops ctx entry).filter fun root => root.2.canWrite).findSome? fun root =>
    metadataAt ops path root.1

variable (entries : List (FileSystemSandboxEntry P))

def reopened (guarded : P) : Bool :=
  (entries.flatMap (resolvedEntry ops ctx)).any fun root => root.2.canWrite &&
    ops.startsWith path root.1 && ops.startsWith root.1 guarded

/-- Either all guards of the path are reopened or none is. -/
def MetadataAgrees : Prop :=
  ∀ entry ∈ entries, ∀ other ∈ entries, ∀ found found', guardedBy ops ctx path entry = some found →
    guardedBy ops ctx path other = some found' →
    reopened ops ctx path entries found.1 = reopened ops ctx path entries found'.1

variable {ops ctx path}

variable (depth : Option Nat)

theorem isSome_metadataWriteDenial (entries : List (FileSystemSandboxEntry P)) :
    (metadataWriteDenial ops ⟨.restricted, depth, entries⟩ ctx path).isSome = true ↔
      ∃ hit, entries.findSome? (guardedBy ops ctx path) = some hit ∧
        reopened ops ctx path entries hit.1 = false := by
  have fst : ((entries.flatMap (resolvedEntry ops ctx)).filter
      fun root => root.2.canWrite).findSome? (fun root => metadataAt ops path root.1) =
      entries.findSome? (guardedBy ops ctx path) := by
    rw [filter_flatMap, findSome?_flatMap]
    rfl
  rw [metadataWriteDenial, if_neg (not_not.mpr rfl), resolvedEntries]
  dsimp only
  rw [fst]
  cases entries.findSome? (guardedBy ops ctx path) with
  | none => simp
  | some hit =>
    obtain ⟨guarded, name⟩ := hit
    dsimp only
    split_ifs with opened <;> simpa [reopened, and_assoc] using opened

variable {entries rest : List (FileSystemSandboxEntry P)}

theorem reopened_of_perm (perm : rest.Perm entries) (guarded : P) :
    reopened ops ctx path rest guarded = reopened ops ctx path entries guarded :=
  (perm.flatMap_right _).any_eq

/-- The entries with the path in their metadata agree on whether it is open. -/
theorem metadataWriteDenial_perm_iff (entries : List (FileSystemSandboxEntry P)) :
    (∀ rest, rest.Perm entries →
      (metadataWriteDenial ops ⟨.restricted, depth, rest⟩ ctx path).isSome =
        (metadataWriteDenial ops ⟨.restricted, depth, entries⟩ ctx path).isSome) ↔
    MetadataAgrees ops ctx path entries := by
  constructor
  · intro eq
    -- an entry that is moved to the front decides
    have dec : ∀ ent ∈ entries, ∀ found, guardedBy ops ctx path ent = some found →
        ((metadataWriteDenial ops ⟨.restricted, depth, entries⟩ ctx path).isSome = true ↔
          reopened ops ctx path entries found.1 = false) := by
      intro ent mem found guarded
      obtain ⟨pre, after, rfl⟩ := append_of_mem mem
      have front : (ent :: (pre ++ after)).Perm (pre ++ ent :: after) :=
        perm_middle.symm
      have fst : (ent :: (pre ++ after)).findSome? (guardedBy ops ctx path) =
        some found := by rw [findSome?_cons, guarded]
      rw [← eq _ front, isSome_metadataWriteDenial, ← reopened_of_perm front found.1]
      constructor
      · rintro ⟨y, here, closed⟩
        exact Option.some.inj (here.symm.trans fst) ▸ closed
      · exact fun closed => ⟨found, fst, closed⟩
    intro ent mem y mem' found found' guarded guarded'
    have agree := (dec ent mem found guarded).symm.trans
      (dec y mem' found' guarded')
    rw [Bool.eq_iff_iff, ← not_iff_not, Bool.not_eq_true, Bool.not_eq_true]
    exact agree
  intro agree rest perm
  have one : ∀ {left right : List (FileSystemSandboxEntry P)}, left.Perm right →
      left.Perm entries → right.Perm entries →
      (metadataWriteDenial ops ⟨.restricted, depth, left⟩ ctx path).isSome = true →
      (metadataWriteDenial ops ⟨.restricted, depth, right⟩ ctx path).isSome = true := by
    intro left right across toLeft toRight denied
    obtain ⟨found, fst, closed⟩ := (isSome_metadataWriteDenial depth left).mp denied
    obtain ⟨ent, mem, guarded⟩ := exists_of_findSome?_eq_some fst
    have also : (right.findSome? (guardedBy ops ctx path)).isSome = true :=
      findSome?_isSome_iff.mpr ⟨ent, across.subset mem, by simp [guarded]⟩
    obtain ⟨found', fst'⟩ := isSome_iff_exists.mp also
    obtain ⟨y, mem', guarded'⟩ := exists_of_findSome?_eq_some fst'
    refine (isSome_metadataWriteDenial depth right).mpr ⟨found', fst', ?_⟩
    rw [reopened_of_perm toLeft] at closed
    rw [reopened_of_perm toRight, ← closed]
    exact agree y (toRight.subset mem') ent (toLeft.subset mem) found' found
      guarded' guarded
  exact Bool.eq_iff_iff.mpr ⟨one perm perm (.refl _), one perm.symm (.refl _) perm⟩

theorem verdict_congr {rules rest : List (Rule FileSystemAccessMode)}
    (eq : ∀ rule, rule ∈ rest ↔ rule ∈ rules) (fallback : FileSystemAccessMode) :
    verdict fallback rest = verdict fallback rules := by
  rcases verdict_cases fallback rules with ⟨rfl, -⟩ | ⟨rule, dec, val⟩
  · have none : rest = [] :=
      eq_nil_iff_forall_not_mem.mpr fun rule mem => by simpa using (eq rule).mp mem
    rw [none]
  have still : Decides rest rule :=
    dec.of_subset (fun y => (eq y).mp) ((eq rule).mpr dec.1)
  rw [still.verdict_eq, val]

theorem resolveAccess_perm (perm : rest.Perm entries) :
    resolveAccess ops ⟨.restricted, depth, rest⟩ ctx path =
      resolveAccess ops ⟨.restricted, depth, entries⟩ ctx path := by
  have got : (resolvedEntries ops ⟨.restricted, depth, rest⟩ ctx).Perm
    (resolvedEntries ops ⟨.restricted, depth, entries⟩ ctx) := perm.flatMap_right _
  have verdicts := @verdict_congr (applicable ops path (resolvedEntries ops
    ⟨.restricted, depth, entries⟩ ctx)) (applicable ops path (resolvedEntries ops
    ⟨.restricted, depth, rest⟩ ctx)) (fun _ => (got.filterMap _).mem_iff) .deny
  have use : usable ops (resolvedEntries ops ⟨.restricted, depth, rest⟩ ctx) =
    usable ops (resolvedEntries ops ⟨.restricted, depth, entries⟩ ctx) := got.all_eq
  cases conv : ops.inferPathConvention ctx.cwd <;>
    simp [resolveAccess, conv, use, verdicts]

section

variable [DecidableEq P] (ends : DiskTargets P)

theorem hasRootAccess_perm (depth : Option Nat) (perm : rest.Perm entries)
    (predicate : FileSystemAccessMode → Bool) :
    hasRootAccess ⟨.restricted, depth, rest⟩ predicate =
      hasRootAccess ⟨.restricted, depth, entries⟩ predicate :=
  congrArg _ perm.any_eq

theorem fullDiskAccess_perm (depth : Option Nat) (perm : rest.Perm entries) :
    hasFullDiskReadAccess ends ⟨.restricted, depth, rest⟩ =
      hasFullDiskReadAccess ends ⟨.restricted, depth, entries⟩ ∧
    hasFullDiskWriteAccess ends ⟨.restricted, depth, rest⟩ =
      hasFullDiskWriteAccess ends ⟨.restricted, depth, entries⟩ := by
  have narrows : narrowsWrite ends ⟨.restricted, depth, rest⟩ =
      narrowsWrite ends ⟨.restricted, depth, entries⟩ := by
    funext ent
    simp only [narrowsWrite, hasSameTargetWriteOverride, perm.any_eq]
  constructor
  · simp only [hasFullDiskReadAccess, hasRootAccess_perm depth perm, hasDeniedReadRestrictions,
      perm.any_eq]
  · simp only [hasFullDiskWriteAccess, hasRootAccess_perm depth perm, hasWriteNarrowingEntries,
      narrows, perm.any_eq]

/-- All orders agree exactly when the entries with the path in their metadata do. -/
theorem restricted_perm_iff (depth : Option Nat) (entries : List (FileSystemSandboxEntry P)) :
    (∀ rest, rest.Perm entries → resolveAccess ops ⟨.restricted, depth, rest⟩ ctx path =
        resolveAccess ops ⟨.restricted, depth, entries⟩ ctx path ∧
      canWritePath ends ⟨.restricted, depth, rest⟩ ops ctx path =
        canWritePath ends ⟨.restricted, depth, entries⟩ ops ctx path ∧
      (metadataWriteDenial ops ⟨.restricted, depth, rest⟩ ctx path).isSome =
        (metadataWriteDenial ops ⟨.restricted, depth, entries⟩ ctx path).isSome ∧
      hasFullDiskReadAccess ends ⟨.restricted, depth, rest⟩ =
        hasFullDiskReadAccess ends ⟨.restricted, depth, entries⟩ ∧
      hasFullDiskWriteAccess ends ⟨.restricted, depth, rest⟩ =
        hasFullDiskWriteAccess ends ⟨.restricted, depth, entries⟩) ↔
    MetadataAgrees ops ctx path entries := by
  rw [← metadataWriteDenial_perm_iff depth]
  refine forall₂_congr fun rest perm => ⟨fun all => all.2.2.1, fun denial => ?_⟩
  have access := @resolveAccess_perm P ops ctx path depth entries rest perm
  obtain ⟨read, write⟩ := fullDiskAccess_perm ends depth perm
  refine ⟨access, ?_, denial, read, write⟩
  rw [canWritePath, canWritePath, access, write, ← not_isSome, ← not_isSome, denial]

end

end

/-- The metadata of a root inside of reopened metadata is protected only if that root comes
first. -/
theorem metadataWriteDenial_depends_on_order :
    let outer := pathEntry ["a".toList] .write
    let inner := pathEntry ["a".toList, ".git".toList, "b".toList] .write
    let path := ["a".toList, ".git".toList, "b".toList, ".git".toList]
    let denial := fun entries => metadataWriteDenial posixOps (.restricted entries)
      (localPolicyContext plainHost []) path
    denial [outer, inner] = none ∧ denial [inner, outer] = some ".git".toList := by
  decide +kernel

end FileSystemSandboxPolicy

end Codex.Permissions
