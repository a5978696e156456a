import Codex.Foundation.Specificity
import Codex.UriPath.Join
import Codex.Foundation.Distinct

/-!
# File system policies

Each entry gives access to a path and all below it.
-/

namespace Codex.Permissions

open Specificity UriPath

inductive FileSystemAccessMode
  | read
  | write
  | deny
  deriving DecidableEq

namespace FileSystemAccessMode

def rank : FileSystemAccessMode → Nat
  | read => 0
  | write => 1
  | deny => 2

theorem rank_injective : Function.Injective rank := by
  intro first snd same
  cases first <;> cases snd <;> first | rfl | cases same

instance : LinearOrder FileSystemAccessMode := LinearOrder.lift' rank rank_injective

variable (access : FileSystemAccessMode)

def canRead : Bool := access ≠ deny

def canWrite : Bool := access = write

def AtMost (access other : FileSystemAccessMode) : Prop :=
  (access.canRead → other.canRead) ∧ (access.canWrite → other.canWrite)

instance (access other : FileSystemAccessMode) : Decidable (access.AtMost other) :=
  inferInstanceAs (Decidable (_ ∧ _))

theorem AtMost.refl : access.AtMost access := ⟨id, id⟩

theorem deny_atMost : deny.AtMost access := by
  cases access <;> decide

theorem atMost_write : access.AtMost write := by
  cases access <;> decide

theorem AtMost.of_le {access other : FileSystemAccessMode} (weaker : access ≤ other)
    (allowed : other ≠ deny) : access.AtMost other := by
  cases other with
  | deny => exact absurd rfl allowed
  | write => exact atMost_write access
  | read =>
    obtain rfl : access = read := by
      cases access with
      | read => rfl
      | write | deny => exact absurd weaker (by decide)
    exact .refl read

end FileSystemAccessMode

inductive FileSystemSpecialPath
  | root
  | minimal
  | projectRoots (subpath : Option Text)
  | tmpdir
  | slashTmp
  | unknown (path : Text) (subpath : Option Text)
  deriving DecidableEq

inductive FileSystemPath (P : Type)
  | path (path : P)
  | globPattern (pat : Text)
  | special (value : FileSystemSpecialPath)
  deriving DecidableEq

inductive MissingPathBehavior
  | skip
  deriving DecidableEq

structure FileSystemSandboxEntry (P : Type) where
  path : FileSystemPath P
  access : FileSystemAccessMode
  missingPathBehavior : Option MissingPathBehavior := none

inductive FileSystemSandboxKind
  | restricted
  | unrestricted
  | externalSandbox
  deriving DecidableEq

structure FileSystemSandboxPolicy (P : Type) where
  kind : FileSystemSandboxKind
  globScanMaxDepth : Option Nat
  entries : List (FileSystemSandboxEntry P)

def FileSystemSandboxPolicy.restricted {P : Type} (entries : List (FileSystemSandboxEntry P)) :
    FileSystemSandboxPolicy P where
  kind := .restricted
  globScanMaxDepth := none
  entries := entries

structure FileSystemSandboxPolicyContext (P : Type) where
  cwd : P
  workspaceRoots : List P
  temporaryDirectories : Option (List P)

structure PathOps (P : Type) where
  same : P → P → Bool
  inferPathConvention : P → Option PathConvention
  lexicalDepth : P → Option Nat
  isOpaque : P → Bool
  startsWith : P → P → Bool
  join : P → Text → Option P
  joinDescendant : P → Text → Option P
  topmost : P → P
  same_refl : ∀ path, same path path = true
  same_symm : ∀ path other, same path other = true → same other path = true
  startsWith_of_same : ∀ path other, same path other = true → startsWith path other = true
  convention_of_same : ∀ path other, same path other = true →
    inferPathConvention path = inferPathConvention other
  depth_of_same : ∀ path other, same path other = true → lexicalDepth path = lexicalDepth other
  depth_le : ∀ path base depth baseDepth, startsWith path base = true →
    lexicalDepth path = some depth → lexicalDepth base = some baseDepth → baseDepth ≤ depth

def uriOps (api : UrlApi) : PathOps PathUri where
  same := PathUri.same api
  inferPathConvention uri := uri.url.inferPathConvention api
  lexicalDepth := PathUri.lexicalDepth api
  isOpaque := PathUri.isOpaque api
  startsWith := PathUri.startsWith api
  join uri path := (uri.join api path).toOption
  joinDescendant := PathUri.joinDescendant api
  topmost := PathUri.topmost api
  same_refl := PathUri.same_refl
  same_symm _ _ := PathUri.same_symm
  startsWith_of_same _ _ := PathUri.startsWith_of_same
  convention_of_same _ _ := PathUri.inferPathConvention_of_same
  depth_of_same _ _ := PathUri.lexicalDepth_of_same
  depth_le _ _ _ _ := PathUri.lexicalDepth_le

variable {P : Type} (ops : PathOps P)

def FileSystemPath.same : FileSystemPath P → FileSystemPath P → Bool
  | .path left, .path right => ops.same left right
  | .globPattern left, .globPattern right => left = right
  | .special left, .special right => left = right
  | _, _ => false

def FileSystemSandboxEntry.same (left right : FileSystemSandboxEntry P) : Bool :=
  FileSystemPath.same ops left.path right.path && left.access = right.access &&
    left.missingPathBehavior = right.missingPathBehavior

theorem FileSystemSandboxEntry.same_refl (ent : FileSystemSandboxEntry P) :
    ent.same ops ent = true := by
  obtain ⟨path, access, behavior⟩ := ent
  cases path <;> simp [FileSystemSandboxEntry.same, FileSystemPath.same, ops.same_refl]

namespace FileSystemSandboxPolicy

variable {ops} (pol : FileSystemSandboxPolicy P) (ctx : FileSystemSandboxPolicyContext P)

variable (ops) in
def entryPaths (ctx : FileSystemSandboxPolicyContext P) : FileSystemPath P → List P
  | .path path => [path]
  | .globPattern _ => []
  | .special value =>
    match value with
    | .root => if ops.lexicalDepth ctx.cwd = none then [] else [ops.topmost ctx.cwd]
    | .projectRoots subpath => ctx.workspaceRoots.filterMap fun root =>
      match subpath with
      | some subpath => ops.join root subpath
      | none => some root
    | .tmpdir => ctx.temporaryDirectories.getD []
    | .slashTmp => if ops.inferPathConvention ctx.cwd = some .posix then
        (ops.join ctx.cwd "/tmp").toList else []
    | .minimal | .unknown _ _ => []

variable (ops) in
def resolvedEntry (ctx : FileSystemSandboxPolicyContext P) (ent : FileSystemSandboxEntry P) :
    List (P × FileSystemAccessMode) :=
  ((entryPaths ops ctx ent.path).filter fun path =>
    ops.inferPathConvention path = ops.inferPathConvention ctx.cwd).map (·, ent.access)

variable (ops) in
def resolvedEntries : List (P × FileSystemAccessMode) :=
  pol.entries.flatMap (resolvedEntry ops ctx)

def usable (ops : PathOps P) (entries : List (P × FileSystemAccessMode)) : Bool :=
  entries.all fun entry => (ops.lexicalDepth entry.1).isSome || ops.isOpaque entry.1

def applicable (ops : PathOps P) (path : P) (entries : List (P × FileSystemAccessMode)) :
    List (Rule FileSystemAccessMode) :=
  entries.filterMap fun entry => if ops.startsWith path entry.1 then
    (ops.lexicalDepth entry.1).map (⟨·, entry.2⟩) else none

variable (ops) in
def resolveAccess (path : P) : FileSystemAccessMode :=
  match pol.kind with
  | .unrestricted | .externalSandbox => .write
  | .restricted =>
    match ops.inferPathConvention ctx.cwd with
    | none => .deny
    | some conv =>
      if ops.inferPathConvention path ≠ some conv ∨ ops.lexicalDepth path = none ∨
          ops.lexicalDepth ctx.cwd = none then .deny
      else
        let entries := pol.resolvedEntries ops ctx
        if usable ops entries then verdict .deny (applicable ops path entries) else .deny

variable {pol ctx} {path : P} {entries : List (P × FileSystemAccessMode)}

def Evaluable (ops : PathOps P) (ctx : FileSystemSandboxPolicyContext P) (path : P)
    (entries : List (P × FileSystemAccessMode)) : Prop :=
  ops.inferPathConvention ctx.cwd ≠ none ∧
    ops.inferPathConvention path = ops.inferPathConvention ctx.cwd ∧
    ops.lexicalDepth path ≠ none ∧ ops.lexicalDepth ctx.cwd ≠ none ∧ usable ops entries = true

theorem resolveAccess_of_unrestricted (free : pol.kind ≠ .restricted) :
    pol.resolveAccess ops ctx path = .write := by
  rw [resolveAccess]
  cases kind : pol.kind with
  | restricted => exact absurd kind free
  | unrestricted | externalSandbox => rfl

theorem resolveAccess_of_evaluable (narrow : pol.kind = .restricted)
    (evals : Evaluable ops ctx path (pol.resolvedEntries ops ctx)) :
    pol.resolveAccess ops ctx path =
      verdict .deny (applicable ops path (pol.resolvedEntries ops ctx)) := by
  obtain ⟨known, shared, deep, cwdDeep, usable⟩ := evals
  obtain ⟨conv, inferred⟩ := Option.ne_none_iff_exists'.mp known
  rw [inferred] at shared
  simp [resolveAccess, narrow, inferred, shared, deep, cwdDeep, usable]

theorem resolveAccess_of_not_evaluable (narrow : pol.kind = .restricted)
    (unclear : ¬ Evaluable ops ctx path (pol.resolvedEntries ops ctx)) :
    pol.resolveAccess ops ctx path = .deny := by
  rw [resolveAccess, narrow]
  cases inferred : ops.inferPathConvention ctx.cwd with
  | none => rfl
  | some conv =>
    dsimp only
    split_ifs with foreign usable
    · rfl
    · simp only [not_or, not_not] at foreign
      exact absurd ⟨by simp [inferred], by rw [foreign.1, inferred], foreign.2.1, foreign.2.2,
        usable⟩ unclear
    · rfl

theorem evaluable_of_resolveAccess_ne_deny (narrow : pol.kind = .restricted)
    (got : pol.resolveAccess ops ctx path ≠ .deny) :
    Evaluable ops ctx path (pol.resolvedEntries ops ctx) := by
  by_contra unclear
  exact got (resolveAccess_of_not_evaluable narrow unclear)

theorem mem_applicable {rule : Rule FileSystemAccessMode} : rule ∈ applicable ops path entries ↔
      ∃ root, (root, rule.value) ∈ entries ∧ ops.startsWith path root = true ∧
        ops.lexicalDepth root = some rule.depth := by
  rw [applicable, List.mem_filterMap]
  constructor
  · rintro ⟨⟨root, access⟩, mem, ranked⟩
    split_ifs at ranked with below
    obtain ⟨depth, deep, rfl⟩ := Option.map_eq_some_iff.mp ranked
    exact ⟨root, mem, below, deep⟩
  rintro ⟨root, mem, below, deep⟩
  exact ⟨(root, rule.value), mem, by simp [below, deep]⟩

theorem applicable_subset {more : List (P × FileSystemAccessMode)} (subset : entries ⊆ more) :
    applicable ops path entries ⊆ applicable ops path more := by
  intro rule mem
  obtain ⟨root, here, below, deep⟩ := mem_applicable.mp mem
  exact mem_applicable.mpr ⟨root, subset here, below, deep⟩

end FileSystemSandboxPolicy

open FileSystemSandboxPolicy List

structure FileSystemPermissions (P : Type) where
  entries : List (FileSystemSandboxEntry P) := []
  globScanMaxDepth : Option Nat := none

structure NetworkPermissions where
  enabled : Option Bool

structure AdditionalPermissionProfile (P : Type) where
  network : Option NetworkPermissions
  fileSystem : Option (FileSystemPermissions P)

variable {P : Type}

def AdditionalPermissionProfile.entries (prof : AdditionalPermissionProfile P) :
    List (FileSystemSandboxEntry P) :=
  (prof.fileSystem.getD {}).entries

inductive GlobScanDepth
  | bounded (depth : Nat)
  | unbounded
  deriving DecidableEq

def FileSystemPath.isGlobPattern : FileSystemPath P → Bool
  | .globPattern _ => true
  | _ => false

def effectiveGlobScanDepth (entries : List (FileSystemSandboxEntry P)) (depth : Option Nat) :
    Option GlobScanDepth :=
  if entries.any fun entry => entry.access = .deny && entry.path.isGlobPattern then
    some (match depth with
      | some depth => .bounded depth
      | none => .unbounded)
  else none

def mergeGlobScanMaxDepth (leftEntries : List (FileSystemSandboxEntry P)) (leftDepth : Option Nat)
    (rightEntries : List (FileSystemSandboxEntry P)) (rightDepth : Option Nat) : Option Nat :=
  match effectiveGlobScanDepth leftEntries leftDepth,
    effectiveGlobScanDepth rightEntries rightDepth with
  | some .unbounded, _ | _, some .unbounded => none
  | some (.bounded left), some (.bounded right) => some (max left right)
  | some (.bounded depth), none | none, some (.bounded depth) => some depth
  | none, none => none

section

variable (ops : PathOps P) (policy : FileSystemSandboxPolicy P)

def mergeFileSystemPolicyWithAdditionalPermissions (additional : FileSystemPermissions P) :
    FileSystemSandboxPolicy P :=
  match policy.kind with
  | .restricted => { policy with
      entries := Distinct.extend (FileSystemSandboxEntry.same ops) policy.entries additional.entries
      globScanMaxDepth := mergeGlobScanMaxDepth policy.entries policy.globScanMaxDepth
        additional.entries additional.globScanMaxDepth }
  | .unrestricted | .externalSandbox => policy

def effectiveFileSystemSandboxPolicy (additional : Option (AdditionalPermissionProfile P)) :
    FileSystemSandboxPolicy P :=
  match additional.bind AdditionalPermissionProfile.fileSystem with
  | none => policy
  | some perms =>
    if perms.entries = [] then policy
    else mergeFileSystemPolicyWithAdditionalPermissions ops policy perms

end

def addedEntries (additional : Option (AdditionalPermissionProfile P)) :
    List (FileSystemSandboxEntry P) :=
  (additional.map AdditionalPermissionProfile.entries).getD []

open Distinct FileSystemAccessMode

section

variable {ops : PathOps P} {policy : FileSystemSandboxPolicy P}
  {additional : Option (AdditionalPermissionProfile P)}
  {context : FileSystemSandboxPolicyContext P} {path : P}

variable (ops policy additional) in
def mergedEntries : List (FileSystemSandboxEntry P) :=
  Distinct.extend (FileSystemSandboxEntry.same ops) policy.entries (addedEntries additional)

variable (ops policy additional context) in
def mergedRoots : List (P × FileSystemAccessMode) :=
  (mergedEntries ops policy additional).flatMap (resolvedEntry ops context)

theorem effective_of_restricted (narrow : policy.kind = .restricted) :
    (effectiveFileSystemSandboxPolicy ops policy additional).kind = .restricted ∧
      (effectiveFileSystemSandboxPolicy ops policy additional).entries =
        mergedEntries ops policy additional := by
  rw [effectiveFileSystemSandboxPolicy, mergedEntries, addedEntries]
  cases additional with
  | none => exact ⟨narrow, rfl⟩
  | some prof =>
    cases fileSystem : prof.fileSystem with
    | none => simp [fileSystem, narrow, AdditionalPermissionProfile.entries, extend]
    | some perms =>
      by_cases none : perms.entries = []
      · simp [fileSystem, narrow, AdditionalPermissionProfile.entries, none, extend]
      simp [fileSystem, narrow, AdditionalPermissionProfile.entries, none,
        mergeFileSystemPolicyWithAdditionalPermissions]

theorem effective_of_unrestricted (free : policy.kind ≠ .restricted) :
    effectiveFileSystemSandboxPolicy ops policy additional = policy := by
  rw [effectiveFileSystemSandboxPolicy]
  split
  · rfl
  split_ifs
  · rfl
  rw [mergeFileSystemPolicyWithAdditionalPermissions]
  cases kind : policy.kind with
  | restricted => exact absurd kind free
  | unrestricted | externalSandbox => rfl

theorem resolvedEntries_effective (narrow : policy.kind = .restricted) :
    (effectiveFileSystemSandboxPolicy ops policy additional).resolvedEntries ops context =
      mergedRoots ops policy additional context := by
  rw [resolvedEntries, (effective_of_restricted narrow).2, mergedRoots]

theorem resolvedEntries_subset : policy.resolvedEntries ops context ⊆
    mergedRoots ops policy additional context := by
  intro root mem
  obtain ⟨ent, here, named⟩ := mem_flatMap.mp mem
  exact mem_flatMap.mpr ⟨ent, subset_extend _ _ here, named⟩

theorem mem_resolvedEntries_of_deny
    (grants : ∀ ent ∈ addedEntries additional, ent.access ≠ .deny) {root : P}
    (mem : (root, .deny) ∈ mergedRoots ops policy additional context) :
    (root, .deny) ∈ policy.resolvedEntries ops context := by
  obtain ⟨ent, here, named⟩ := mem_flatMap.mp mem
  rcases mem_extend here with old | added
  · exact mem_flatMap.mpr ⟨ent, old, named⟩
  obtain ⟨_, _, same⟩ := List.mem_map.mp named
  exact absurd (Prod.mk.inj same).2 (grants ent added)

theorem exists_mergedRoot {ent : FileSystemSandboxEntry P}
    (added : ent ∈ addedEntries additional) (named : path ∈ entryPaths ops context ent.path)
    (shared : ops.inferPathConvention path = ops.inferPathConvention context.cwd) :
    ∃ root, (root, ent.access) ∈ mergedRoots ops policy additional context ∧
      ops.same path root = true := by
  obtain ⟨⟨path2, access, behavior⟩, here, eq⟩ := @exists_same_extend _
    (FileSystemSandboxEntry.same ops) policy.entries _ ent
    (FileSystemSandboxEntry.same_refl ops) added
  obtain ⟨entryPath, entryAccess, entryBehavior⟩ := ent
  simp only [FileSystemSandboxEntry.same, Bool.and_eq_true, decide_eq_true_eq] at eq
  obtain ⟨⟨paths, rfl⟩, -⟩ := eq
  have got : ∀ root, root ∈ entryPaths ops context path2 →
      ops.inferPathConvention root = ops.inferPathConvention context.cwd →
      (root, access) ∈ mergedRoots ops policy additional context := by
    intro root names conv
    refine mem_flatMap.mpr ⟨_, here, List.mem_map.mpr ⟨root, ?_, rfl⟩⟩
    exact mem_filter.mpr ⟨names, decide_eq_true conv⟩
  cases entryPath with
  | globPattern pat => cases named
  | path written =>
    obtain rfl := mem_singleton.mp named
    cases path2 with
    | path root =>
      have same := ops.same_symm _ _ paths
      refine ⟨root, got root (mem_singleton_self root) ?_, same⟩
      rw [← ops.convention_of_same _ _ same, shared]
    | globPattern | special => cases paths
  | special val =>
    cases path2 with
    | path | globPattern => cases paths
    | special other =>
      obtain rfl := of_decide_eq_true paths
      exact ⟨path, got path named shared, ops.same_refl path⟩

variable (ops policy additional context path) in
/-- The path stays comparable, and if it can be written then every read entry has a write entry as
deep. -/
def KeepsAccess : Prop :=
  policy.kind ≠ .restricted ∨ policy.resolveAccess ops context path = .deny ∨
    usable ops (mergedRoots ops policy additional context) = true ∧
      (policy.resolveAccess ops context path = .write →
        ∀ rule ∈ applicable ops path (mergedRoots ops policy additional context),
          rule.value = .read →
          ∃ other ∈ applicable ops path (mergedRoots ops policy additional context),
            other.value = .write ∧ rule.depth ≤ other.depth)

variable (ops policy context path) in
def DeniedExactly : Prop :=
  ∃ root, (root, .deny) ∈ policy.resolvedEntries ops context ∧
    ops.startsWith path root = true ∧ ops.lexicalDepth root = ops.lexicalDepth path

theorem denied_of_decides (narrow : policy.kind = .restricted)
    (grants : ∀ ent ∈ addedEntries additional, ent.access ≠ .deny)
    {rule : Rule FileSystemAccessMode}
    (dec : Decides (applicable ops path (mergedRoots ops policy additional context)) rule)
    (denies : rule.value = .deny) : policy.resolveAccess ops context path = .deny := by
  obtain ⟨root, mem, below, deep⟩ := mem_applicable.mp dec.1
  rw [denies] at mem
  have mine : rule ∈ applicable ops path (policy.resolvedEntries ops context) := by
    refine mem_applicable.mpr ⟨root, ?_, below, deep⟩
    rw [denies]
    exact mem_resolvedEntries_of_deny grants mem
  by_cases evaluable : Evaluable ops context path (policy.resolvedEntries ops context)
  · rw [resolveAccess_of_evaluable narrow evaluable,
      (dec.of_subset (applicable_subset resolvedEntries_subset) mine).verdict_eq, denies]
  · exact resolveAccess_of_not_evaluable narrow evaluable

theorem resolveAccess_effective (narrow : policy.kind = .restricted)
    (evals : Evaluable ops context path (mergedRoots ops policy additional context)) :
    (effectiveFileSystemSandboxPolicy ops policy additional).resolveAccess ops context path =
      verdict .deny (applicable ops path (mergedRoots ops policy additional context)) := by
  rw [← resolvedEntries_effective narrow] at evals ⊢
  exact resolveAccess_of_evaluable (effective_of_restricted narrow).1 evals

theorem evaluable_of_effective_ne_deny (narrow : policy.kind = .restricted)
    (got : (effectiveFileSystemSandboxPolicy ops policy additional).resolveAccess ops context
      path ≠ .deny) :
    Evaluable ops context path (mergedRoots ops policy additional context) := by
  rw [← resolvedEntries_effective narrow]
  exact evaluable_of_resolveAccess_ne_deny (effective_of_restricted narrow).1 got

theorem atMost_effective_iff (grants : ∀ ent ∈ addedEntries additional, ent.access ≠ .deny) :
    (policy.resolveAccess ops context path).AtMost
        ((effectiveFileSystemSandboxPolicy ops policy additional).resolveAccess ops context path) ↔
      KeepsAccess ops policy additional context path := by
  by_cases restricted : policy.kind = .restricted
  swap
  · rw [effective_of_unrestricted restricted]
    exact iff_of_true (.refl _) (.inl restricted)
  by_cases denied : policy.resolveAccess ops context path = .deny
  · rw [denied]
    exact iff_of_true (deny_atMost _) (.inr (.inl denied))
  have clear := evaluable_of_resolveAccess_ne_deny restricted denied
  have ⟨known, shared, deep, cwdDeep, _⟩ := clear
  constructor
  · intro kept
    have readable : (effectiveFileSystemSandboxPolicy ops policy additional).resolveAccess ops
        context path ≠ .deny := of_decide_eq_true (kept.1 (decide_eq_true denied))
    have evaluable := evaluable_of_effective_ne_deny restricted readable
    refine .inr (.inr ⟨evaluable.2.2.2.2, fun writes rule mem reads => ?_⟩)
    have written := of_decide_eq_true (kept.2 (decide_eq_true writes))
    rw [resolveAccess_effective restricted evaluable] at written
    rcases verdict_cases .deny (applicable ops path (mergedRoots ops policy additional context))
      with ⟨none, -⟩ | ⟨top, dec, value⟩
    · rw [none] at mem
      cases mem
    refine ⟨top, dec.1, by rw [← value, written], ?_⟩
    rcases Rule.rank_le.mp (dec.2 rule mem) with deeper | ⟨level, -⟩
    · exact deeper.le
    · exact level.le
  rintro (free | given | ⟨usable, matched⟩)
  · exact absurd restricted free
  · exact absurd given denied
  have evaluable : Evaluable ops context path (mergedRoots ops policy additional context) :=
    ⟨known, shared, deep, cwdDeep, usable⟩
  rw [resolveAccess_effective restricted evaluable]
  rcases verdict_cases .deny (applicable ops path (mergedRoots ops policy additional context))
    with ⟨none, -⟩ | ⟨top, dec, value⟩
  · have silent : applicable ops path (policy.resolvedEntries ops context) = [] :=
      subset_nil.mp (none ▸ applicable_subset resolvedEntries_subset)
    exact absurd (by rw [resolveAccess_of_evaluable restricted clear, silent]; rfl) denied
  rw [value]
  cases access : top.value with
  | deny => exact absurd (denied_of_decides restricted grants dec access) denied
  | write => exact atMost_write _
  | read =>
    cases given : policy.resolveAccess ops context path with
    | deny => exact absurd given denied
    | read => exact .refl _
    | write =>
      obtain ⟨other, mem, writes, deeper⟩ := matched given top dec.1 access
      rcases Rule.rank_le.mp (dec.2 other mem) with lt | ⟨-, weaker⟩
      · omega
      rw [writes, access] at weaker
      exact absurd weaker (by decide)

theorem added_granted_iff (grants : ∀ ent ∈ addedEntries additional, ent.access ≠ .deny)
    {ent : FileSystemSandboxEntry P} (added : ent ∈ addedEntries additional)
    (named : path ∈ entryPaths ops context ent.path) :
    DeniedExactly ops policy context path ∨
        ent.access.AtMost ((effectiveFileSystemSandboxPolicy ops policy additional).resolveAccess
          ops context path) ↔
      policy.kind ≠ .restricted ∨ DeniedExactly ops policy context path ∨
        Evaluable ops context path (mergedRoots ops policy additional context) := by
  by_cases restricted : policy.kind = .restricted
  swap
  · rw [effective_of_unrestricted restricted, resolveAccess_of_unrestricted restricted]
    exact iff_of_true (.inr (atMost_write _)) (.inl restricted)
  by_cases blocked : DeniedExactly ops policy context path
  · exact iff_of_true (.inl blocked) (.inr (.inl blocked))
  simp only [blocked, false_or, restricted, ne_eq, not_true_eq_false]
  constructor
  · intro got
    exact evaluable_of_effective_ne_deny restricted
      (of_decide_eq_true (got.1 (decide_eq_true (grants ent added))))
  intro evals
  obtain ⟨root, here, same⟩ := @exists_mergedRoot P ops policy additional context path ent
    added named evals.2.1
  obtain ⟨depth, deep⟩ := Option.ne_none_iff_exists'.mp evals.2.2.1
  have mine : ⟨depth, ent.access⟩ ∈
      applicable ops path (mergedRoots ops policy additional context) :=
    mem_applicable.mpr ⟨root, here, ops.startsWith_of_same _ _ same,
      by rw [← ops.depth_of_same _ _ same, deep]⟩
  obtain ⟨top, dec⟩ := exists_decides (ne_nil_of_mem mine)
  rw [resolveAccess_effective restricted evals, dec.verdict_eq]
  obtain ⟨topRoot, topPresent, topBelow, topDeep⟩ := mem_applicable.mp dec.1
  -- nothing that contains the path is deeper than the path itself
  have shallow := ops.depth_le _ _ _ _ topBelow deep topDeep
  rcases Rule.rank_le.mp (dec.2 _ mine) with deeper | ⟨level, stronger⟩
  · exact absurd deeper (Nat.not_lt.mpr shallow)
  have allowed : top.value ≠ .deny := by
    intro denies
    rw [denies] at topPresent
    exact blocked ⟨topRoot, mem_resolvedEntries_of_deny grants topPresent, topBelow,
      by rw [topDeep, deep]; exact congrArg some level.symm⟩
  exact .of_le stronger allowed

end

/-- Access is kept exactly when no narrower read entry is added, and named paths get theirs exactly
when they can be evaluated. -/
theorem additional_permissions_access_iff (ops : PathOps P) (policy : FileSystemSandboxPolicy P)
    (additional : Option (AdditionalPermissionProfile P))
    (context : FileSystemSandboxPolicyContext P)
    (grants : ∀ entry ∈ addedEntries additional, entry.access ≠ .deny) :
    (∀ path, (policy.resolveAccess ops context path).AtMost
        ((effectiveFileSystemSandboxPolicy ops policy additional).resolveAccess ops context path) ↔
      KeepsAccess ops policy additional context path) ∧
    ∀ entry ∈ addedEntries additional, ∀ path ∈ entryPaths ops context entry.path,
      (DeniedExactly ops policy context path ∨
        entry.access.AtMost ((effectiveFileSystemSandboxPolicy ops policy additional).resolveAccess
          ops context path)) ↔
      (policy.kind ≠ .restricted ∨ DeniedExactly ops policy context path ∨
        Evaluable ops context path (mergedRoots ops policy additional context)) :=
  ⟨fun _ => atMost_effective_iff grants, fun _ added _ named =>
    added_granted_iff grants added named⟩

def localEntry (segs : List Text) (upper : FileUrl.upperDrive segs = segs)
    (access : FileSystemAccessMode) : FileSystemSandboxEntry PathUri where
  path := .path (localUri segs upper)
  access := access

def localContext (cwd : PathUri) : FileSystemSandboxPolicyContext PathUri where
  cwd := cwd
  workspaceRoots := [cwd]
  temporaryDirectories := some []

def singleGrant (entry : FileSystemSandboxEntry PathUri) :
    Option (AdditionalPermissionProfile PathUri) :=
  some ⟨none, some { entries := [entry] }⟩

/-- Write access that is added beside a directory is given, and the directory stays readable. -/
theorem additional_permissions_access_sibling :
    let policy := FileSystemSandboxPolicy.restricted [localEntry ["a"] rfl .read]
    let added := localEntry ["b"] rfl .write
    let context := localContext (localUri ["a"] rfl)
    let effective := effectiveFileSystemSandboxPolicy (uriOps asciiUrlApi) policy
      (singleGrant added)
    (policy.resolveAccess (uriOps asciiUrlApi) context (localUri ["a"] rfl)).AtMost
        (effective.resolveAccess (uriOps asciiUrlApi) context (localUri ["a"] rfl)) ∧
      FileSystemAccessMode.write.AtMost
        (effective.resolveAccess (uriOps asciiUrlApi) context (localUri ["b"] rfl)) := by
  intro policy added context effective
  obtain ⟨keeps, gives⟩ := additional_permissions_access_iff (uriOps asciiUrlApi) policy
    (singleGrant added) context (by simp [singleGrant, addedEntries, added, localEntry,
      AdditionalPermissionProfile.entries])
  have reads : policy.resolveAccess (uriOps asciiUrlApi) context (localUri ["a"] rfl) =
      .read := by
    decide +kernel
  constructor
  · refine (keeps _).mpr (.inr (.inr ⟨by decide +kernel, fun writes => ?_⟩))
    rw [reads] at writes
    cases writes
  have evaluable : Evaluable (uriOps asciiUrlApi) context (localUri ["b"] rfl)
      (mergedRoots (uriOps asciiUrlApi) policy (singleGrant added) context) := by
    refine ⟨?_, ?_, ?_, ?_, ?_⟩ <;> decide +kernel
  rcases (gives added (mem_singleton_self added) _ (mem_singleton_self _)).mpr
    (.inr (.inr evaluable)) with ⟨root, denied, -⟩ | got
  · cases mem_singleton.mp denied
  · exact got

/-- Adding that a directory below a writable one can be read makes it read-only. -/
theorem additional_read_narrows_write :
    let policy := FileSystemSandboxPolicy.restricted [localEntry ["a"] rfl .write]
    let added := localEntry ["a", "b"] rfl .read
    let context := localContext (localUri ["a"] rfl)
    let path := localUri ["a", "b", "c"] rfl
    policy.resolveAccess (uriOps asciiUrlApi) context path = .write ∧
      (effectiveFileSystemSandboxPolicy (uriOps asciiUrlApi) policy
        (singleGrant added)).resolveAccess (uriOps asciiUrlApi) context path = .read := by
  decide +kernel

end Codex.Permissions
