import Codex.Permissions.Native

/-!
# Which paths the writable roots leave writable

The two readings of a policy are put in terms of the named paths.
-/

namespace Codex.Permissions

open FileSystemSandboxPolicy
open FileSystemAccessMode (canWrite deny write)
open Specificity List NativePath
open FileSystemSandboxPolicy (protectedMetadataPathNames metadataAt)

def InMetadata (root path : NativePath) : Prop :=
  ∃ name ∈ protectedMetadataPathNames, root ++ [name] <+: path

instance (root path : NativePath) : Decidable (InMetadata root path) :=
  inferInstanceAs (Decidable (∃ name ∈ protectedMetadataPathNames, root ++ [name] <+: path))

def writeRoots (named : List (NativePath × FileSystemAccessMode)) : List NativePath :=
  (named.filter fun entry => entry.2.canWrite).map Prod.fst

def firstGuard (named : List (NativePath × FileSystemAccessMode)) (path : NativePath) :
    Option NativePath :=
  (writeRoots named).find? fun root => decide (InMetadata root path)

variable {named : List (NativePath × FileSystemAccessMode)} {root path : NativePath}

theorem InMetadata.above (ins : InMetadata root path) : root <+: path := by
  obtain ⟨name, -, above⟩ := ins
  exact (prefix_append root [name]).trans above

theorem InMetadata.length_lt (ins : InMetadata root path) : root.length < path.length := by
  obtain ⟨name, -, above⟩ := ins
  have longer := above.length_le
  rw [length_append] at longer
  exact Nat.lt_of_succ_le longer

theorem InMetadata.of_between {inner : NativePath} (ins : InMetadata root path)
    (above : inner <+: path) (deeper : root.length < inner.length) : InMetadata root inner := by
  obtain ⟨name, known, below⟩ := ins
  refine ⟨name, known, prefix_of_prefix_length_le below above ?_⟩
  rw [length_append]
  exact deeper

theorem mem_writeRoots : root ∈ writeRoots named ↔ (root, .write) ∈ named := by
  simp [writeRoots, canWrite]

theorem firstGuard_eq_some {guard : NativePath} (fst : firstGuard named path = some guard) :
    (guard, .write) ∈ named ∧ InMetadata guard path := by
  rw [firstGuard] at fst
  have ins := find?_some fst
  exact ⟨mem_writeRoots.mp (mem_of_find?_eq_some fst), of_decide_eq_true ins⟩

variable {name : Text} {top : NativePath} {access : FileSystemAccessMode}

theorem isOpaque_child (known : name ∈ protectedMetadataPathNames) :
    isOpaque (root ++ [name]) = root.isOpaque := by
  have plain : isDrive name = false ∧ decide ('\x00' ∈ name) = false := by
    revert name
    decide
  rw [isOpaque, isOpaque, any_append]
  cases root <;> simp_all

theorem joinDescendant_metadata (known : name ∈ protectedMetadataPathNames) :
    root.joinDescendant name = if root.isOpaque then none else some (root ++ [name]) := by
  have shape : '\x00' ∉ name ∧ name ≠ [] ∧ name.head? ≠ some '/' ∧
      (name.splitOn '/').filterMap componentMove = [.down name] := by
    revert name
    decide
  obtain ⟨printable, ne, relative, moves⟩ := shape
  have got : resolveText root name = root ++ [name] := by
    rw [resolveText, moves]
    rfl
  rw [joinDescendant, join, if_neg printable, if_neg ne,
    if_neg relative, got, isOpaque_child known, Bool.or_self]
  cases hidden : root.isOpaque with
  | true => rfl
  | false =>
    have below : (root ++ [name]).startsWith root = true :=
      (startsWith_iff (by rw [isOpaque_child known, hidden])).mpr
        (prefix_append root [name])
    simp [relative, below]

theorem component_unique {part other : Text} (above : root ++ [part] <+: path)
    (above' : root ++ [other] <+: path) : part = other := by
  have level : (root ++ [part]).length = (root ++ [other]).length := by
    rw [length_append, length_append]
    rfl
  have eq := eq_of_prefix_of_length above above' level
  simpa using eq

theorem metadataAt_eq_some (clear : path.isOpaque = false) {guarded : NativePath} :
    metadataAt posixOps path root = some (guarded, name) ↔
      name ∈ protectedMetadataPathNames ∧ guarded = root ++ [name] ∧ guarded <+: path := by
  -- The directory of a name is the one found for it, if the path is below.
  have found : ∀ y ∈ protectedMetadataPathNames, ∀ hit,
      ((posixOps.joinDescendant root y).bind fun guarded =>
        if posixOps.startsWith path guarded then some (guarded, y) else none) = some hit ↔
          hit = (root ++ [y], y) ∧ root ++ [y] <+: path := by
    intro y known hit
    have joined : posixOps.joinDescendant root y = _ := joinDescendant_metadata known
    rw [joined]
    by_cases above : root ++ [y] <+: path
    · have visible := clear_of_above clear above
      have below : posixOps.startsWith path (root ++ [y]) = true :=
        (startsWith_iff clear).mpr above
      rw [isOpaque_child known] at visible
      simp only [visible, Bool.false_eq_true, if_false, Option.bind_some, below, if_true,
        Option.some.injEq, above, and_true]
      exact eq_comm
    have apart : posixOps.startsWith path (root ++ [y]) = false :=
      Bool.eq_false_iff.mpr fun below => above ((startsWith_iff clear).mp below)
    cases root.isOpaque <;> simp [apart, above]
  constructor
  · intro hit
    obtain ⟨y, known, here⟩ := exists_of_findSome?_eq_some hit
    obtain ⟨eq, above⟩ := (found y known (guarded, name)).mp here
    obtain ⟨rfl, rfl⟩ := Prod.mk.inj eq
    exact ⟨known, rfl, above⟩
  rintro ⟨known, rfl, above⟩
  cases hit : metadataAt posixOps path root with
  | none =>
    have missed := findSome?_eq_none_iff.mp hit name known
    rw [(found name known (root ++ [name], name)).mpr ⟨rfl, above⟩] at missed
    cases missed
  | some fst =>
    obtain ⟨y, known', here⟩ := exists_of_findSome?_eq_some hit
    obtain ⟨eq, above'⟩ := (found y known' fst).mp here
    rw [eq, component_unique above' above]

theorem metadataAt_eq_none (clear : path.isOpaque = false) :
    metadataAt posixOps path root = none ↔ ¬ InMetadata root path := by
  rw [Option.eq_none_iff_forall_ne_some]
  constructor
  · rintro missed ⟨name, known, above⟩
    exact missed _ ((metadataAt_eq_some clear).mpr ⟨known, rfl, above⟩)
  rintro out ⟨guarded, name⟩ hit
  obtain ⟨known, rfl, above⟩ := (metadataAt_eq_some clear).mp hit
  exact out ⟨name, known, above⟩

/-- The path is exempt unless the guard is the deciding entry itself. -/
theorem exempt_iff (dec : DecidesAt named path top .write) :
    (∀ guard, firstGuard named path = some guard →
        ∃ root, (root, .write) ∈ named ∧ root <+: path ∧ InMetadata guard root) ↔
      firstGuard named path ≠ some top := by
  constructor
  · intro exempt fst
    obtain ⟨root, mem, above, ins⟩ := exempt top fst
    have deeper := ins.length_lt
    rcases dec.2.2 root .write mem above with lt | ⟨rfl, -⟩
    · exact absurd lt (Nat.not_lt.mpr deeper.le)
    · exact absurd deeper (lt_irrefl _)
  intro y guard fst
  obtain ⟨mem, ins⟩ := firstGuard_eq_some fst
  rcases dec.2.2 guard .write mem ins.above with lt | ⟨rfl, -⟩
  · exact ⟨top, dec.1, dec.2.1, ins.of_between dec.2.1 lt⟩
  · exact absurd fst y

def OpenAt (named : List (NativePath × FileSystemAccessMode)) (place : NativePath) : Prop :=
  place.isOpaque = false ∧ (place, .write) ∈ named ∧ (place, .deny) ∉ named

def Reaches (named : List (NativePath × FileSystemAccessMode)) (root path : NativePath) : Prop :=
  OpenAt named root ∧ root <+: path ∧ ∀ place access, (place, access) ∈ named →
    access ≠ .write → root <+: place → place <+: path → OpenAt named place

def Kept (tree : FileTree) (cwd root : NativePath) (name : Text) : Prop :=
  name = ".git" ∧ (tree.isDir (root ++ [name]) ∨ tree.isFile (root ++ [name])) ∨
    name = ".agents" ∧ tree.isDir (root ++ [name]) ∨
    name = ".codex" ∧ (cwd = root ∨ tree.isDir (root ++ [name]))

/-- The path is in metadata without an entry that the root is the first to guard or is read-only. -/
def Shields (tree : FileTree) (cwd : NativePath)
    (named : List (NativePath × FileSystemAccessMode)) (root path : NativePath) : Prop :=
  ∃ name ∈ protectedMetadataPathNames, root ++ [name] <+: path ∧
    (∀ access, (root ++ [name], access) ∉ named) ∧
    (firstGuard named (root ++ [name]) = some root ∨ Kept tree cwd root name)

theorem decidesAt_self_iff : DecidesAt named root root .write ↔
    (root, .write) ∈ named ∧ (root, .deny) ∉ named := by
  constructor
  · intro dec
    refine ⟨dec.1, fun denied => ?_⟩
    rcases dec.2.2 root .deny denied (prefix_refl root) with lt | ⟨-, weaker⟩
    · exact lt_irrefl _ lt
    · exact absurd weaker (by decide)
  rintro ⟨writes, free⟩
  refine ⟨writes, prefix_refl root, fun y access mem above => ?_⟩
  rcases above.length_le.lt_or_eq with lt | level
  · exact .inl lt
  obtain rfl := above.eq_of_length level
  cases access with
  | read => exact .inr ⟨rfl, by decide⟩
  | write => exact .inr ⟨rfl, le_refl _⟩
  | deny => exact absurd mem free

theorem decidesAt_place_iff (mem : (path, access) ∈ named) : DecidesAt named path top .write ↔
      top = path ∧ (path, .write) ∈ named ∧ (path, .deny) ∉ named := by
  constructor
  · intro dec
    rcases dec.2.2 path access mem (prefix_refl path) with deeper | ⟨rfl, -⟩
    · exact absurd dec.2.1.length_le (Nat.not_le.mpr deeper)
    · exact ⟨rfl, decidesAt_self_iff.mp dec⟩
  rintro ⟨rfl, free⟩
  exact decidesAt_self_iff.mpr free

theorem firstGuard_ne_self : firstGuard named path ≠ some path := by
  intro fst
  exact lt_irrefl _ (firstGuard_eq_some fst).2.length_lt

theorem Reaches.of_decides (clear : path.isOpaque = false)
    (dec : DecidesAt named path root .write) : Reaches named root path := by
  have openRoot : OpenAt named root :=
    ⟨clear_of_above clear dec.2.1, decidesAt_self_iff.mp (dec.at_root (prefix_refl root) dec.2.1)⟩
  refine ⟨openRoot, dec.2.1, fun place access mem _ below above => ?_⟩
  rcases dec.2.2 place access mem above with lt | ⟨rfl, -⟩
  · exact absurd below.length_le (Nat.not_le.mpr lt)
  · exact openRoot

theorem Reaches.decided (reaches : Reaches named root path) :
    ∃ top, DecidesAt named path top .write := by
  obtain ⟨⟨-, writes, -⟩, above, between⟩ := reaches
  obtain ⟨top, access, dec⟩ := exists_decidesAt writes above
  by_cases permitted : access = .write
  · exact ⟨top, permitted ▸ dec⟩
  have deeper : root.length ≤ top.length := by
    rcases dec.2.2 root .write writes above with lt | ⟨rfl, -⟩
    · exact lt.le
    · exact le_refl _
  have below := prefix_of_prefix_length_le above dec.2.1 deeper
  obtain ⟨-, opens, free⟩ := between top access dec.1 permitted below dec.2.1
  have self := dec.at_root (prefix_refl top) dec.2.1
  have eq := (self.valueAt_eq : valueAt .deny named top = access)
  rw [(decidesAt_self_iff.mpr ⟨opens, free⟩).valueAt_eq] at eq
  exact absurd eq.symm permitted

theorem Reaches.openAt_child (reaches : Reaches named root path)
    (known : name ∈ protectedMetadataPathNames) (above : root ++ [name] <+: path)
    (mem : (root ++ [name], access) ∈ named) : OpenAt named (root ++ [name]) := by
  obtain ⟨⟨clear, -, -⟩, -, between⟩ := reaches
  have below := prefix_append root [name]
  by_cases denied : (root ++ [name], deny) ∈ named
  · exact between _ .deny denied (by decide) below above
  cases access with
  | deny => exact absurd mem denied
  | read => exact between _ .read mem (by decide) below above
  | write => exact ⟨by rw [isOpaque_child known, clear], mem, denied⟩

open Distinct

theorem mem_defaultReadOnlySubpaths {tree : FileTree} (plain : tree.Plain) {cwd : NativePath} :
    path ∈ defaultReadOnlySubpathsForWritableRoot tree root (decide (cwd = root)) ↔
      ∃ name ∈ protectedMetadataPathNames, path = root ++ [name] ∧ Kept tree cwd root name := by
  have pointer : (if tree.isFile (root ++ [".git".toList]) = true then
      tree.resolveGitdirFromFile (root ++ [".git".toList]) else none) = none := by
    rw [plain.resolveGitdir_eq, ite_self]
  rw [defaultReadOnlySubpathsForWritableRoot, dedupAbsolutePaths, pointer,
    mem_extend_iff (fun _ _ => decide_eq_true_iff)]
  have listed : ∀ {cond : Prop} [Decidable cond] {place : NativePath},
      path ∈ (if cond then [place] else []) ↔ cond ∧ path = place := by
    intro cond decidable place
    by_cases holds : cond <;> simp [holds]
  simp only [not_mem_nil, false_or, mem_append, Option.toList_none, nil_append,
    listed, Bool.or_eq_true, decide_eq_true_eq, protectedMetadataPathNames, mem_cons,
    or_false, exists_eq_or_imp, exists_eq_left, Kept]
  have apart : ".git".toList ≠ ".agents".toList ∧ ".git".toList ≠ ".codex".toList ∧
      ".agents".toList ≠ ".codex".toList := by decide
  obtain ⟨gitAgents, gitCodex, agentsCodex⟩ := apart
  simp only [gitAgents, gitCodex, agentsCodex, gitAgents.symm, gitCodex.symm, agentsCodex.symm,
    false_and, true_and, false_or, or_false]
  exact or_assoc.trans (or_congr and_comm (or_congr and_comm and_comm))

theorem target_eq_of_share {left right : FileSystemPath NativePath}
    (leftConcrete : left.isConcrete = true) (rightConcrete : right.isConcrete = true)
    (share : fileSystemPathsShareTarget left right = true) : left.target = right.target := by
  cases left with
  | globPattern pat => cases leftConcrete
  | path left =>
    cases right with
    | globPattern pat => cases rightConcrete
    | path right => exact of_decide_eq_true share
    | special val =>
      cases val <;> first | exact of_decide_eq_true share | cases rightConcrete
  | special val =>
    cases val with
    | root =>
      cases right with
      | globPattern pat => cases rightConcrete
      | path right => exact (of_decide_eq_true share).symm
      | special val => rfl
    | minimal | projectRoots | tmpdir | slashTmp | unknown => cases leftConcrete

section

variable {host : Host} {entries : List (FileSystemSandboxEntry NativePath)} {cwd : NativePath}

theorem metadataWriteDenial_eq_none (real : Concrete entries)
    (cwdClear : cwd.isOpaque = false) (clear : path.isOpaque = false) :
    (restricted entries).metadataWriteDenial posixOps (localPolicyContext host cwd) path = none ↔
      ∀ guard, firstGuard (targets entries) path = some guard →
        ∃ root, (root, .write) ∈ targets entries ∧ root <+: path ∧ InMetadata guard root := by
  have free : ¬ (restricted entries).kind ≠ .restricted := not_not.mpr rfl
  have scan : ((targets entries).filter fun ent => ent.2.canWrite).findSome?
      (fun ent => metadataAt posixOps path ent.1) =
        (writeRoots (targets entries)).findSome? (metadataAt posixOps path) := by
    rw [writeRoots, findSome?_map]
    rfl
  rw [metadataWriteDenial, if_neg free]
  dsimp only
  rw [resolvedEntries_of_concrete real cwdClear, scan]
  cases found : (writeRoots (targets entries)).findSome? (metadataAt posixOps path) with
  | none =>
    have unguarded : firstGuard (targets entries) path = none := by
      refine find?_eq_none.mpr fun root mem ins => ?_
      exact (metadataAt_eq_none clear).mp (findSome?_eq_none_iff.mp found root mem)
        (of_decide_eq_true ins)
    simp [unguarded]
  | some hit =>
    obtain ⟨guarded, name⟩ := hit
    obtain ⟨pre, guard, after, split, here, old⟩ := findSome?_eq_some_iff.mp found
    obtain ⟨known, rfl, above⟩ := (metadataAt_eq_some clear).mp here
    have fst : firstGuard (targets entries) path = some guard := by
      refine find?_eq_some_iff_append.mpr
        ⟨decide_eq_true ⟨name, known, above⟩, pre, after, split, fun root mem => ?_⟩
      simpa using (metadataAt_eq_none clear).mp (old root mem)
    have reopened : ((targets entries).any fun ent => ent.2.canWrite &&
        posixOps.startsWith path ent.1 && posixOps.startsWith ent.1 (guard ++ [name])) =
          true ↔ ∃ root, (root, .write) ∈ targets entries ∧ root <+: path ∧
            InMetadata guard root := by
      simp only [any_eq_true, Bool.and_eq_true, Prod.exists]
      constructor
      · rintro ⟨root, access, mem, ⟨writes, below⟩, inner⟩
        have le : root <+: path := (startsWith_iff clear).mp below
        have visible := clear_of_above clear le
        obtain rfl : access = .write := of_decide_eq_true writes
        exact ⟨root, mem, le, name, known, (startsWith_iff visible).mp inner⟩
      rintro ⟨root, mem, le, y, -, inner⟩
      obtain rfl := component_unique (inner.trans le) above
      have visible := clear_of_above clear le
      exact ⟨root, .write, mem, ⟨rfl, (startsWith_iff clear).mpr le⟩,
        (startsWith_iff visible).mpr inner⟩
    rw [fst]
    constructor
    · intro silent y eq
      cases eq
      apply reopened.mp
      by_contra shut
      exact Option.some_ne_none name ((if_neg shut).symm.trans silent)
    intro exempt
    exact if_pos (reopened.mpr (exempt guard rfl))

theorem canWritePathWithCwd_iff (real : Concrete entries) (cwdClear : cwd.isOpaque = false)
    (partly : (restricted entries).hasFullDiskWriteAccess posixTargets = false) :
    (restricted entries).canWritePathWithCwd host path cwd = true ↔
      path.isOpaque = false ∧ ∃ top, DecidesAt (targets entries) path top .write ∧
        firstGuard (targets entries) path ≠ some top := by
  rw [canWritePathWithCwd, partly, Bool.false_or, Bool.and_eq_true,
    Option.isNone_iff_eq_none, canWrite, decide_eq_true_eq]
  cases hidden : path.isOpaque with
  | true =>
    rw [resolveAccessWithCwd_of_opaquePath rfl (.inr hidden)]
    simp
  | false =>
    rw [resolveAccessWithCwd_of_concrete real cwdClear hidden,
      valueAt_eq_iff (by decide), metadataWriteDenial_eq_none real cwdClear hidden]
    constructor
    · rintro ⟨⟨top, dec⟩, exempt⟩
      exact ⟨rfl, top, dec, (exempt_iff dec).mp exempt⟩
    rintro ⟨-, top, dec, y⟩
    exact ⟨⟨top, dec⟩, (exempt_iff dec).mpr y⟩

theorem decided_of_fullDisk (real : Concrete entries)
    (full : (restricted entries).hasFullDiskWriteAccess posixTargets = true) :
    ∃ top, DecidesAt (targets entries) path top .write := by
  obtain ⟨rooted, wide⟩ : (restricted entries).hasRootAccess
      canWrite = true ∧ (!(restricted entries).hasWriteNarrowingEntries posixTargets) = true :=
    Bool.and_eq_true_iff.mp full
  have whole : ([], write) ∈ targets entries := by
    obtain ⟨ent, mem, grants⟩ := List.any_eq_true.mp (Bool.and_eq_true_iff.mp rooted).2
    obtain ⟨named, writes⟩ := Bool.and_eq_true_iff.mp grants
    refine List.mem_map.mpr ⟨ent, mem, ?_⟩
    rw [of_decide_eq_true named, of_decide_eq_true writes]
    rfl
  obtain ⟨top, access, dec⟩ := exists_decidesAt whole (List.nil_prefix (l := path))
  by_cases permitted : access = .write
  · exact ⟨top, permitted ▸ dec⟩
  -- A deciding entry of another kind is below no write entry for its place, and so narrows.
  have unopposed : (top, write) ∈ targets entries → access = .deny := by
    intro opposed
    rcases dec.2.2 top .write opposed dec.2.1 with lt | ⟨-, weaker⟩
    · exact absurd lt (lt_irrefl _)
    cases access with
    | read => exact absurd weaker (by decide)
    | write => exact absurd rfl permitted
    | deny => rfl
  obtain ⟨ent, mem, eq⟩ := List.mem_map.mp dec.1
  cases eq
  have alone : (restricted entries).hasSameTargetWriteOverride posixTargets ent = false := by
    refine List.any_eq_false.mpr fun cand present overrides => ?_
    simp only [Bool.and_eq_true, decide_eq_true_eq] at overrides
    obtain ⟨⟨writes, weaker⟩, share⟩ := overrides
    have writes : cand.access = .write := of_decide_eq_true writes
    have opposed : (ent.path.target, write) ∈ targets entries :=
      List.mem_map.mpr ⟨cand, present, by
        rw [target_eq_of_share (real cand present) (real ent mem) share, writes]⟩
    rw [unopposed opposed, writes] at weaker
    exact absurd weaker (by decide)
  have narrow : (restricted entries).narrowsWrite posixTargets ent = true := by
    have y : ent.access.canWrite = false := decide_eq_false permitted
    have named := real ent mem
    rw [narrowsWrite, y]
    cases path : ent.path with
    | path place => simp [alone]
    | globPattern pat => rfl
    | special val =>
      rw [path] at named unopposed
      cases val with
      | root => exact decide_eq_true (unopposed whole)
      | minimal | projectRoots | tmpdir | slashTmp | unknown => cases named
  have narrows : (restricted entries).hasWriteNarrowingEntries posixTargets = true :=
    List.any_eq_true.mpr ⟨ent, mem, narrow⟩
  rw [narrows] at wide
  cases wide

variable (real : Concrete entries) (cwdClear : cwd.isOpaque = false)
  (partly : (restricted entries).hasFullDiskWriteAccess posixTargets = false)
include real cwdClear partly

theorem canWrite_place_iff
    (mem : (path, access) ∈ targets entries) :
    (restricted entries).canWritePathWithCwd host path cwd = true ↔
      OpenAt (targets entries) path := by
  rw [canWritePathWithCwd_iff real cwdClear partly, OpenAt]
  simp only [decidesAt_place_iff mem]
  constructor
  · rintro ⟨clear, top, ⟨-, free⟩, -⟩
    exact ⟨clear, free⟩
  rintro ⟨clear, free⟩
  exact ⟨clear, path, ⟨rfl, free⟩, firstGuard_ne_self⟩

theorem canWrite_child_iff (reaches : Reaches (targets entries) root path)
    (known : name ∈ protectedMetadataPathNames) (above : root ++ [name] <+: path) :
    (restricted entries).canWritePathWithCwd host (root ++ [name]) cwd = true ↔
      (∃ access, (root ++ [name], access) ∈ targets entries) ∨
        firstGuard (targets entries) (root ++ [name]) ≠ some root := by
  by_cases named : ∃ access, (root ++ [name], access) ∈ targets entries
  · obtain ⟨access, mem⟩ := named
    rw [canWrite_place_iff real cwdClear partly mem]
    exact iff_of_true (reaches.openAt_child known above mem) (.inl ⟨access, mem⟩)
  obtain ⟨⟨clear, free⟩, -, -⟩ := reaches
  have dec : DecidesAt (targets entries) (root ++ [name]) root .write :=
    (decidesAt_self_iff.mpr free).at_child fun access mem => named ⟨access, mem⟩
  rw [canWritePathWithCwd_iff real cwdClear partly, isOpaque_child known, or_iff_right named]
  constructor
  · rintro ⟨-, top, tops, y⟩
    exact dec.unique tops ▸ y
  intro y
  exact ⟨clear, root, dec, y⟩

theorem mem_writableEntries : root ∈ (restricted entries).writableEntries
    host cwd ↔ OpenAt (targets entries) root := by
  rw [writableEntries, resolvedEntriesWithCwd_of_concrete real]
  simp only [mem_map, mem_filter, Bool.and_eq_true, Prod.exists]
  constructor
  · rintro ⟨place, access, ⟨mem, -, writable⟩, rfl⟩
    exact (canWrite_place_iff real cwdClear partly mem).mp writable
  intro opens
  exact ⟨root, .write, ⟨opens.2.1, rfl,
    (canWrite_place_iff real cwdClear partly opens.2.1).mpr opens⟩, rfl⟩

section

variable {tree : FileTree} (plain : tree.Plain)
include plain

omit real cwdClear partly in
theorem eq_of_mem_rawWritableRoots {places : List NativePath} {place : NativePath}
    (mem : place ∈ places.filter fun place => tree.normalizeEffective place = root) :
    place = root := by
  have resolved := of_decide_eq_true (mem_filter.mp mem).2
  rw [plain.normalizeEffective_eq] at resolved
  exact resolved

theorem mem_readOnlySubpaths {subpath : NativePath} :
    subpath ∈ ((restricted entries).writableRootAt host tree
        tree.normalizeEffective cwd root).readOnlySubpaths ↔
      (∃ name ∈ protectedMetadataPathNames, subpath = root ++ [name] ∧
        (∀ access, (root ++ [name], access) ∉ targets entries) ∧ Kept tree cwd root name) ∨
      ∃ access, (subpath, access) ∈ targets entries ∧ access ≠ .write ∧
        ¬ OpenAt (targets entries) subpath ∧ root <+: subpath ∧ subpath ≠ root := by
  rw [writableRootAt, dedupAbsolutePaths, mem_extend_iff (fun _ _ => decide_eq_true_iff)]
  simp only [not_mem_nil, false_or, mem_append, plain.normalizeEffective_eq cwd,
    resolvedEntriesWithCwd_of_concrete real]
  apply or_congr
  · rw [mem_filter, mem_defaultReadOnlySubpaths plain]
    have silent : (!hasExplicitResolvedPathEntry (targets entries) subpath) = true ↔
        ∀ access, (subpath, access) ∉ targets entries := by
      rw [hasExplicitResolvedPathEntry, Bool.not_eq_true', any_eq_false]
      constructor
      · intro y access mem
        exact y (subpath, access) mem (decide_eq_true rfl)
      rintro absent ⟨place, access⟩ mem eq
      exact absent access (of_decide_eq_true eq ▸ mem)
    rw [silent]
    constructor
    · rintro ⟨⟨name, known, rfl, kept⟩, absent⟩
      exact ⟨name, known, rfl, absent, kept⟩
    rintro ⟨name, known, rfl, absent, kept⟩
    exact ⟨⟨name, known, rfl, kept⟩, absent⟩
  simp only [mem_filterMap, mem_filter, Bool.and_eq_true, Prod.exists,
    carveoutPath_of_plain plain.normalizeEffective_eq
      fun place mem => eq_of_mem_rawWritableRoots plain mem]
  constructor
  · rintro ⟨place, access, ⟨mem, y, shut⟩, hit⟩
    split_ifs at hit with below
    cases hit
    refine ⟨access, mem, by simpa [canWrite] using y, ?_, below⟩
    rw [← canWrite_place_iff real cwdClear partly mem]
    simpa using shut
  rintro ⟨access, mem, y, shut, below⟩
  rw [← canWrite_place_iff real cwdClear partly mem] at shut
  exact ⟨subpath, access, ⟨mem, by simpa [canWrite] using y,
    by simpa using shut⟩, if_pos below⟩

omit real cwdClear partly in
theorem mem_protectedMetadataNames :
    name ∈ ((restricted entries).writableRootAt host tree
        tree.normalizeEffective cwd root).protectedMetadataNames ↔
      name ∈ protectedMetadataPathNames ∧ ¬ (restricted
        entries).canWritePathWithCwd host (root ++ [name]) cwd = true := by
  rw [writableRootAt, protectedMetadataNamesForWritableRoot, mem_filter]
  refine and_congr_right fun _ => ?_
  rw [all_cons, Bool.and_eq_true, Bool.not_eq_true', Bool.not_eq_true]
  refine and_iff_left_of_imp fun shut => List.all_eq_true.mpr fun place mem => ?_
  obtain ⟨raw, present, rfl⟩ := List.mem_map.mp mem
  rw [eq_of_mem_rawWritableRoots plain present, shut]
  rfl

theorem writableRootAt_isPathWritable_iff (opens : OpenAt (targets entries) root) :
    ((restricted entries).writableRootAt host tree
        tree.normalizeEffective cwd root).isPathWritable path = true ↔
      Reaches (targets entries) root path ∧ ¬ Shields tree cwd (targets entries) root path := by
  rw [WritableRoot.isPathWritable_iff]
  constructor
  · rintro ⟨above, free, unnamed⟩
    have reaches : Reaches (targets entries) root path := by
      refine ⟨opens, above, fun place access mem y below inner => ?_⟩
      by_contra shut
      have proper : place ≠ root := fun eq => shut (eq ▸ opens)
      exact free place ((mem_readOnlySubpaths real cwdClear partly plain).mpr
        (.inr ⟨access, mem, y, shut, below, proper⟩)) inner
    refine ⟨reaches, ?_⟩
    rintro ⟨name, known, ins, absent, fst | kept⟩
    · refine unnamed name ((mem_protectedMetadataNames plain).mpr ⟨known, ?_⟩) ins
      rw [canWrite_child_iff real cwdClear partly reaches known ins, not_or, not_not]
      exact ⟨fun ⟨access, mem⟩ => absent access mem, fst⟩
    exact free _ ((mem_readOnlySubpaths real cwdClear partly plain).mpr
      (.inl ⟨name, known, rfl, absent, kept⟩)) ins
  rintro ⟨reaches, bare⟩
  refine ⟨reaches.2.1, fun subpath mem ins => ?_, fun name mem ins => ?_⟩
  · rcases (mem_readOnlySubpaths real cwdClear partly plain).mp mem with
      ⟨name, known, rfl, absent, kept⟩ | ⟨access, present, y, shut, below, -⟩
    · exact bare ⟨name, known, ins, absent, .inr kept⟩
    · exact shut (reaches.2.2 subpath access present y below ins)
  obtain ⟨known, shut⟩ := (mem_protectedMetadataNames plain).mp mem
  have ins : root ++ [name] <+: path := ins
  rw [canWrite_child_iff real cwdClear partly reaches known ins, not_or, not_not] at shut
  exact bare ⟨name, known, ins, fun access present => shut.1 ⟨access, present⟩, .inl shut.2⟩

theorem exists_writableRoot_iff :
    (∃ writable ∈ (restricted entries).getWritableRootsWithCwd host tree
        cwd, writable.isPathWritable path = true) ↔
      ∃ root, Reaches (targets entries) root path ∧
        ¬ Shields tree cwd (targets entries) root path := by
  have listed : ∀ root, root ∈ dedupAbsolutePaths (((restricted
      entries).writableEntries host cwd).map tree.normalizeEffective) ↔
        OpenAt (targets entries) root := by
    intro root
    rw [dedupAbsolutePaths, mem_extend_iff (fun _ _ => decide_eq_true_iff),
      funext plain.normalizeEffective_eq]
    simp [mem_writableEntries real cwdClear partly]
  rw [getWritableRootsWithCwd, getWritableRootsWithCwdImpl, partly, if_neg Bool.false_ne_true]
  constructor
  · rintro ⟨writable, mem, leaves⟩
    obtain ⟨root, present, rfl⟩ := List.mem_map.mp mem
    exact ⟨root, (writableRootAt_isPathWritable_iff real cwdClear partly plain
      ((listed root).mp present)).mp leaves⟩
  rintro ⟨root, reaches, bare⟩
  exact ⟨_, mem_map_of_mem ((listed root).mpr reaches.1),
    (writableRootAt_isPathWritable_iff real cwdClear partly plain reaches.1).mpr
      ⟨reaches, bare⟩⟩

end

end

section

variable {host : Host} {tree : FileTree} {entries : List (FileSystemSandboxEntry NativePath)}
  {cwd : NativePath}

theorem canWrite_of_opaquePath (hidden : cwd.isOpaque = true ∨ path.isOpaque = true) :
    (restricted entries).canWritePathWithCwd host path cwd = false := by
  rw [canWritePathWithCwd, resolveAccessWithCwd_of_opaquePath rfl hidden]
  rfl

theorem getWritableRoots_of_opaque (hidden : cwd.isOpaque = true) :
    (restricted entries).getWritableRootsWithCwd host tree cwd = [] := by
  have none : (restricted entries).writableEntries host cwd = [] := by
    rw [writableEntries, map_eq_nil_iff, filter_eq_nil_iff]
    intro ent _
    simp [canWrite_of_opaquePath (.inl hidden)]
  rw [getWritableRootsWithCwd, getWritableRootsWithCwdImpl, none]
  exact ite_self _

theorem canWrite_of_fullDisk (real : Concrete entries)
    (full : (restricted entries).hasFullDiskWriteAccess posixTargets = true) :
    (restricted entries).canWritePathWithCwd host path cwd = true ↔
      cwd.isOpaque = false ∧ path.isOpaque = false := by
  constructor
  · intro writable
    constructor <;> by_contra hidden <;> rw [Bool.not_eq_false] at hidden
    · rw [canWrite_of_opaquePath (.inl hidden)] at writable
      cases writable
    rw [canWrite_of_opaquePath (.inr hidden)] at writable
    cases writable
  rintro ⟨cwdClear, clear⟩
  rw [canWritePathWithCwd, full, Bool.true_or, Bool.and_true,
    resolveAccessWithCwd_of_concrete real cwdClear clear,
    (valueAt_eq_iff (by decide)).mpr (decided_of_fullDisk real full)]
  rfl

/-- Where the two readings of a policy agree about a path. -/
def RootsAgree (tree : FileTree) (entries : List (FileSystemSandboxEntry NativePath))
    (cwd path : NativePath) : Prop :=
  if (restricted entries).hasFullDiskWriteAccess posixTargets then
    cwd.isOpaque = false ∧ path.isOpaque = false
  else cwd.isOpaque = false → (path.isOpaque = true → ∀ root, Reaches (targets entries) root path →
      Shields tree cwd (targets entries) root path) ∧
    (path.isOpaque = false → ∀ top, DecidesAt (targets entries) path top .write →
      InMetadata top path →
      (firstGuard (targets entries) path = some top → ∀ root, Reaches (targets entries) root path →
        Shields tree cwd (targets entries) root path) ∧
      (firstGuard (targets entries) path ≠ some top → ∃ root, Reaches (targets entries) root path ∧
        ¬ Shields tree cwd (targets entries) root path))

theorem agree_iff_of_clear (clear : path.isOpaque = false) :
    ((∃ top, DecidesAt named path top .write ∧ firstGuard named path ≠ some top) ↔
      ∃ root, Reaches named root path ∧ ¬ Shields tree cwd named root path) ↔
    ∀ top, DecidesAt named path top .write → InMetadata top path →
      (firstGuard named path = some top →
        ∀ root, Reaches named root path → Shields tree cwd named root path) ∧
      (firstGuard named path ≠ some top →
        ∃ root, Reaches named root path ∧ ¬ Shields tree cwd named root path) := by
  constructor
  · intro agree top dec _
    constructor
    · intro fst root reaches
      by_contra bare
      obtain ⟨y, dec', unguarded⟩ := agree.mpr ⟨root, reaches, bare⟩
      exact unguarded (dec.unique dec' ▸ fst)
    intro unguarded
    exact agree.mp ⟨top, dec, unguarded⟩
  intro cond
  constructor
  · rintro ⟨top, dec, unguarded⟩
    by_cases ins : InMetadata top path
    · exact (cond top dec ins).2 unguarded
    refine ⟨top, .of_decides clear dec, ?_⟩
    rintro ⟨name, known, above, -⟩
    exact ins ⟨name, known, above⟩
  rintro ⟨root, reaches, bare⟩
  obtain ⟨top, dec⟩ := reaches.decided
  refine ⟨top, dec, fun fst => bare ?_⟩
  exact (cond top dec (firstGuard_eq_some fst).2).1 fst root reaches

/-- The writable roots describe the writable paths exactly where the readings agree. -/
theorem writable_roots_exact_iff {policy : FileSystemSandboxPolicy NativePath}
    (restricted : policy.kind = .restricted) (real : Concrete policy.entries) (plain : tree.Plain) :
    ((policy.hasFullDiskWriteAccess posixTargets = true →
        policy.canWritePathWithCwd host path cwd = true) ∧
      (policy.hasFullDiskWriteAccess posixTargets = false →
        (policy.canWritePathWithCwd host path cwd = true ↔
          ∃ writable ∈ policy.getWritableRootsWithCwd host tree cwd,
            writable.isPathWritable path = true))) ↔
      RootsAgree tree policy.entries cwd path := by
  obtain ⟨kind, depth, entries⟩ := policy
  obtain rfl : kind = .restricted := restricted
  change (((restricted entries).hasFullDiskWriteAccess posixTargets = true →
      (restricted entries).canWritePathWithCwd host path cwd = true) ∧
    ((restricted entries).hasFullDiskWriteAccess posixTargets = false →
      ((restricted entries).canWritePathWithCwd host path cwd = true ↔
        ∃ writable ∈ (restricted entries).getWritableRootsWithCwd host tree
          cwd, writable.isPathWritable path = true))) ↔ RootsAgree tree entries cwd path
  replace real : Concrete entries := real
  rw [RootsAgree]
  by_cases full : (restricted entries).hasFullDiskWriteAccess posixTargets = true
  · rw [if_pos full, canWrite_of_fullDisk real full]
    simp [full]
  rw [if_neg full]
  rw [Bool.not_eq_true] at full
  cases cwdClear : cwd.isOpaque with
  | true =>
    rw [canWrite_of_opaquePath (.inl cwdClear), getWritableRoots_of_opaque cwdClear]
    simp [full]
  | false =>
    rw [exists_writableRoot_iff real cwdClear full plain,
      canWritePathWithCwd_iff real cwdClear full]
    simp only [full, Bool.false_eq_true, false_implies, true_and, true_implies]
    cases hidden : path.isOpaque with
    | true => simp
    | false => simpa using agree_iff_of_clear hidden

def directoryTree (directories : List NativePath) : FileTree where
  isDir path := path ∈ directories
  isFile _ := false
  resolveGitdirFromFile _ := none
  normalizeEffective path := path

theorem directoryTree_plain (directories : List NativePath) : (directoryTree directories).Plain :=
  ⟨fun _ => rfl, fun _ => rfl⟩

/-- In a repository that is the working directory, its metadata is neither writable nor left so. -/
theorem writable_roots_exact_repository :
    RootsAgree (directoryTree [["a", ".git"]])
      [pathEntry ["a"] .write, pathEntry ["a", "docs"] .read] ["a"] ["a", ".git", "config"] := by
  have real : Concrete [pathEntry ["a"] .write,
      pathEntry ["a", "docs"] .read] := by
    simp [Concrete, pathEntry, FileSystemPath.isConcrete]
  exact (@writable_roots_exact_iff _ plainHost _ _ (restricted _) rfl
    real (directoryTree_plain _)).mp (by decide +kernel)

/-- The metadata of an inner root may not be written, but the outer root leaves it writable. -/
theorem writable_roots_leave_inner_metadata :
    let policy := restricted
      [pathEntry ["a".toList] .write, pathEntry ["a".toList, "b".toList] .write]
    let path := ["a".toList, "b".toList, ".git".toList, "config".toList]
    policy.hasFullDiskWriteAccess posixTargets = false ∧
      policy.canWritePathWithCwd plainHost path ["a".toList] = false ∧
      ∃ writable ∈ policy.getWritableRootsWithCwd plainHost (directoryTree []) ["a".toList],
        writable.isPathWritable path = true := by
  decide +kernel

end

end Codex.Permissions
