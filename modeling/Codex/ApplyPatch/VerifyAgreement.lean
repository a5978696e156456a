import Codex.ApplyPatch.DeltaExact
import Codex.Foundation.Edits

/-!
# Verification and application

Verification and application follow the same edits of the file map.
-/

namespace Codex.ApplyPatch

inductive ApplyPatchFileChange (P : Type)
  | add (content : Text)
  | delete (content : Text)
  | update (unifiedDiff : Text) (movePath : Option P) (newContent : Text)

structure ApplyPatchAction (P : Type) where
  changes : Map P (ApplyPatchFileChange P)
  updateFileMode : ApplyPatchFileUpdateMode
  patch : Text
  cwd : P

structure ApplyPatchFileUpdate where
  unifiedDiff : Text
  originalContent : Text
  content : Text

section

variable {P : Type} [DecidableEq P] (api : PathApi P) (faults : Faults)
  (unifiedDiff : (contextRadius : Nat) → (old new : Text) → Text)

def unifiedDiffFromChunksWithContextAndMode (path : P) (chunks : List UpdateFileChunk)
    (ctx : Nat) (mode : ApplyPatchFileUpdateMode) :
    EStateM ApplyPatchError (FileSystem P) ApplyPatchFileUpdate := do
  let applied ← deriveNewContentsFromChunks api faults path chunks mode
  return {
    unifiedDiff := unifiedDiff ctx applied.originalContents applied.newContents
    originalContent := applied.originalContents
    content := applied.newContents }

def unifiedDiffFromChunksWithMode (path : P) (chunks : List UpdateFileChunk)
    (mode : ApplyPatchFileUpdateMode) :
    EStateM ApplyPatchError (FileSystem P) ApplyPatchFileUpdate :=
  unifiedDiffFromChunksWithContextAndMode api faults unifiedDiff path chunks 1 mode

def resolve (cwd : P) (path : Text) : EStateM ApplyPatchError (FileSystem P) P :=
  mapError .pathUri (liftExcept (api.join cwd path))

/-- The outcome of a hunk that operates on `path`. -/
def verifyChange (mode : ApplyPatchFileUpdateMode) (cwd path : P) :
    Hunk → EStateM ApplyPatchError (FileSystem P) (ApplyPatchFileChange P)
  | .addFile _ texts => return .add texts
  | .deleteFile _ => do
      let content ← mapError
        (.ioError ("Failed to read " ++ api.inferredNativePathString path))
        (FileSystem.readFileText faults path)
      return .delete content
  | .updateFile _ movePath chunks => do
      let update ← unifiedDiffFromChunksWithMode api faults unifiedDiff path chunks mode
      match movePath with
      | none => return .update update.unifiedDiff none update.content
      | some movePath =>
        let target ← resolve api cwd movePath
        return .update update.unifiedDiff (some target) update.content

def verifyHunk (mode : ApplyPatchFileUpdateMode) (cwd : P)
    (changes : Map P (ApplyPatchFileChange P)) (hunk : Hunk) :
    EStateM ApplyPatchError (FileSystem P) (Map P (ApplyPatchFileChange P)) := do
  let path ← mapError .pathUri (liftExcept (hunk.resolvePath api cwd))
  if (changes.lookup path).isSome then
    throwThe ApplyPatchError (.parseError (.invalidPatchError
      ("multiple operations target " ++ api.inferredNativePathString path)))
  else
    let change ← verifyChange api faults unifiedDiff mode cwd path hunk
    return changes.insert path change

def effectiveCwd (cwd : P) : Option Text → EStateM ApplyPatchError (FileSystem P) P
  | none => return cwd
  | some dir => resolve api cwd dir

def tryVerifyApplyPatchArgs (args : ApplyPatchArgs) (cwd : P) (mode : ApplyPatchFileUpdateMode) :
    EStateM ApplyPatchError (FileSystem P) (ApplyPatchAction P) := do
  let cwd ← effectiveCwd api cwd args.workdir
  let changes ← args.hunks.foldlM (verifyHunk api faults unifiedDiff mode cwd) ∅
  return { changes, updateFileMode := mode, patch := args.patch, cwd }

end

/-- The final files are as the changes of the action announce. -/
structure ApplyPatchAction.CarriedOut {P : Type} [DecidableEq P] (act : ApplyPatchAction P)
    (init final : Map P Text) : Prop where
  added : ∀ path content, act.changes.lookup path = some (.add content) →
    final.lookup path = some content
  deleted : ∀ path content, act.changes.lookup path = some (.delete content) →
    final.lookup path = none
  updated : ∀ path unifiedDiff newContent,
    act.changes.lookup path = some (.update unifiedDiff none newContent) →
    final.lookup path = some newContent
  moved : ∀ path unifiedDiff target newContent,
    act.changes.lookup path = some (.update unifiedDiff (some target) newContent) →
    final.lookup target = some newContent
  vacated : ∀ path unifiedDiff target newContent,
    act.changes.lookup path = some (.update unifiedDiff (some target) newContent) →
    target ≠ path → final.lookup path = none
  unchanged : ∀ path, act.changes.lookup path = none → (∀ source unifiedDiff newContent,
      act.changes.lookup source ≠ some (.update unifiedDiff (some path) newContent)) →
    final.lookup path = init.lookup path

open List Option Triple

variable {P : Type} [DecidableEq P]

def updateChange (api : PathApi P) (mode : ApplyPatchFileUpdateMode) (path : P)
    (chunks : List UpdateFileChunk) (text : Text) : Option Text :=
  (newContentsOf (api.inferredNativePathString path) chunks mode text).toOption

def Hunk.edit (api : PathApi P) (mode : ApplyPatchFileUpdateMode) (cwd : P) (hunk : Hunk) :
    Except Text (Edit P Text) := do
  let path ← hunk.resolvePath api cwd
  match hunk with
  | .addFile _ texts => return .write path texts
  | .deleteFile _ => return .remove path
  | .updateFile _ none chunks => return .rewrite path (updateChange api mode path chunks)
  | .updateFile _ (some movePath) chunks => do
      let dest ← api.join cwd movePath
      return .move path dest (updateChange api mode path chunks)

def patchEdits (api : PathApi P) (mode : ApplyPatchFileUpdateMode) (cwd : P) (hunks : List Hunk) :
    List (Edit P Text) :=
  hunks.filterMap fun hunk => (hunk.edit api mode cwd).toOption

inductive Shows (init : Map P Text) : Edit P Text → ApplyPatchFileChange P → Prop
  | write (path body) : Shows init (.write path body) (.add body)
  | remove (path body) (found : init.lookup path = some body) :
      Shows init (.remove path) (.delete body)
  | rewrite (path change unifiedDiff newContent)
      (computed : init.lookup path >>= change = some newContent) :
      Shows init (.rewrite path change) (.update unifiedDiff none newContent)
  | move (path dest change unifiedDiff newContent)
      (computed : init.lookup path >>= change = some newContent) :
      Shows init (.move path dest change)
        (.update unifiedDiff (some dest) newContent)

theorem Shows.run_isSome {init : Map P Text} {edit : Edit P Text}
    {change : ApplyPatchFileChange P} (shows : Shows init edit change) :
    (edit.run init).isSome = true := by
  cases shows with
  | write => rfl
  | remove path body hit => simp [Edit.run, hit]
  | rewrite path change unifiedDiff newContent made =>
    rw [Edit.run, made]
    rfl
  | move path dest change unifiedDiff newContent made =>
    rw [Edit.run, made]
    rfl

structure Described (init : Map P Text) (edits : List (Edit P Text))
    (changes : Map P (ApplyPatchFileChange P)) : Prop where
  distinct : (edits.map Edit.key).Nodup
  shown : ∀ edit ∈ edits, ∃ change, changes.lookup edit.key = some change ∧ Shows init edit change
  complete : ∀ path change, changes.lookup path = some change → ∃ edit ∈ edits,
    edit.key = path ∧ Shows init edit change

open Map

namespace Described

variable {init final : Map P Text} {edits : List (Edit P Text)}
  {changes : Map P (ApplyPatchFileChange P)}

theorem nil : Described init [] ∅ where
  distinct := nodup_nil
  shown edit mem := by cases mem
  complete path change found := by simp at found

theorem concat (desc : Described init edits changes) {edit : Edit P Text}
    {change : ApplyPatchFileChange P} (fresh : changes.lookup edit.key = none)
    (shows : Shows init edit change) :
    Described init (edits ++ [edit]) (changes.insert edit.key change) := by
  have y (old : Edit P Text) (mem : old ∈ edits) : old.key ≠ edit.key := by
    intro eq
    obtain ⟨_, hit, -⟩ := desc.shown old mem
    rw [eq, fresh] at hit
    cases hit
  refine ⟨?_, ?_, ?_⟩
  · rw [map_append, map_singleton, ← concat_eq_append, nodup_concat]
    refine ⟨fun mem => ?_, desc.distinct⟩
    obtain ⟨old, memberOld, eq⟩ := List.mem_map.mp mem
    exact y old memberOld eq
  · intro old mem
    rcases mem_append.mp mem with mem | mem
    · obtain ⟨shown, hit, showsOld⟩ := desc.shown old mem
      exact ⟨shown, by rw [lookup_insert, if_neg (y old mem), hit], showsOld⟩
    obtain rfl := mem_singleton.mp mem
    exact ⟨change, by rw [lookup_insert, if_pos rfl], shows⟩
  intro path shown hit
  obtain ⟨rfl, rfl⟩ | ⟨-, hit⟩ := of_lookup_insert hit
  · exact ⟨edit, by simp, rfl, shows⟩
  obtain ⟨old, mem, eq, showsOld⟩ := desc.complete path shown hit
  exact ⟨old, by simp [mem], eq, showsOld⟩

theorem previewed (desc : Described init edits changes) : Previewed init edits where
  distinct := desc.distinct
  valid edit mem := by
    obtain ⟨_, -, shows⟩ := desc.shown edit mem
    exact shows.run_isSome

theorem carriedOut_iff {act : ApplyPatchAction P} (desc : Described init edits act.changes) :
    act.CarriedOut init final ↔ CarriedOut init edits final := by
  constructor
  · intro carried
    refine ⟨?_, ?_, ?_⟩
    · rintro edit mem k val ⟨tgt, preview⟩
      obtain ⟨change, hit, shows⟩ := desc.shown edit mem
      cases shows with
      | write path body =>
        obtain rfl := some.inj tgt
        obtain rfl := some.inj preview
        exact carried.added _ _ hit
      | remove => cases tgt
      | rewrite path change unifiedDiff newContent made =>
        obtain rfl := some.inj tgt
        obtain rfl := some.inj (made.symm.trans preview)
        exact carried.updated _ _ _ hit
      | move path dest change unifiedDiff newContent made =>
        obtain rfl := some.inj tgt
        obtain rfl := some.inj (made.symm.trans preview)
        exact carried.moved _ _ _ _ hit
    · intro edit mem k clears
      obtain rfl := Edit.key_of_clears clears
      obtain ⟨change, hit, shows⟩ := desc.shown edit mem
      cases shows with
      | write | rewrite => cases clears
      | remove => exact carried.deleted _ _ hit
      | move path dest change unifiedDiff newContent made =>
        refine carried.vacated path _ _ _ hit fun eq => ?_
        rw [Edit.clears, if_pos eq.symm] at clears
        cases clears
    intro k avoid
    refine carried.unchanged k ?_ ?_
    · by_contra some
      obtain ⟨change, hit⟩ := ne_none_iff_exists'.mp some
      obtain ⟨edit, mem, eq, -⟩ := desc.complete k change hit
      exact (avoid edit mem).1 eq
    intro src unifiedDiff newContent hit
    obtain ⟨edit, mem, -, shows⟩ := desc.complete src _ hit
    cases shows
    exact (avoid _ mem).2 rfl
  intro carried
  refine ⟨?_, ?_, ?_, ?_, ?_, ?_⟩
  · intro path body hit
    obtain ⟨edit, mem, rfl, shows⟩ := desc.complete path _ hit
    cases shows
    exact carried.left _ mem _ _ ⟨rfl, rfl⟩
  · intro path body hit
    obtain ⟨edit, mem, rfl, shows⟩ := desc.complete path _ hit
    cases shows
    exact carried.cleared _ mem _ rfl
  · intro path unifiedDiff newContent hit
    obtain ⟨edit, mem, rfl, shows⟩ := desc.complete path _ hit
    cases shows with
    | rewrite path change unifiedDiff newContent made =>
      exact carried.left _ mem _ _ ⟨rfl, made⟩
  · intro path unifiedDiff dest newContent hit
    obtain ⟨edit, mem, rfl, shows⟩ := desc.complete path _ hit
    cases shows with
    | move path dest change unifiedDiff newContent made =>
      exact carried.left _ mem _ _ ⟨rfl, made⟩
  · intro path unifiedDiff dest newContent hit y
    obtain ⟨edit, mem, rfl, shows⟩ := desc.complete path _ hit
    cases shows
    exact carried.cleared _ mem _ (if_neg (Ne.symm y))
  intro path same noTarget
  refine carried.unchanged path fun edit mem => ?_
  obtain ⟨change, hit, shows⟩ := desc.shown edit mem
  have otherKey : edit.key ≠ path := by
    rintro rfl
    cases same.symm.trans hit
  refine ⟨otherKey, fun tgt => ?_⟩
  cases shows with
  | write | rewrite => exact otherKey (some.inj tgt)
  | remove => cases tgt
  | move src dest change unifiedDiff newContent made =>
    cases tgt
    exact noTarget _ _ _ hit

end Described

/-- Without faults the operation leads to `result` and `fact`, or fails because of `reason`. -/
def Runs {ε α : Type} (files : Map P Text) (program : EStateM ε (FileSystem P) α)
    (res : Map P Text) (fact : α → Prop) (reason : Prop) : Prop :=
  Triple (fun system => system.files = files) program
    (fun value system => system.files = res ∧ fact value) (fun _ _ => reason)

open Except FileSystem

section

variable {api : PathApi P} {files : Map P Text} {path : P}

theorem runs_getMetadata : Runs files (getMetadata {} path) files
      (fun metadata => metadata.isDirectory = false ∧ files.lookup path ≠ none)
      (files.lookup path = none) := by
  intro system same
  unfold getMetadata
  subst same
  cases hit : system.files.lookup path with
  | none => rfl
  | some text => exact ⟨rfl, rfl, fun missing => by cases missing⟩

theorem runs_ensureNotDirectory :
    Runs files (ensureNotDirectory {} path) files (fun _ => files.lookup path ≠ none)
      (files.lookup path = none) := by
  refine bind runs_getMetadata fun metadata => ?_
  refine Triple.assume fun ⟨regular, exists_⟩ => ?_
  rw [regular]
  exact pure fun _ same => ⟨same, exists_⟩

theorem runs_readFileText :
    Runs files (readFileText {} path) files (fun txt => files.lookup path = some txt)
      (files.lookup path = none) := by
  intro system eq
  unfold readFileText
  subst eq
  cases hit : system.files.lookup path with
  | some txt => exact ⟨rfl, rfl⟩
  | none => rfl

theorem runs_writeFile (texts : Text) :
    Runs files (writeFile {} path texts) (files.insert path texts) (fun _ => True) False := by
  intro system eq
  unfold writeFile
  exact ⟨congrArg (Finmap.insert path texts) eq, trivial⟩

theorem runs_remove : Runs files (remove {} path) (files.erase path) (fun _ => True)
      (files.lookup path = none) := by
  intro system eq
  unfold remove
  subst eq
  cases hit : system.files.lookup path with
  | none => rfl
  | some txt => exact ⟨rfl, trivial⟩

theorem runs_deriveNewContents {chunks : List UpdateFileChunk} {mode : ApplyPatchFileUpdateMode} :
    Runs files (deriveNewContentsFromChunks api {} path chunks mode) files
      (fun applied => files.lookup path = some applied.originalContents ∧
        updateChange api mode path chunks applied.originalContents = some applied.newContents)
      (files.lookup path >>= updateChange api mode path chunks = none) := by
  refine bind (Triple.mapError (runs_readFileText.weakenFailed
    fun _ _ missing => by rw [missing]; rfl)) fun originalContents => ?_
  refine Triple.assume fun hit => ?_
  refine bind (Triple.liftExcept.weakenFailed fun _ _ refused => ?_) fun newContents => ?_
  · rw [hit]
    exact congrArg Except.toOption refused.2
  refine Triple.assume fun made => ?_
  exact pure fun _ eq => ⟨eq, hit, congrArg Except.toOption made⟩

end

def HasFiles (files : Map P Text) (state : ApplyState P) : Prop := state.fileSystem.files = files

section

variable {api : PathApi P} {files : Map P Text} {path : P}
  {failed : ApplyFailure → ApplyState P → Prop}
  {α : Type} {res : Map P Text} {dest : P} {originalContents newContents : Text}
  {hunk : Hunk}

omit [DecidableEq P] in
theorem HasFiles.of_within {program : ApplyM P α}
    (triples : ∀ delta, Triple (Within files delta) program
      (fun _ st => ∃ sharper, Within files sharper st) failed) :
    Triple (HasFiles files) program (fun _ => HasFiles files) failed :=
  fun st eq => (triples st.delta).weaken (fun _ _ ⟨_, le⟩ => le.files) st
    ⟨eq, rfl, fun claimed => claimed⟩

omit [DecidableEq P] in
theorem Runs.onFiles {ε : Type} {program : EStateM ε (FileSystem P) α} {fact : α → Prop}
    {reason : Prop} (runs : Runs files program res fact reason) :
    Triple (HasFiles files) (onFiles program)
      (fun val st => HasFiles res st ∧ fact val) (fun _ _ => reason) :=
  Triple.zoom fun _ eq => runs.consequence (fun _ part => part ▸ eq)
    (fun _ _ holds => holds) (fun _ _ holds => holds)

theorem noteExistingPathDeltaSupport_hasFiles :
    Triple (HasFiles files) (noteExistingPathDeltaSupport {} path) (fun _ => HasFiles files)
      failed :=
  HasFiles.of_within fun _ => noteExistingPathDeltaSupport_spec.weaken fun _ _ le =>
    ⟨_, le⟩

theorem readOptionalFileTextForDelta_hasFiles :
    Triple (HasFiles files) (readOptionalFileTextForDelta {} path) (fun _ => HasFiles files)
      failed :=
  HasFiles.of_within fun _ => readOptionalFileTextForDelta_spec.weaken
    fun _ _ ⟨sharper, le, _⟩ => ⟨sharper, le⟩

theorem readDeletedContent_hasFiles :
    Triple (HasFiles files) (readDeletedContent {} path) (fun _ => HasFiles files) failed :=
  HasFiles.of_within fun _ => readDeletedContent_spec.weaken
    fun _ _ ⟨sharper, le, _⟩ => ⟨sharper, le⟩

omit [DecidableEq P] in
theorem tryWrite_hasFiles {write : ApplyM P PUnit}
    (writes : Triple (HasFiles files) write (fun _ => HasFiles res) (fun _ _ => False)) :
    Triple (HasFiles files) (tryWrite write) (fun _ => HasFiles res) failed := by
  refine bind writes.attempt fun answer => ?_
  cases answer with
  | ok _ => exact pure fun _ eq => eq
  | error err => exact fun _ never => never.elim

theorem writeFileWithMissingParentRetry_hasFiles (texts : Text) :
    Triple (HasFiles files) (writeFileWithMissingParentRetry api {} path texts)
      (fun _ => HasFiles (files.insert path texts)) (fun _ _ => False) := by
  refine bind (runs_writeFile texts).onFiles.attempt fun answer => ?_
  cases answer with
  | ok _ => exact pure fun _ holds => holds.1
  | error error => exact fun _ never => never.elim

theorem removeRecorded_hasFiles (want : Option Text) (ctx : Text) :
    Triple (HasFiles files) (removeRecorded {} path want ctx)
      (fun _ st => HasFiles (files.erase path) st ∧ files.lookup path ≠ none)
      (fun _ _ => files.lookup path = none) := by
  refine bind (Triple.mapError runs_ensureNotDirectory.onFiles) fun _ => ?_
  refine Triple.assume fun hit => ?_
  refine bind runs_remove.onFiles.attempt fun answer => ?_
  cases answer with
  | ok _ => exact pure fun _ holds => ⟨holds.1, hit⟩
  | error error => exact fun _ missing => absurd missing hit

omit [DecidableEq P] in
theorem pushChange_hasFiles (change : AppliedPatchChange P) :
    Triple (HasFiles files) (pushChange change) (fun _ => HasFiles files) failed :=
  Triple.modify fun _ eq => eq

theorem applyAddFile_hasFiles (affectedPath texts : Text) :
    Triple (HasFiles files) (applyAddFile api {} path affectedPath texts)
      (fun _ => HasFiles (files.insert path texts)) failed := by
  refine bind readOptionalFileTextForDelta_hasFiles fun _ => ?_
  refine bind (tryWrite_hasFiles (writeFileWithMissingParentRetry_hasFiles texts))
    fun _ => ?_
  exact fun _ eq => eq

theorem applyDeleteFile_hasFiles (affectedPath : Text) :
    Triple (HasFiles files) (applyDeleteFile api {} path affectedPath)
      (fun _ st => HasFiles (files.erase path) st ∧ files.lookup path ≠ none)
      (fun _ _ => files.lookup path = none) := by
  refine bind noteExistingPathDeltaSupport_hasFiles fun _ => ?_
  refine bind readDeletedContent_hasFiles fun deletedContent => ?_
  refine bind (removeRecorded_hasFiles _ _) fun _ => ?_
  cases deletedContent <;> exact fun _ holds => holds

theorem applyMove_hasFiles (hit : files.lookup path ≠ none) :
    Triple (HasFiles files) (applyMove api {} path dest originalContents newContents)
      (fun _ => HasFiles ((files.insert dest newContents).erase path)) failed := by
  refine bind readOptionalFileTextForDelta_hasFiles fun _ => ?_
  refine bind (tryWrite_hasFiles (writeFileWithMissingParentRetry_hasFiles newContents))
    fun _ => ?_
  have kept : (files.insert dest newContents).lookup path ≠ none := by
    rw [lookup_insert]
    split
    · exact some_ne_none _
    · exact hit
  refine bind (pushChange_hasFiles _) fun _ => ?_
  refine bind ((removeRecorded_hasFiles _ _).weakenFailed fun _ _ missing =>
    absurd missing kept) fun _ => ?_
  exact fun _ holds => holds.1

theorem applyUpdateInPlace_hasFiles :
    Triple (HasFiles files) (applyUpdateInPlace api {} path originalContents newContents)
      (fun _ => HasFiles (files.insert path newContents)) failed := by
  refine bind (tryWrite_hasFiles (Triple.mapError
    ((runs_writeFile newContents).onFiles.weaken fun _ _ holds => holds.1))) fun _ => ?_
  exact fun _ eq => eq

variable {mode : ApplyPatchFileUpdateMode} {cwd : P}

theorem applyUpdateFile_rewrite (cwd : P) (affectedPath : Text) (chunks : List UpdateFileChunk) :
    Triple (HasFiles files) (applyUpdateFile api {} mode cwd path affectedPath none chunks)
      (fun _ st => (Edit.rewrite path (updateChange api mode path chunks)).run files =
        some st.fileSystem.files)
      (fun _ _ => (Edit.rewrite path (updateChange api mode path chunks)).run files = none) := by
  refine bind noteExistingPathDeltaSupport_hasFiles fun _ => ?_
  refine bind (Triple.mapError (runs_deriveNewContents.onFiles.weakenFailed
    fun _ _ refused => by rw [Edit.run, refused]; rfl)) fun applied => ?_
  refine Triple.assume fun derived => ?_
  obtain ⟨hit, made⟩ := derived
  refine bind applyUpdateInPlace_hasFiles fun _ => ?_
  refine Triple.modify fun st eq => ?_
  rw [Edit.run, hit, bind_eq_bind, bind_some, made, map_some]
  exact congrArg some eq.symm

theorem applyUpdateFile_move (affectedPath : Text) (chunks : List UpdateFileChunk) {movePath : Text}
    (joined : api.join cwd movePath = .ok dest) :
    Triple (HasFiles files)
      (applyUpdateFile api {} mode cwd path affectedPath (some movePath) chunks)
      (fun _ st => (Edit.move path dest (updateChange api mode path chunks)).run files =
        some st.fileSystem.files)
      (fun _ _ => (Edit.move path dest (updateChange api mode path chunks)).run files = none) := by
  refine bind noteExistingPathDeltaSupport_hasFiles fun _ => ?_
  refine bind (Triple.mapError (runs_deriveNewContents.onFiles.weakenFailed
    fun _ _ refused => by rw [Edit.run, refused]; rfl)) fun applied => ?_
  refine Triple.assume fun derived => ?_
  obtain ⟨hit, made⟩ := derived
  have exists_ : files.lookup path ≠ none := by simp [hit]
  refine bind (Triple.mapError (Triple.liftExcept.weakenFailed
    fun _ _ refused => by cases joined.symm.trans refused.2)) fun got => ?_
  refine Triple.assume fun joined' => ?_
  obtain rfl := ok.inj (joined.symm.trans joined')
  refine bind (applyMove_hasFiles exists_) fun _ => ?_
  refine Triple.modify fun st eq => ?_
  rw [Edit.run, hit, bind_eq_bind, bind_some, made, map_some]
  exact congrArg some eq.symm

theorem applyHunk_runs {edit : Edit P Text} (stands : hunk.edit api mode cwd = .ok edit) :
    Triple (HasFiles files) (applyHunk api {} mode cwd hunk)
      (fun _ st => edit.run files = some st.fileSystem.files)
      (fun _ _ => edit.run files = none) := by
  obtain ⟨path, got, stands⟩ := bind_eq_ok_iff.mp stands
  unfold applyHunk
  rw [got]
  cases hunk with
  | addFile src texts =>
    obtain rfl := ok.inj stands
    exact (applyAddFile_hasFiles _ _).weaken fun _ st eq => congrArg some eq.symm
  | deleteFile src =>
    obtain rfl := ok.inj stands
    refine (applyDeleteFile_hasFiles _).consequence (fun _ eq => eq) ?_ ?_
    · intro _ st ⟨eq, exists_⟩
      obtain ⟨txt, hit⟩ := ne_none_iff_exists'.mp exists_
      rw [Edit.run, hit]
      exact congrArg some eq.symm
    intro _ _ missing
    rw [Edit.run, missing]
    rfl
  | updateFile src movePath chunks =>
    cases movePath with
    | none =>
      obtain rfl := ok.inj stands
      exact applyUpdateFile_rewrite cwd _ _
    | some movePath =>
      obtain ⟨dest, joined, stands⟩ := bind_eq_ok_iff.mp stands
      cases stands
      exact applyUpdateFile_move _ _ joined

theorem applyHunks_runs {hunks : List Hunk}
    (stand : ∀ hunk ∈ hunks, ∃ edit, hunk.edit api mode cwd = .ok edit) :
    Triple (HasFiles files) (hunks.forM (applyHunk api {} mode cwd))
      (fun _ st => runEdits (patchEdits api mode cwd hunks) files = some st.fileSystem.files)
      (fun _ _ => runEdits (patchEdits api mode cwd hunks) files = none) := by
  induction hunks generalizing files with
  | nil => exact fun st eq => congrArg some eq.symm
  | cons hunk hunks ih =>
    obtain ⟨edit, stands⟩ := stand hunk (by simp)
    have edits : patchEdits api mode cwd (hunk :: hunks) =
        edit :: patchEdits api mode cwd hunks := by
      simp [patchEdits, stands, Except.toOption]
    have unfolded : runEdits (patchEdits api mode cwd (hunk :: hunks)) files =
        edit.run files >>= runEdits (patchEdits api mode cwd hunks) := by
      rw [edits]
      rfl
    rw [unfolded]
    refine bind ((applyHunk_runs stands).weakenFailed fun _ _ refused => ?_) fun _ => ?_
    · rw [refused]
      rfl
    intro st ran
    rw [ran]
    exact ih (fun y mem => stand y (by simp [mem])) st rfl

variable {unifiedDiff : (contextRadius : Nat) → (old new : Text) → Text}

theorem runs_unifiedDiffFromChunks {chunks : List UpdateFileChunk} :
    Runs files (unifiedDiffFromChunksWithMode api {} unifiedDiff path chunks mode) files
      (fun update => files.lookup path >>= updateChange api mode path chunks =
        some update.content) True := by
  refine bind (runs_deriveNewContents.weakenFailed fun _ _ _ => trivial) fun applied => ?_
  refine Triple.assume fun derived => ?_
  obtain ⟨hit, made⟩ := derived
  refine pure fun _ eq => ⟨eq, ?_⟩
  rw [hit]
  exact made

theorem verifyChange_shows (got : hunk.resolvePath api cwd = .ok path) :
    Runs files (verifyChange api {} unifiedDiff mode cwd path hunk) files
      (fun change => ∃ edit, hunk.edit api mode cwd = .ok edit ∧ edit.key = path ∧
        Shows files edit change) True := by
  unfold Hunk.edit
  rw [got]
  cases hunk with
  | addFile src texts =>
    exact pure fun _ eq => ⟨eq, _, rfl, rfl, .write _ _⟩
  | deleteFile src =>
    refine bind (Triple.mapError (runs_readFileText.weakenFailed
      fun _ _ _ => trivial)) fun body => ?_
    exact pure fun _ ⟨eq, hit⟩ => ⟨eq, _, rfl, rfl, .remove _ _ hit⟩
  | updateFile src movePath chunks =>
    refine bind runs_unifiedDiffFromChunks fun update => ?_
    refine Triple.assume fun made => ?_
    cases movePath with
    | none => exact pure fun _ eq => ⟨eq, _, rfl, rfl, .rewrite _ _ _ _ made⟩
    | some movePath =>
      refine bind (Triple.mapError (Triple.liftExcept.weakenFailed
        fun _ _ _ => trivial)) fun dest => ?_
      refine Triple.assume fun joined => ?_
      refine pure fun _ eq =>
        ⟨eq, .move path dest (updateChange api mode path chunks), ?_, rfl, .move _ _ _ _ _ made⟩
      simp only [joined]
      rfl

structure Verified (api : PathApi P) (mode : ApplyPatchFileUpdateMode) (cwd : P)
    (files : Map P Text) (hunks : List Hunk) (changes : Map P (ApplyPatchFileChange P)) : Prop where
  stand : ∀ hunk ∈ hunks, ∃ edit, hunk.edit api mode cwd = .ok edit
  described : Described files (patchEdits api mode cwd hunks) changes

theorem verifyHunk_verified (front : List Hunk) (hunk : Hunk)
    (changes : Map P (ApplyPatchFileChange P)) :
    Triple (fun system => system.files = files ∧ Verified api mode cwd files front changes)
      (verifyHunk api {} unifiedDiff mode cwd changes hunk)
      (fun changes system =>
        system.files = files ∧ Verified api mode cwd files (front ++ [hunk]) changes)
      (fun _ _ => True) := by
  refine Triple.assume fun verified => ?_
  refine bind (Triple.mapError (Triple.liftExcept.weakenFailed fun _ _ _ => trivial))
    fun path => ?_
  refine Triple.assume fun got => ?_
  split
  · exact throw fun _ _ => trivial
  rename_i fresh
  refine bind (verifyChange_shows got) fun change => ?_
  refine Triple.assume fun ⟨edit, stands, k, shows⟩ => ?_
  subst k
  refine pure fun _ eq => ⟨eq, ?_, ?_⟩
  · intro y mem
    rcases mem_append.mp mem with mem | mem
    · exact verified.stand y mem
    · exact ⟨edit, mem_singleton.mp mem ▸ stands⟩
  have edits : patchEdits api mode cwd (front ++ [hunk]) =
      patchEdits api mode cwd front ++ [edit] := by
    simp [patchEdits, stands, Except.toOption]
  rw [edits]
  exact verified.described.concat (not_isSome_iff_eq_none.mp fresh) shows

theorem tryVerifyApplyPatchArgs_verified {args : ApplyPatchArgs} :
    Triple (fun system => system.files = files)
      (tryVerifyApplyPatchArgs api {} unifiedDiff args cwd mode)
      (fun act _ => Verified api mode act.cwd files args.hunks act.changes) (fun _ _ => True) := by
  have dir : Triple (fun system => system.files = files) (effectiveCwd api cwd args.workdir)
      (fun _ system => system.files = files) (fun _ _ => True) := by
    unfold effectiveCwd
    split
    · exact pure fun _ eq => eq
    exact Triple.mapError (Triple.liftExcept.consequence (fun _ eq => eq)
      (fun _ _ holds => holds.1) fun _ _ _ => trivial)
  refine bind dir fun effectiveCwd => ?_
  have outcomes := @Triple.foldlM _ _ _ _ _ args.hunks
    (verifyHunk api {} unifiedDiff mode effectiveCwd) ∅ (fun front changes system =>
      system.files = files ∧ Verified api mode effectiveCwd files front changes)
    fun front hunk _ _ changes => verifyHunk_verified front hunk changes
  have start : Verified api mode effectiveCwd files [] ∅ :=
    ⟨fun _ mem => (not_mem_nil mem).elim, Described.nil⟩
  refine bind (outcomes.consequence (fun _ eq => ⟨eq, start⟩)
    (fun _ _ holds => holds) fun _ _ _ => trivial) fun changes => ?_
  exact pure fun _ holds => holds.2

end

theorem applyHunksToFiles_runs {api : PathApi P} {mode : ApplyPatchFileUpdateMode} {cwd : P}
    {files : Map P Text} {hunks : List Hunk} (ne : hunks ≠ [])
    (stand : ∀ hunk ∈ hunks, ∃ edit, hunk.edit api mode cwd = .ok edit) :
    Triple (HasFiles files) (applyHunksToFiles api {} mode cwd hunks)
      (fun _ st => runEdits (patchEdits api mode cwd hunks) files = some st.fileSystem.files)
      (fun _ _ => runEdits (patchEdits api mode cwd hunks) files = none) := by
  unfold applyHunksToFiles
  rw [if_neg (by simpa using ne)]
  refine bind (applyHunks_runs stand) fun _ => ?_
  exact fun _ ran => ran

/-- A verified patch is applied as shown exactly when the collisions among its edits are harmless.
-/
theorem verified_carriedOut_iff (api : PathApi P)
    (unifiedDiff : (contextRadius : Nat) → (old new : Text) → Text)
    (mode : ApplyPatchFileUpdateMode) (cwd : P) (args : ApplyPatchArgs)
    (system after : FileSystem P) (act : ApplyPatchAction P) (ne : args.hunks ≠ [])
    (verified : tryVerifyApplyPatchArgs api {} unifiedDiff args cwd mode system = .ok act after) :
    (∃ affected state, applyHunksToFiles api {} mode act.cwd args.hunks { fileSystem := system } =
        .ok affected state ∧
      act.CarriedOut system.files state.fileSystem.files) ↔
      Harmless system.files (patchEdits api mode act.cwd args.hunks) := by
  obtain ⟨stand, described⟩ := tryVerifyApplyPatchArgs_verified.of_ok rfl verified
  rw [← carriedOut_iff_harmless described.previewed]
  have applied := applyHunksToFiles_runs ne stand { fileSystem := system } rfl
  constructor
  · rintro ⟨affected, state, ran, carried⟩
    rw [ran] at applied
    exact ⟨state.fileSystem.files, applied, described.carriedOut_iff.mp carried⟩
  rintro ⟨final, ran, carried⟩
  cases res : applyHunksToFiles api {} mode act.cwd args.hunks { fileSystem := system } with
  | ok affected state =>
    rw [res] at applied
    obtain rfl := some.inj (ran.symm.trans applied)
    exact ⟨affected, state, rfl, described.carriedOut_iff.mpr carried⟩
  | error failure state =>
    rw [res] at applied
    cases ran.symm.trans applied

def oneLineDiff (_contextRadius : Nat) (old new : Text) : Text :=
  "@@ -1 +1 @@\n" ++ '-' :: old ++ '+' :: new

def patchArgs (hunks : List Hunk) : ApplyPatchArgs :=
  { patch := [], hunks, workdir := none, environmentId := none }

/-- What verification shows for the patch that moves `a` to `b`. -/
def movePatchAction : ApplyPatchAction Text where
  changes := Finmap.singleton "w/a"
    (.update "@@ -1 +1 @@\n-x\n+y\n" (some "w/b") "y\n")
  updateFileMode := .normalizeToLf
  patch := []
  cwd := "w"

theorem verified_carriedOut_movePatch :
    tryVerifyApplyPatchArgs slashPaths {} oneLineDiff (patchArgs movePatch) "w"
        .normalizeToLf moveFiles = .ok movePatchAction { moveFiles with clock := 1 } ∧
      ∃ affected state, applyHunksToFiles slashPaths {} .normalizeToLf movePatchAction.cwd
          movePatch { fileSystem := moveFiles } = .ok affected state ∧
        movePatchAction.CarriedOut moveFiles.files state.fileSystem.files := by
  refine ⟨rfl, (verified_carriedOut_iff slashPaths oneLineDiff .normalizeToLf "w"
    (patchArgs movePatch) moveFiles _ movePatchAction (by decide) rfl).mpr ?_⟩
  refine Harmless.singleton fun key change move => ?_
  obtain ⟨source, dest⟩ := Edit.move.inj move
  exact absurd (source.trans dest.1.symm) (by decide)

/-- A patch that moves `a` onto `b` and deletes `b`. -/
def moveAndDeletePatch : List Hunk := movePatch ++ [.deleteFile "b"]

def moveAndDeleteFiles : FileSystem Text :=
  { files := moveFiles.files.insert "w/b" "z\n" }

def moveAndDeleteAction : ApplyPatchAction Text :=
  { movePatchAction with
    changes := movePatchAction.changes.insert "w/b" (.delete "z\n") }

theorem verified_moveAndDeletePatch_not_carriedOut :
    tryVerifyApplyPatchArgs slashPaths {} oneLineDiff (patchArgs moveAndDeletePatch) "w"
        .normalizeToLf moveAndDeleteFiles =
          .ok moveAndDeleteAction { moveAndDeleteFiles with clock := 2 } ∧
      ¬ ∃ affected state, applyHunksToFiles slashPaths {} .normalizeToLf moveAndDeleteAction.cwd
          moveAndDeletePatch { fileSystem := moveAndDeleteFiles } = .ok affected state ∧
        moveAndDeleteAction.CarriedOut moveAndDeleteFiles.files state.fileSystem.files := by
  refine ⟨rfl, ?_⟩
  rintro ⟨affected, state, ran, carried⟩
  have shown : state.fileSystem.files.lookup "w/b".toList = some "y\n".toList :=
    carried.moved "w/a".toList _ _ _ rfl
  have gone : (finalState (applyHunksToFiles slashPaths {} .normalizeToLf moveAndDeleteAction.cwd
      moveAndDeletePatch { fileSystem := moveAndDeleteFiles })).fileSystem.files.lookup
        "w/b".toList = none := by decide +kernel
  rw [ran] at gone
  cases shown.symm.trans gone

end Codex.ApplyPatch
