import Codex.ApplyPatch.FileUpdate

/-!
# Exactness of the recorded delta

A record that claims to be exact replays to the files that are there.
-/

namespace Codex.ApplyPatch

open FileSystem Triple

variable {P : Type} [DecidableEq P]

namespace AppliedPatchChange

def replay (change : AppliedPatchChange P) (files : Map P Text) : Map P Text :=
  match change.change with
  | .add body _ => files.insert change.path body
  | .delete _ => files.erase change.path
  | .update none _ _ newContent => files.insert change.path newContent
  | .update (some moved) _ _ newContent => (files.insert moved newContent).erase change.path

def Recorded (change : AppliedPatchChange P) (files : Map P Text) : Prop :=
  match change.change with
  | .add _ overwrittenContent => files.lookup change.path = overwrittenContent
  | .delete body => files.lookup change.path = some body
  | .update none oldContent _ _ => files.lookup change.path = some oldContent
  | .update (some moved) oldContent overwrittenMoveContent _ =>
    files.lookup change.path = some oldContent ∧ files.lookup moved = overwrittenMoveContent

end AppliedPatchChange

def replayAll (changes : List (AppliedPatchChange P)) (files : Map P Text) : Map P Text :=
  changes.foldl (fun files change => change.replay files) files

/-- The changes replay to the final files and record what they replace. -/
structure ExactChanges (init : Map P Text) (changes : List (AppliedPatchChange P))
    (final : Map P Text) : Prop where
  replayed : replayAll changes init = final
  recorded : ∀ front change back, changes = front ++ change :: back →
    change.Recorded (replayAll front init)

namespace ExactChanges

theorem nil (files : Map P Text) : ExactChanges files [] files :=
  ⟨rfl, fun _ _ _ split => by simp at split⟩

variable {init : Map P Text} {changes : List (AppliedPatchChange P)}
  {change : AppliedPatchChange P}

theorem concat {files : Map P Text} (exact : ExactChanges init changes files)
    (noted : change.Recorded files) :
    ExactChanges init (changes ++ [change]) (change.replay files) := by
  refine ⟨by simp [replayAll, ← exact.replayed], ?_⟩
  intro front y back split
  rcases List.append_eq_append_iff.mp split with ⟨more, rfl, tl⟩ | ⟨more, rfl, tl⟩
  · cases more with
    | nil =>
      obtain ⟨rfl, -⟩ := List.cons.inj tl
      rwa [List.append_nil, exact.replayed]
    | cons head more => simp at tl
  cases more with
  | nil =>
    obtain ⟨rfl, -⟩ := List.cons.inj tl
    rw [List.append_nil] at exact
    rwa [exact.replayed]
  | cons head more =>
    cases tl
    exact exact.recorded front _ more rfl

theorem cons_iff {final : Map P Text} : ExactChanges init (change :: changes) final ↔
      change.Recorded init ∧ ExactChanges (change.replay init) changes final := by
  constructor
  · intro exact
    refine ⟨exact.recorded [] change changes rfl, exact.replayed, ?_⟩
    intro front y back split
    exact exact.recorded (change :: front) y back (by rw [split, List.cons_append])
  rintro ⟨noted, tl⟩
  refine ⟨tl.replayed, fun front y back split => ?_⟩
  cases front with
  | nil =>
    obtain ⟨rfl, -⟩ := List.cons.inj split
    exact noted
  | cons head front =>
    obtain ⟨rfl, tail⟩ := List.cons.inj split
    exact tl.recorded front y back tail

end ExactChanges

def DeltaExact (init : Map P Text) (state : ApplyState P) : Prop :=
  state.delta.exact = true → ExactChanges init state.delta.changes state.fileSystem.files

structure Within (files : Map P Text) (delta : AppliedPatchDelta P) (state : ApplyState P) :
    Prop where
  files : state.fileSystem.files = files
  changes : state.delta.changes = delta.changes
  exact : state.delta.exact = true → delta.exact = true

variable {files : Map P Text} {delta : AppliedPatchDelta P} {state : ApplyState P}

theorem Within.deltaExact {init : Map P Text} (within : Within files delta state)
    (exact : delta.exact = true → ExactChanges init delta.changes files) :
    DeltaExact init state := by
  intro claimed
  rw [within.files, within.changes]
  exact exact (within.exact claimed)

omit [DecidableEq P] in
theorem Within.sharpen (within : Within files delta state) {fact : Prop}
    (claimed : state.delta.exact = true → fact) :
    ∃ sharper, Within files sharper state ∧ sharper.changes = delta.changes ∧
      (sharper.exact = true → delta.exact = true ∧ fact) :=
  ⟨state.delta, ⟨within.files, rfl, fun exact => exact⟩, within.changes,
    fun exact => ⟨within.exact exact, claimed exact⟩⟩

def Reads {ε α : Type} (files : Map P Text) (program : EStateM ε (FileSystem P) α)
    (fact : α → Prop) (reason : ε → Prop) : Prop :=
  Triple (fun system => system.files = files) program
    (fun value system => system.files = files ∧ fact value)
    (fun failure system => system.files = files ∧ reason failure)

def Writes (files : Map P Text) (path : P) (program : EStateM IoError (FileSystem P) PUnit)
    (res : Map P Text) : Prop :=
  Triple (fun system => system.files = files) program
    (fun _ system => system.files = res)
    (fun _ system => ∃ left, system.files = files.set path left)

open Map

section

variable {faults : Faults} {path : P}

theorem reads_getMetadata :
    Reads files (getMetadata faults path) (fun _ => True) (fun _ => True) := by
  intro system eq
  unfold getMetadata
  cases faults.metadata system.clock with
  | some answer => cases answer <;> exact ⟨eq, trivial⟩
  | none => cases (system.files.lookup path).isSome <;> exact ⟨eq, trivial⟩

theorem reads_readFileText :
    Reads files (readFileText faults path) (fun txt => files.lookup path = some txt)
      (fun error => error.kind = .notFound → files.lookup path = none) := by
  intro system eq
  unfold readFileText
  cases fault : faults.read system.clock with
  | some error =>
    exact ⟨eq, fun missing => absurd missing (faults.read_kind _ _ fault)⟩
  | none =>
    cases hit : system.files.lookup path with
    | some txt => exact ⟨eq, by rw [← eq, hit]⟩
    | none => exact ⟨eq, fun _ => by rw [← eq, hit]⟩

theorem writes_writeFile (body : Text) : Writes files path (writeFile faults path body)
      (files.insert path body) := by
  intro system eq
  unfold writeFile
  cases faults.write system.clock with
  | some outcome => exact ⟨outcome.2, by rw [← eq]⟩
  | none => exact congrArg (Finmap.insert path body) eq

theorem writes_remove : Writes files path (FileSystem.remove faults path) (files.erase path) := by
  intro system eq
  unfold FileSystem.remove
  cases hit : system.files.lookup path with
  | none =>
    refine ⟨none, ?_⟩
    rw [← eq, ← hit, set_lookup]
    rfl
  | some txt =>
    cases faults.remove system.clock with
    | some outcome => exact ⟨outcome.2, by rw [← eq]⟩
    | none => exact congrArg (Finmap.erase path) eq

omit [DecidableEq P] in
theorem reads_createDirectory :
    Reads files (createDirectory faults path) (fun _ => True) (fun _ => True) := by
  intro system eq
  unfold createDirectory
  cases faults.createDirectory system.clock <;> exact ⟨eq, trivial⟩

theorem reads_ensureNotDirectory :
    Reads files (ensureNotDirectory faults path) (fun _ => True) (fun _ => True) := by
  refine bind reads_getMetadata fun metadata => ?_
  split
  · exact throw fun _ eq => eq
  · exact pure fun _ eq => eq

theorem reads_deriveNewContents {api : PathApi P} {chunks : List UpdateFileChunk}
    {mode : ApplyPatchFileUpdateMode} :
    Reads files (deriveNewContentsFromChunks api faults path chunks mode)
      (fun applied => files.lookup path = some applied.originalContents) (fun _ => True) := by
  refine bind
    (Triple.mapError (reads_readFileText.weakenFailed fun _ _ failed => ⟨failed.1, trivial⟩))
    fun originalContents => ?_
  refine bind (Triple.liftExcept.weakenFailed fun _ _ failed => ⟨failed.1.1, trivial⟩)
    fun newContents => ?_
  exact pure fun system holds => holds.1

end

section

variable {api : PathApi P} {faults : Faults} {path : P}
  {failed : ApplyFailure → ApplyState P → Prop}

omit [DecidableEq P] in
theorem Reads.onFiles {ε α : Type} {program : EStateM ε (FileSystem P) α} {fact : α → Prop}
    {reason : ε → Prop} (reads : Reads files program fact reason) :
    Triple (Within files delta) (onFiles program)
      (fun val state => Within files delta state ∧ fact val)
      (fun err state => Within files delta state ∧ reason err) := by
  refine Triple.zoom fun state le => ?_
  refine reads.consequence (fun system eq => by rw [eq, le.files]) ?_ ?_
  · exact fun val system holds => ⟨⟨holds.1, le.changes, le.exact⟩, holds.2⟩
  · exact fun err system holds => ⟨⟨holds.1, le.changes, le.exact⟩, holds.2⟩

theorem Writes.onFiles {program : EStateM IoError (FileSystem P) PUnit} {res : Map P Text}
    (writes : Writes files path program res) :
    Triple (Within files delta) (onFiles program) (fun _ => Within res delta)
      (fun _ state => ∃ left, Within (files.set path left) delta state) := by
  refine Triple.zoom fun state le => ?_
  refine writes.consequence (fun system eq => by rw [eq, le.files]) ?_ ?_
  · exact fun val system holds => ⟨holds, le.changes, le.exact⟩
  · exact fun err system ⟨left, holds⟩ => ⟨left, holds, le.changes, le.exact⟩

omit [DecidableEq P] in
theorem clearExact_spec : Triple (Within files delta) clearExact
      (fun _ state => Within files delta state ∧ state.delta.exact = false) failed :=
  Triple.modify fun _ le =>
    ⟨⟨le.files, le.changes, fun claimed => by cases claimed⟩, rfl⟩

theorem noteExistingPathDeltaSupport_spec :
    Triple (Within files delta) (noteExistingPathDeltaSupport faults path)
      (fun _ => Within files delta) failed := by
  refine bind reads_getMetadata.onFiles.attempt fun answer => ?_
  cases answer with
  | ok | error =>
    refine Triple.assume fun _ => ?_
    simp only
    split
    · exact pure fun _ le => le
    · exact clearExact_spec.weaken fun _ _ holds => holds.1

theorem readOptionalFileTextForDelta_spec :
    Triple (Within files delta) (readOptionalFileTextForDelta faults path)
      (fun body state => ∃ sharper, Within files sharper state ∧ sharper.changes = delta.changes ∧
        (sharper.exact = true → delta.exact = true ∧ files.lookup path = body)) failed := by
  refine bind noteExistingPathDeltaSupport_spec fun _ => ?_
  refine bind reads_readFileText.onFiles.attempt fun answer => ?_
  cases answer with
  | ok body => exact pure fun _ holds => holds.1.sharpen fun _ => holds.2
  | error src =>
    refine Triple.assume fun reason => ?_
    simp only
    split
    · rename_i missing
      exact pure fun _ le => le.sharpen fun _ => reason missing
    refine bind clearExact_spec fun _ => ?_
    exact pure fun _ holds =>
      holds.1.sharpen fun claimed => by cases holds.2.symm.trans claimed

theorem readDeletedContent_spec : Triple (Within files delta) (readDeletedContent faults path)
      (fun body state => ∃ sharper, Within files sharper state ∧ sharper.changes = delta.changes ∧
        (sharper.exact = true →
          delta.exact = true ∧ body.isSome ∧ files.lookup path = body)) failed := by
  refine bind reads_readFileText.onFiles.attempt fun answer => ?_
  cases answer with
  | ok body => exact pure fun _ holds => holds.1.sharpen fun _ => ⟨rfl, holds.2⟩
  | error src =>
    refine Triple.assume fun _ => ?_
    refine bind clearExact_spec fun _ => ?_
    exact pure fun _ holds =>
      holds.1.sharpen fun claimed => by cases holds.2.symm.trans claimed

theorem insert_set (files : Map P Text) (path : P) (left : Option Text) (contents : Text) :
    (files.set path left).insert path contents = files.insert path contents := by
  refine Finmap.ext_lookup fun y => ?_
  rw [lookup_insert, lookup_insert, lookup_set]
  split <;> rfl

theorem writeFileWithMissingParentRetry_spec (body : Text) :
    Triple (Within files delta) (writeFileWithMissingParentRetry api faults path body)
      (fun _ => Within (files.insert path body) delta)
      (fun _ state => ∃ after, Within after delta state) := by
  refine bind (writes_writeFile body).onFiles.attempt fun answer => ?_
  cases answer with
  | ok _ => exact pure fun _ le => le
  | error error =>
    refine choose fun left => ?_
    have retry : Triple (Within (files.set path left) delta)
        (mapError (ApplyFailure.io ("Failed to write file " ++
          api.inferredNativePathString path))
          (onFiles (writeFile faults path body)))
        (fun _ => Within (files.insert path body) delta)
        (fun _ state => ∃ after, Within after delta state) := by
      rw [← insert_set files path left body]
      exact Triple.mapError ((writes_writeFile body).onFiles.weakenFailed
        fun _ _ ⟨left, le⟩ => ⟨_, le⟩)
    simp only
    split
    · cases api.parent path with
      | none => exact retry
      | some parent =>
        refine bind (Triple.mapError (reads_createDirectory.onFiles.consequence
          (fun _ le => le) (fun _ _ holds => holds.1)
          (fun _ _ holds => ⟨_, holds.1⟩))) fun _ => retry
    · exact throw fun _ le => ⟨_, le⟩

omit [DecidableEq P] in
theorem tryWrite_spec {write : ApplyM P PUnit} {res : Map P Text}
    (writes : Triple (Within files delta) write (fun _ => Within res delta)
      (fun _ state => ∃ after, Within after delta state)) :
    Triple (Within files delta) (tryWrite write) (fun _ => Within res delta)
      (fun _ state => state.delta.exact = false) := by
  refine bind writes.attempt fun answer => ?_
  cases answer with
  | ok _ => exact pure fun _ le => le
  | error err =>
    refine choose fun after => ?_
    refine bind clearExact_spec fun _ => ?_
    exact throw fun _ holds => holds.2

theorem removeFailureWasSideEffectFree_spec (want : Option Text) :
    Triple (Within files delta) (removeFailureWasSideEffectFree faults path want)
      (fun sideEffectFree state => Within files delta state ∧
        (sideEffectFree = true → want.isSome ∧ files.lookup path = want))
      failed := by
  cases want with
  | none => exact pure fun _ le => ⟨le, fun claimed => by cases claimed⟩
  | some want =>
    refine bind reads_readFileText.onFiles.attempt fun answer => ?_
    cases answer with
    | ok body =>
      refine pure fun _ holds => ⟨holds.1, fun equal => ⟨rfl, ?_⟩⟩
      rw [holds.2, eq_of_beq equal]
    | error _ => exact pure fun _ holds => ⟨holds.1, fun claimed => by cases claimed⟩

/-- A removal happens or, while the record is exact, leaves everything as it was. -/
theorem removeRecorded_spec {want : Option Text} (ctx : Text)
    (known : delta.exact = true → files.lookup path = want) :
    Triple (Within files delta) (removeRecorded faults path want ctx)
      (fun _ => Within (files.erase path) delta)
      (fun _ state => state.delta.exact = true → Within files delta state) := by
  refine bind (Triple.mapError (reads_ensureNotDirectory.onFiles.weakenFailed
    fun _ _ holds _ => holds.1)) fun _ => ?_
  refine Triple.assume fun _ => ?_
  refine bind writes_remove.onFiles.attempt fun answer => ?_
  cases answer with
  | ok _ => exact pure fun _ le => le
  | error error =>
    refine choose fun left => ?_
    refine bind (removeFailureWasSideEffectFree_spec want)
      fun sideEffectFree => ?_
    refine Triple.assume fun kept => ?_
    cases sideEffectFree with
    | false =>
      refine bind clearExact_spec fun _ => ?_
      exact throw fun _ holds claimed => by cases holds.2.symm.trans claimed
    | true =>
      refine throw fun state le claimed => ?_
      have held := (kept rfl).2
      rw [lookup_set, if_pos rfl, ← known (le.exact claimed)] at held
      rwa [held, set_lookup] at le

omit [DecidableEq P] in
theorem pushChange_spec (change : AppliedPatchChange P) :
    Triple (Within files delta) (pushChange change)
      (fun _ => Within files { delta with changes := delta.changes ++ [change] }) failed :=
  Triple.modify fun _ le =>
    ⟨le.files, congrArg (· ++ [change]) le.changes, le.exact⟩

omit [DecidableEq P] in
theorem replaceLastChange_spec (change : AppliedPatchChange P) :
    Triple (Within files delta) (replaceLastChange change)
      (fun _ => Within files { delta with changes := delta.changes.dropLast ++ [change] })
      failed :=
  Triple.modify fun _ le =>
    ⟨le.files, congrArg (·.dropLast ++ [change]) le.changes, le.exact⟩

omit [DecidableEq P] in
theorem noteAffected_spec (note : AffectedPaths → AffectedPaths) :
    Triple (Within files delta) (noteAffected note) (fun _ => Within files delta) failed :=
  Triple.modify fun _ le => ⟨le.files, le.changes, le.exact⟩

end

def KeepsExact {α : Type} (init : Map P Text) (program : ApplyM P α) : Prop :=
  Triple (DeltaExact init) program (fun _ => DeltaExact init) (fun _ => DeltaExact init)

section

variable {api : PathApi P} {faults : Faults} {init : Map P Text} {path : P}

theorem keepsExact_of_within {α : Type} {program : ApplyM P α}
    (keeps : ∀ files delta, (delta.exact = true → ExactChanges init delta.changes files) →
      Triple (Within files delta) program (fun _ => DeltaExact init) (fun _ => DeltaExact init)) :
    KeepsExact init program :=
  fun state exact => keeps state.fileSystem.files state.delta exact state
    ⟨rfl, rfl, fun claimed => claimed⟩

theorem deltaExact_of_inexact (inexact : state.delta.exact = false) : DeltaExact init state :=
  fun claimed => by cases inexact.symm.trans claimed

theorem applyAddFile_keepsExact (affectedPath body : Text) :
    KeepsExact init (applyAddFile api faults path affectedPath body) := by
  refine keepsExact_of_within fun files delta exact => ?_
  refine bind readOptionalFileTextForDelta_spec fun old => ?_
  refine choose fun sharper => Triple.assume fun ⟨changes, known⟩ => ?_
  refine bind ((tryWrite_spec (writeFileWithMissingParentRetry_spec body)).weakenFailed
    fun _ _ => deltaExact_of_inexact) fun _ => ?_
  refine bind (pushChange_spec _) fun _ => ?_
  refine (noteAffected_spec _).weaken fun _ state le => ?_
  refine le.deltaExact fun claimed => ?_
  obtain ⟨pre, noted⟩ := known claimed
  rw [changes]
  exact (exact pre).concat noted

theorem applyDeleteFile_keepsExact (affectedPath : Text) :
    KeepsExact init (applyDeleteFile api faults path affectedPath) := by
  refine keepsExact_of_within fun files delta exact => ?_
  refine bind noteExistingPathDeltaSupport_spec fun _ => ?_
  refine bind readDeletedContent_spec fun old => ?_
  refine choose fun sharper => Triple.assume fun ⟨changes, known⟩ => ?_
  have pre : sharper.exact = true → ExactChanges init sharper.changes files :=
    fun claimed => changes ▸ exact (known claimed).1
  refine bind ((removeRecorded_spec _ fun claimed => (known claimed).2.2).weakenFailed
    fun _ _ kept claimed => (kept claimed).deltaExact pre claimed) fun _ => ?_
  cases old with
  | none =>
    refine (noteAffected_spec _).weaken fun _ state le => ?_
    refine le.deltaExact fun claimed => ?_
    cases (known claimed).2.1
  | some body =>
    refine bind (pushChange_spec _) fun _ => ?_
    refine (noteAffected_spec _).weaken fun _ state le => ?_
    exact le.deltaExact fun claimed => (pre claimed).concat (known claimed).2.2

variable {originalContents newContents : Text}

theorem applyMove_keepsExact {dest : P} (proper : path ≠ dest)
    (exact : delta.exact = true → ExactChanges init delta.changes files)
    (orig : files.lookup path = some originalContents) :
    Triple (Within files delta) (applyMove api faults path dest originalContents newContents)
      (fun _ => DeltaExact init) (fun _ => DeltaExact init) := by
  refine bind readOptionalFileTextForDelta_spec fun old => ?_
  refine choose fun sharper => Triple.assume fun ⟨changes, known⟩ => ?_
  have pre : sharper.exact = true → ExactChanges init sharper.changes files :=
    fun claimed => changes ▸ exact (known claimed).1
  refine bind ((tryWrite_spec (writeFileWithMissingParentRetry_spec newContents)).weakenFailed
    fun _ _ => deltaExact_of_inexact) fun _ => ?_
  refine bind (pushChange_spec _) fun _ => ?_
  have written : (files.insert dest newContents).lookup path = some originalContents := by
    rw [lookup_insert, if_neg proper, orig]
  refine bind ((removeRecorded_spec _ fun _ => written).weakenFailed fun _ _ kept claimed =>
    (kept claimed).deltaExact (fun claimed => (pre claimed).concat (known claimed).2) claimed)
    fun _ => ?_
  refine (replaceLastChange_spec _).weaken fun _ state le => ?_
  refine le.deltaExact fun claimed => ?_
  rw [List.dropLast_concat]
  exact (pre claimed).concat ⟨orig, (known claimed).2⟩

theorem applyUpdateInPlace_keepsExact
    (exact : delta.exact = true → ExactChanges init delta.changes files)
    (orig : files.lookup path = some originalContents) :
    Triple (Within files delta) (applyUpdateInPlace api faults path originalContents newContents)
      (fun _ => DeltaExact init) (fun _ => DeltaExact init) := by
  have writes : Triple (Within files delta)
      (mapError (ApplyFailure.io ("Failed to write file " ++
        api.inferredNativePathString path))
        (onFiles (writeFile faults path newContents)))
      (fun _ => Within (files.insert path newContents) delta)
      (fun _ state => ∃ after, Within after delta state) :=
    Triple.mapError ((writes_writeFile newContents).onFiles.weakenFailed
      fun _ _ ⟨_, le⟩ => ⟨_, le⟩)
  refine bind ((tryWrite_spec writes).weakenFailed fun _ _ => deltaExact_of_inexact)
    fun _ => ?_
  refine (pushChange_spec _).weaken fun _ state le => ?_
  exact le.deltaExact fun claimed => (exact claimed).concat orig

end

def Hunk.MovesProperly (api : PathApi P) (cwd : P) : Hunk → Prop
  | .updateFile path (some moved) _ =>
    ∀ source destination, api.join cwd path = .ok source →
      api.join cwd moved = .ok destination → source ≠ destination
  | _ => True

section

variable {api : PathApi P} {faults : Faults} {init : Map P Text} {path : P}
  {mode : ApplyPatchFileUpdateMode} {cwd : P}

theorem applyUpdateFile_keepsExact (affectedPath : Text) {moved : Option Text}
    {chunks : List UpdateFileChunk}
    (proper : ∀ destination, moved.map (api.join cwd) = some (.ok destination) →
      path ≠ destination) :
    KeepsExact init (applyUpdateFile api faults mode cwd path affectedPath moved chunks) := by
  refine keepsExact_of_within fun files delta exact => ?_
  refine bind noteExistingPathDeltaSupport_spec fun _ => ?_
  refine bind (Triple.mapError (reads_deriveNewContents.onFiles.weakenFailed
    fun _ _ holds => holds.1.deltaExact exact)) fun applied => ?_
  refine Triple.assume fun orig => ?_
  have noted : Triple (DeltaExact init)
      (noteAffected fun affected =>
        { affected with modified := affected.modified ++ [affectedPath] })
      (fun _ => DeltaExact init) (fun _ => DeltaExact init) :=
    Triple.modify fun _ holds => holds
  cases moved with
  | none => exact bind (applyUpdateInPlace_keepsExact exact orig) fun _ => noted
  | some moved =>
    refine bind (Triple.mapError (Triple.liftExcept.weakenFailed
      fun _ _ holds => holds.1.deltaExact exact)) fun destination => ?_
    refine Triple.assume fun joined => ?_
    have y : path ≠ destination := proper destination (by simp [joined])
    exact bind (applyMove_keepsExact y exact orig) fun _ => noted

theorem applyHunk_keepsExact {hunk : Hunk} (proper : hunk.MovesProperly api cwd) :
    KeepsExact init (applyHunk api faults mode cwd hunk) := by
  refine bind (Triple.mapError (Triple.liftExcept.weakenFailed fun _ _ holds => holds.1))
    fun path => ?_
  refine Triple.assume fun got => ?_
  cases hunk with
  | addFile src body => exact applyAddFile_keepsExact _ _
  | deleteFile src => exact applyDeleteFile_keepsExact _
  | updateFile src moved chunks =>
    refine applyUpdateFile_keepsExact _ fun dest joined => ?_
    cases moved with
    | none => cases joined
    | some moved => exact proper path dest got (Option.some.inj joined)

/-- A record that claims to be exact leads from the initial files to the final ones, also after a
failure. -/
theorem applyHunksToFiles_deltaExact (api : PathApi P) (faults : Faults)
    (mode : ApplyPatchFileUpdateMode) (cwd : P) (system : FileSystem P) (hunks : List Hunk)
    (proper : ∀ hunk ∈ hunks, hunk.MovesProperly api cwd)
    (claimed : (finalState (applyHunksToFiles api faults mode cwd hunks
      { fileSystem := system })).delta.exact = true) :
    ExactChanges system.files
      (finalState (applyHunksToFiles api faults mode cwd hunks
        { fileSystem := system })).delta.changes
      (finalState (applyHunksToFiles api faults mode cwd hunks
        { fileSystem := system })).fileSystem.files := by
  have keeps : KeepsExact system.files (applyHunksToFiles api faults mode cwd hunks) := by
    unfold applyHunksToFiles
    split
    · exact throw fun _ holds => holds
    refine bind (forM fun hunk mem => applyHunk_keepsExact (proper hunk mem))
      fun _ => ?_
    exact fun state holds => holds
  exact keeps.finalState (fun _ => ExactChanges.nil system.files) claimed

end

/-- A patch that moves `a` to `b` and changes its only line. -/
def movePatch : List Hunk :=
  [.updateFile "a" (some "b")
    [{ oldLines := ["x"], newLines := ["y"] }]]

def moveFiles : FileSystem Text := { files := Finmap.singleton "w/a" "x\n" }

def keepSource : Faults :=
  { remove := fun _ => some (⟨.other, "busy"⟩, some "x\n") }

theorem applyHunksToFiles_deltaExact_keepSource :
    (finalState (applyHunksToFiles slashPaths keepSource .normalizeToLf "w" movePatch
      { fileSystem := moveFiles })).delta.changes =
        [{ path := "w/b", change := .add "y\n" none }] ∧
      ExactChanges moveFiles.files
        (finalState (applyHunksToFiles slashPaths keepSource .normalizeToLf "w" movePatch
          { fileSystem := moveFiles })).delta.changes
        (finalState (applyHunksToFiles slashPaths keepSource .normalizeToLf "w" movePatch
          { fileSystem := moveFiles })).fileSystem.files := by
  refine ⟨by decide +kernel, applyHunksToFiles_deltaExact _ _ _ _ _ _ ?_ (by decide +kernel)⟩
  intro hunk mem
  obtain rfl := List.mem_singleton.mp mem
  intro source destination left right eq
  subst eq
  exact absurd (Except.ok.inj (left.trans right.symm)) (by decide)

end Codex.ApplyPatch
