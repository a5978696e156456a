import Mathlib.Data.Char
import Mathlib.Data.Finset.Sort
import Mathlib.Data.Prod.Lex
import Codex.ApplyPatch.DeltaExact

/-!
# The tracked maps describe the net change

The two maps relate the content of each path before the turn to the present one.
-/

namespace Codex

def ApplyPatch.AppliedPatchChange.MovesProperly {P : Type} (change : AppliedPatchChange P) : Prop :=
  ∀ oldContent overwritten newContent,
    change.change ≠ .update (some change.path) oldContent overwritten newContent

namespace TurnDiff

open ApplyPatch

structure TrackedContent where
  content : Text
  revision : Nat

structure TrackedPath (P : Type) where
  environmentId : Text
  path : P
  deriving DecidableEq

structure DiffCacheKey (P : Type) where
  leftPath : TrackedPath P
  leftRevision : Option Nat
  rightPath : TrackedPath P
  rightRevision : Option Nat
  deriving DecidableEq

structure TurnDiffTracker (P : Type) where
  valid : Bool := true
  displayRootsByEnvironment : Map Text P := ∅
  baselineByPath : Map (TrackedPath P) TrackedContent := ∅
  currentByPath : Map (TrackedPath P) TrackedContent := ∅
  originByCurrentPath : Map (TrackedPath P) (TrackedPath P) := ∅
  nextRevision : Nat := 0
  renderedDiffs : Map (DiffCacheKey P) (Option Text) := ∅
  unifiedDiff : Option Text := none

structure Renderer (P : Type) where
  relativePathFrom : (path root : P) → Option Text
  inferredNativePathString : P → Text
  gitBlobOid : Text → Text
  unifiedDiff : (contextRadius : Nat) → (oldHeader newHeader old new : Text) → Text
  enumerate : Finset (TrackedPath P) → List (TrackedPath P)
  mem_enumerate : ∀ keys key, key ∈ enumerate keys ↔ key ∈ keys
  nodup_enumerate : ∀ keys, (enumerate keys).Nodup

namespace TurnDiffTracker

variable {P : Type} [DecidableEq P] (turn : TurnDiffTracker P)

def trackedContent (content : Text) : TrackedContent × TurnDiffTracker P :=
  (⟨content, turn.nextRevision⟩, { turn with nextRevision := turn.nextRevision + 1 })

variable (path : TrackedPath P)

def insertBaseline (content : Text) : TurnDiffTracker P :=
  let (content, turn) := turn.trackedContent content
  { turn with baselineByPath := turn.baselineByPath.insert path content }

def insertCurrent (content : Text) : TurnDiffTracker P :=
  let (content, turn) := turn.trackedContent content
  { turn with currentByPath := turn.currentByPath.insert path content }

def removeCurrent : TurnDiffTracker P :=
  { turn with currentByPath := turn.currentByPath.erase path }

def removeOrigin : TurnDiffTracker P :=
  { turn with originByCurrentPath := turn.originByCurrentPath.erase path }

def captureBaseline (held : Option Text) : TurnDiffTracker P :=
  if (turn.currentByPath.lookup path).isNone && (turn.baselineByPath.lookup path).isNone then
    match held with
    | some content => turn.insertBaseline path content
    | none => turn
  else turn

def applyAdd (content : Text) (overwrittenContent : Option Text) : TurnDiffTracker P :=
  let turn := turn.removeOrigin path
  (turn.captureBaseline path overwrittenContent).insertCurrent path content

def applyDelete (content : Text) : TurnDiffTracker P :=
  let removed := turn.currentByPath.lookup path
  let turn := turn.removeCurrent path
  let turn :=
    if removed.isNone && (turn.baselineByPath.lookup path).isNone then
      turn.insertBaseline path content
    else turn
  turn.removeOrigin path

def applyMove (sourcePath dest : TrackedPath P)
    (overwritten : Option Text) (newContent : Text) : TurnDiffTracker P :=
  let turn := turn.captureBaseline dest overwritten
  let origin := (turn.originByCurrentPath.lookup sourcePath).getD sourcePath
  let turn := (turn.removeOrigin sourcePath).removeCurrent sourcePath
  let turn := (turn.insertCurrent dest newContent).removeOrigin dest
  if dest ≠ origin then
    { turn with originByCurrentPath := turn.originByCurrentPath.insert dest origin }
  else turn

def applyUpdate (sourcePath : TrackedPath P) (moved : Option (TrackedPath P)) (oldContent : Text)
    (overwritten : Option Text) (newContent : Text) : TurnDiffTracker P :=
  let turn := turn.captureBaseline sourcePath (some oldContent)
  match moved with
  | some dest => turn.applyMove sourcePath dest overwritten newContent
  | none => turn.insertCurrent sourcePath newContent

def applyChange (environmentId : Text) (change : AppliedPatchChange P) : TurnDiffTracker P :=
  let sourcePath : TrackedPath P := ⟨environmentId, change.path⟩
  match change.change with
  | .add content overwrittenContent => turn.applyAdd sourcePath content overwrittenContent
  | .delete content => turn.applyDelete sourcePath content
  | .update moved oldContent overwritten newContent =>
    turn.applyUpdate sourcePath (moved.map (⟨environmentId, ·⟩)) oldContent
      overwritten newContent

def zeroOid : Text := "0000000000000000000000000000000000000000"
def devNull : Text := "/dev/null"
def regularFileMode : Text := "100644"

variable (render : Renderer P) (turn : TurnDiffTracker P)

/-- With several environments the name of the environment comes first. -/
def displayPath (path : TrackedPath P) : Text :=
  let display :=
    ((turn.displayRootsByEnvironment.lookup path.environmentId).bind
      (render.relativePathFrom path.path)).getD (render.inferredNativePathString path.path)
  if 1 < turn.displayRootsByEnvironment.keys.card && !path.environmentId.isEmpty then
    path.environmentId ++ '/' :: display
  else display

def renderDiff (leftPath : TrackedPath P)
    (leftContent : Option Text) (rightPath : TrackedPath P) (rightContent : Option Text) :
    Option Text :=
  if leftContent = rightContent then none
  else
    let slashes (text : Text) : Text := text.map fun c => if c = '\\' then '/' else c
    let leftDisplay := slashes (turn.displayPath render leftPath)
    let rightDisplay := slashes (turn.displayPath render rightPath)
    let oid (content : Option Text) : Text := (content.map render.gitBlobOid).getD zeroOid
    let header (side : Text) (display : Text) (content : Option Text) : Text :=
      if content.isSome then side ++ display else devNull
    let mode : Text :=
      match leftContent, rightContent with
      | none, some _ => "new file mode " ++ regularFileMode ++ ['\n']
      | some _, none => "deleted file mode " ++ regularFileMode ++ ['\n']
      | _, _ => []
    some ("diff --git a/" ++ leftDisplay ++ " b/" ++ rightDisplay ++ ['\n'] ++ mode ++
      "index " ++ oid leftContent ++ ".." ++ oid rightContent ++ ['\n'] ++
      render.unifiedDiff 3 (header "a/" leftDisplay leftContent)
        (header "b/" rightDisplay rightContent) (leftContent.getD []) (rightContent.getD []))

def renamePairs : Map (TrackedPath P) (TrackedPath P) :=
  (render.enumerate turn.originByCurrentPath.keys).foldl
    (fun pairs dest =>
      match turn.originByCurrentPath.lookup dest with
      | none => pairs
      | some originPath =>
        if dest = originPath || (turn.currentByPath.lookup originPath).isSome ||
            (turn.currentByPath.lookup dest).isNone ||
            (turn.baselineByPath.lookup originPath).isNone ||
            (turn.baselineByPath.lookup dest).isSome then pairs
        else pairs.insert originPath dest) ∅

structure Aggregation (P : Type) where
  handled : List (TrackedPath P) := []
  previousDiffs : Map (DiffCacheKey P) (Option Text)
  renderedDiffs : Map (DiffCacheKey P) (Option Text) := ∅
  aggregated : Text := []

def appendDiff (aggregated : Text) : Option Text → Text
  | none => aggregated
  | some diff =>
    let aggregated := aggregated ++ diff
    if aggregated.getLast? = some '\n' then aggregated else aggregated ++ ['\n']

def aggregatePath
    (renamePairs : Map (TrackedPath P) (TrackedPath P)) (pairedDestinations : List (TrackedPath P))
    (state : Aggregation P) (path : TrackedPath P) : Aggregation P :=
  if path ∈ state.handled then state
  else
    let state := { state with handled := path :: state.handled }
    if path ∈ pairedDestinations then state
    else
      let rightPath := (renamePairs.lookup path).getD path
      let state :=
        if (renamePairs.lookup path).isSome then
          { state with handled := rightPath :: state.handled }
        else state
      let leftContent := turn.baselineByPath.lookup path
      let rightContent := turn.currentByPath.lookup rightPath
      let k : DiffCacheKey P :=
        { leftPath := path
          leftRevision := leftContent.map (·.revision)
          rightPath
          rightRevision := rightContent.map (·.revision) }
      let rendered := (state.previousDiffs.lookup k).getD
        (turn.renderDiff render path (leftContent.map (·.content)) rightPath
          (rightContent.map (·.content)))
      { state with
        previousDiffs := state.previousDiffs.erase k
        renderedDiffs := state.renderedDiffs.insert k rendered
        aggregated := appendDiff state.aggregated rendered }

def notAfter : Text → Text → Bool
  | [], _ => true
  | _ :: _, [] => false
  | c :: left, d :: right => c.toNat < d.toNat || (c.toNat = d.toNat && notAfter left right)

def displayOrder : List (TrackedPath P) :=
  let paths := render.enumerate turn.baselineByPath.keys ++ render.enumerate turn.currentByPath.keys
  (paths.insertionSort fun left right =>
    notAfter (turn.displayPath render left) (turn.displayPath render right) = true).eraseReps

def refreshUnifiedDiff : TurnDiffTracker P :=
  let renamePairs := turn.renamePairs render
  let pairedDestinations :=
    (render.enumerate renamePairs.keys).filterMap fun origin => renamePairs.lookup origin
  let state := (turn.displayOrder render).foldl
    (turn.aggregatePath render renamePairs pairedDestinations)
    { previousDiffs := turn.renderedDiffs }
  { turn with
    renderedDiffs := state.renderedDiffs
    unifiedDiff := if state.aggregated.isEmpty then none else some state.aggregated }

def invalidate : TurnDiffTracker P :=
  { turn with valid := false, renderedDiffs := ∅, unifiedDiff := none }

def trackDelta (environmentId : Text) (delta : AppliedPatchDelta P)
    (turn : TurnDiffTracker P) : TurnDiffTracker P :=
  if !turn.valid then turn
  else if !delta.exact then turn.invalidate
  else
    (delta.changes.foldl (fun turn change => turn.applyChange environmentId change)
      turn).refreshUnifiedDiff render

end TurnDiffTracker

/-! ## The net change -/

open Function List

inductive ExactDeltas {P : Type} [DecidableEq P] :
    (Text → Map P Text) → List (Text × AppliedPatchDelta P) → (Text → Map P Text) → Prop
  | nil (files) : ExactDeltas files [] files
  | cons {files environmentId delta after deltas final}
      (claimed : delta.exact = true)
      (exact : ExactChanges (files environmentId) delta.changes after)
      (proper : ∀ change ∈ delta.changes, change.MovesProperly)
      (rest : ExactDeltas (Function.update files environmentId after) deltas final) :
      ExactDeltas files ((environmentId, delta) :: deltas) final

def NetEntry (initial present : Option Text) : (baseline current : Option Text) → Prop
  | some before, some now => initial = some before ∧ present = some now
  | some before, none => initial = some before ∧ present = none
  | none, some now => initial = none ∧ present = some now
  | none, none => present = initial

theorem NetEntry.touch {initial has baseline cur : Option Text}
    (net : NetEntry initial has baseline cur) (next : Option Text) :
    NetEntry initial next (if cur = none ∧ baseline = none then has else baseline) next := by
  cases baseline with
  | some before =>
    have initially : initial = some before := by
      cases cur with
      | none | some => exact net.1
    rw [if_neg (by simp)]
    cases next <;> exact ⟨initially, rfl⟩
  | none =>
    cases cur with
    | some now =>
      rw [if_neg (by simp)]
      cases next with
      | none => exact net.1.symm
      | some after => exact ⟨net.1, rfl⟩
    | none =>
      have eq : has = initial := net
      rw [if_pos ⟨rfl, rfl⟩]
      cases has with
      | none => cases next <;> simp [NetEntry, ← eq]
      | some held => cases next <;> exact ⟨eq.symm, rfl⟩

namespace TurnDiffTracker

variable {P : Type} [DecidableEq P]

def baseline (turn : TurnDiffTracker P) (path : TrackedPath P) : Option Text :=
  (turn.baselineByPath.lookup path).map (·.content)

def current (turn : TurnDiffTracker P) (path : TrackedPath P) : Option Text :=
  (turn.currentByPath.lookup path).map (·.content)

section

variable (turn : TurnDiffTracker P) (path other : TrackedPath P) (content : Text)

theorem baseline_insertBaseline : (turn.insertBaseline path content).baseline other =
      if other = path then some content else turn.baseline other := by
  simp only [baseline, insertBaseline, trackedContent, Map.lookup_insert]
  split <;> rfl

theorem current_insertCurrent : (turn.insertCurrent path content).current other =
      if other = path then some content else turn.current other := by
  simp only [current, insertCurrent, trackedContent, Map.lookup_insert]
  split <;> rfl

theorem current_removeCurrent : (turn.removeCurrent path).current other =
      if other = path then none else turn.current other := by
  simp only [current, removeCurrent, Map.lookup_erase]
  split <;> rfl

theorem view_captureBaseline {α : Type} (held : Option Text) (view : TurnDiffTracker P → α)
    (eq : ∀ body, view (turn.insertBaseline path body) = view turn) :
    view (turn.captureBaseline path held) = view turn := by
  unfold captureBaseline
  split
  · cases held with
    | none => rfl
    | some body => exact eq body
  · rfl

theorem current_captureBaseline (held : Option Text) :
    (turn.captureBaseline path held).current other = turn.current other :=
  turn.view_captureBaseline path held (·.current other) fun _ => rfl

theorem untracked_iff : ((turn.currentByPath.lookup path).isNone &&
      (turn.baselineByPath.lookup path).isNone) = true ↔
      turn.current path = none ∧ turn.baseline path = none := by
  simp [current, baseline]

theorem baseline_captureBaseline (held : Option Text) :
    (turn.captureBaseline path held).baseline other =
      if other = path ∧ turn.current path = none ∧ turn.baseline path = none then held
      else turn.baseline other := by
  have untracked := turn.untracked_iff path
  unfold captureBaseline
  by_cases fresh : turn.current path = none ∧ turn.baseline path = none
  · rw [if_pos (untracked.mpr fresh)]
    by_cases eq : other = path
    · subst eq
      rw [if_pos ⟨rfl, fresh⟩]
      cases held with
      | none => exact fresh.2
      | some content => rw [baseline_insertBaseline, if_pos rfl]
    rw [if_neg fun both => eq both.1]
    cases held with
    | none => rfl
    | some content => rw [baseline_insertBaseline, if_neg eq]
  · rw [if_neg fun both => fresh (untracked.mp both), if_neg fun both => fresh both.2]

theorem baseline_applyMove (tgt : TrackedPath P) (old : Option Text) :
    (turn.applyMove path tgt old content).baseline other =
      (turn.captureBaseline tgt old).baseline other := by
  unfold applyMove
  dsimp only
  split <;> rfl

theorem current_applyMove (tgt : TrackedPath P) (old : Option Text) :
    (turn.applyMove path tgt old content).current other =
      if other = tgt then some content
      else if other = path then none else turn.current other := by
  have captured := current_captureBaseline turn tgt other old
  rw [← captured, ← current_removeCurrent, ← current_insertCurrent]
  unfold applyMove
  dsimp only
  split <;> rfl

end

/-- The entries of one path went over to new content, captured if not tracked. -/
structure Touched (turn : TurnDiffTracker P) (path : TrackedPath P) (held next : Option Text)
    (after : TurnDiffTracker P) : Prop where
  baseline : ∀ other, after.baseline other =
    if other = path ∧ turn.current path = none ∧ turn.baseline path = none then held
    else turn.baseline other
  current : ∀ other, after.current other = if other = path then next else turn.current other

theorem touched_applyAdd (turn : TurnDiffTracker P) (path : TrackedPath P) (content : Text)
    (old : Option Text) :
    Touched turn path old (some content) (turn.applyAdd path content old) where
  baseline other := baseline_captureBaseline _ path other old
  current other := by
    rw [applyAdd, current_insertCurrent, current_captureBaseline]
    rfl

theorem touched_applyDelete (turn : TurnDiffTracker P) (path : TrackedPath P) (content : Text) :
    Touched turn path (some content) none (turn.applyDelete path content) where
  baseline other := by
    have untracked := turn.untracked_iff path
    change (if (turn.currentByPath.lookup path).isNone &&
        (turn.baselineByPath.lookup path).isNone then
        (turn.removeCurrent path).insertBaseline path content
      else turn.removeCurrent path).baseline other = _
    by_cases fresh : turn.current path = none ∧ turn.baseline path = none
    · rw [if_pos (untracked.mpr fresh)]
      refine (baseline_insertBaseline _ path other content).trans ?_
      by_cases eq : other = path
      · rw [if_pos eq, if_pos ⟨eq, fresh⟩]
      rw [if_neg eq, if_neg fun both => eq both.1]
      rfl
    rw [if_neg fun both => fresh (untracked.mp both), if_neg fun both => fresh both.2]
    rfl
  current other := by
    rw [← current_removeCurrent, applyDelete]
    split <;> rfl

theorem touched_applyUpdate_inPlace (turn : TurnDiffTracker P) (path : TrackedPath P)
    (oldContent new : Text) (old : Option Text) :
    Touched turn path (some oldContent) (some new)
      (turn.applyUpdate path none oldContent old new) where
  baseline other := baseline_captureBaseline _ path other (some oldContent)
  current other := by
    rw [applyUpdate, current_insertCurrent, current_captureBaseline]

theorem touched_applyUpdate_move (turn : TurnDiffTracker P) {src tgt : TrackedPath P}
    (proper : src ≠ tgt) (oldContent new : Text) (old : Option Text) :
    Touched (turn.applyAdd tgt new old) src (some oldContent) none
      (turn.applyUpdate src (some tgt) oldContent old
        new) where
  baseline other := by
    have added := turn.touched_applyAdd tgt new old
    rw [applyUpdate, baseline_applyMove]
    simp only [current_captureBaseline, baseline_captureBaseline, added.baseline, added.current]
    by_cases eq : other = src
    · subst eq
      simp [proper]
    · simp [eq, proper, proper.symm]
  current other := by
    have added := turn.touched_applyAdd tgt new old
    rw [applyUpdate, current_applyMove, current_captureBaseline, added.current]
    by_cases eq : other = src
    · subst eq
      simp [proper]
    · simp [eq]

def NetEntries (initial present : TrackedPath P → Option Text) (turn : TurnDiffTracker P) : Prop :=
  ∀ path, NetEntry (initial path) (present path) (turn.baseline path) (turn.current path)

variable {initial : TrackedPath P → Option Text} {turn : TurnDiffTracker P}
  {files : Text → Map P Text} {after : Map P Text}

theorem NetEntries.touched {has : TrackedPath P → Option Text} {after : TurnDiffTracker P}
    {path : TrackedPath P} {held next : Option Text} (net : NetEntries initial has turn)
    (touched : Touched turn path held next after) (holds : has path = held) :
    NetEntries initial (update has path next) after := by
  intro other
  rw [touched.baseline, touched.current]
  by_cases eq : other = path
  · subst eq
    rw [update_self, if_pos rfl]
    have ent := (net other).touch next
    rw [holds] at ent
    simpa using ent
  rw [update_of_ne eq, if_neg eq, if_neg fun both => eq both.1]
  exact net other

def contents (files : Text → Map P Text) (path : TrackedPath P) : Option Text :=
  (files path.environmentId).lookup path.path

theorem contents_set (files : Text → Map P Text) (envId : Text) (path : P) (content : Option Text) :
    contents (update files envId ((files envId).set path content)) =
      update (contents files) ⟨envId, path⟩ content := by
  funext ⟨otherEnvironment, other⟩
  simp only [contents, update_apply, TrackedPath.mk.injEq]
  by_cases here : otherEnvironment = envId
  · subst here
    simp [Map.lookup_set]
  · simp [here]

theorem NetEntries.applyChange (envId : Text) {change : AppliedPatchChange P}
    (net : NetEntries initial (contents files) turn)
    (noted : change.Recorded (files envId)) (proper : change.MovesProperly) :
    NetEntries initial (contents (Function.update files envId (change.replay (files envId))))
      (turn.applyChange envId change) := by
  obtain ⟨path, change⟩ := change
  cases change with
  | add content overwrittenContent =>
    rw [AppliedPatchChange.replay]
    have touched := turn.touched_applyAdd ⟨envId, path⟩ content overwrittenContent
    exact contents_set files envId path (some content) ▸ net.touched touched noted
  | delete content =>
    have touched := turn.touched_applyDelete ⟨envId, path⟩ content
    exact contents_set files envId path none ▸ net.touched touched noted
  | update movePath oldContent old new =>
    cases movePath with
    | none =>
      have touched := turn.touched_applyUpdate_inPlace ⟨envId, path⟩ oldContent
        new old
      exact contents_set files envId path (some new) ▸
        net.touched touched noted
    | some movePath =>
      have apart : path ≠ movePath := fun eq => proper _ _ _ (by rw [eq])
      have tracked : TrackedPath.mk envId path ≠ ⟨envId, movePath⟩ :=
        fun eq => apart (TrackedPath.mk.inj eq).2
      have written := net.touched
        (turn.touched_applyAdd ⟨envId, movePath⟩ new old)
        noted.2
      have removed := written.touched
        (turn.touched_applyUpdate_move tracked oldContent new old)
        ((update_of_ne tracked _ _).trans noted.1)
      have replayed := contents_set (Function.update files envId
        ((files envId).set movePath (some new))) envId path none
      rw [update_self, update_idem, contents_set] at replayed
      exact replayed ▸ removed

theorem NetEntries.applyChanges (envId : Text) {changes : List (AppliedPatchChange P)}
    (net : NetEntries initial (contents files) turn)
    (exact : ExactChanges (files envId) changes after)
    (proper : ∀ change ∈ changes, change.MovesProperly) :
    NetEntries initial (contents (update files envId after))
      (changes.foldl (fun turn change => turn.applyChange envId change)
        turn) := by
  induction changes generalizing files turn with
  | nil =>
    rw [← exact.replayed]
    exact (update_eq_self envId files).symm ▸ net
  | cons change changes ih =>
    obtain ⟨noted, tl⟩ := ExactChanges.cons_iff.mp exact
    have step := net.applyChange envId noted (proper change (by simp))
    have once : update (update files envId
        (change.replay (files envId))) envId after =
        update files envId after := update_idem _ _ _
    rw [← once]
    refine ih step ?_ fun other mem => proper other (by simp [mem])
    rwa [update_self]

theorem valid_captureBaseline (turn : TurnDiffTracker P) (path : TrackedPath P)
    (held : Option Text) : (turn.captureBaseline path held).valid = turn.valid :=
  turn.view_captureBaseline path held (·.valid) fun _ => rfl

theorem valid_applyMove (turn : TurnDiffTracker P) (src tgt : TrackedPath P)
    (old : Option Text) (new : Text) : (turn.applyMove src tgt old new).valid = turn.valid := by
  rw [← turn.valid_captureBaseline tgt old]
  unfold applyMove
  dsimp only
  split <;> rfl

theorem valid_applyChange (turn : TurnDiffTracker P) (envId : Text)
    (change : AppliedPatchChange P) : (turn.applyChange envId change).valid = turn.valid := by
  obtain ⟨path, change⟩ := change
  cases change with
  | add content overwrittenContent => exact valid_captureBaseline _ _ _
  | delete content =>
    simp only [applyChange, applyDelete, removeOrigin]
    split <;> rfl
  | update movePath oldContent old new =>
    cases movePath with
    | none => exact valid_captureBaseline _ _ _
    | some movePath => exact (valid_applyMove _ _ _ _ _).trans (valid_captureBaseline _ _ _)

theorem valid_applyChanges (turn : TurnDiffTracker P) (envId : Text)
    (changes : List (AppliedPatchChange P)) :
    (changes.foldl (fun turn change => turn.applyChange envId change)
      turn).valid = turn.valid := by
  induction changes generalizing turn with
  | nil => rfl
  | cons change changes ih =>
    rw [foldl_cons, ih, valid_applyChange]

theorem NetEntries.trackDelta (render : Renderer P) {envId : Text}
    {delta : AppliedPatchDelta P} (valid : turn.valid = true)
    (net : NetEntries initial (contents files) turn) (claimed : delta.exact = true)
    (exact : ExactChanges (files envId) delta.changes after)
    (proper : ∀ change ∈ delta.changes, change.MovesProperly) :
    (turn.trackDelta render envId delta).valid = true ∧
      NetEntries initial (contents (update files envId after))
        (turn.trackDelta render envId delta) := by
  rw [TurnDiffTracker.trackDelta, valid, claimed]
  exact ⟨(turn.valid_applyChanges envId delta.changes).trans valid,
    net.applyChanges envId exact proper⟩

/-! ## Turns -/

def trackDeltas (render : Renderer P) (deltas : List (Text × AppliedPatchDelta P))
    (turn : TurnDiffTracker P) : TurnDiffTracker P :=
  deltas.foldl (fun turn delta => turn.trackDelta render delta.1 delta.2) turn

/-- The two maps agree with the files before the turn and now. -/
structure NetChange (initial present : Text → Map P Text) (turn : TurnDiffTracker P) :
    Prop where
  baseline : ∀ environmentId path before,
    turn.baselineByPath.lookup ⟨environmentId, path⟩ = some before →
    (initial environmentId).lookup path = some before.content
  current : ∀ environmentId path now, turn.currentByPath.lookup ⟨environmentId, path⟩ = some now →
    (present environmentId).lookup path = some now.content
  removed : ∀ environmentId path, turn.baselineByPath.lookup ⟨environmentId, path⟩ ≠ none →
    turn.currentByPath.lookup ⟨environmentId, path⟩ = none →
    (present environmentId).lookup path = none
  created : ∀ environmentId path, turn.baselineByPath.lookup ⟨environmentId, path⟩ = none →
    turn.currentByPath.lookup ⟨environmentId, path⟩ ≠ none →
    (initial environmentId).lookup path = none
  untouched : ∀ environmentId path, turn.baselineByPath.lookup ⟨environmentId, path⟩ = none →
    turn.currentByPath.lookup ⟨environmentId, path⟩ = none →
    (present environmentId).lookup path = (initial environmentId).lookup path

theorem NetEntries.netChange {initial present : Text → Map P Text} {turn : TurnDiffTracker P}
    (net : NetEntries (contents initial) (contents present) turn) :
    NetChange initial present turn where
  baseline envId path pre found := by
    have ent := net ⟨envId, path⟩
    rw [TurnDiffTracker.baseline, found] at ent
    cases now : turn.current ⟨envId, path⟩ <;> rw [now] at ent <;> exact ent.1
  current envId path now found := by
    have ent := net ⟨envId, path⟩
    rw [TurnDiffTracker.current, found] at ent
    cases pre : turn.baseline ⟨envId, path⟩ <;> rw [pre] at ent <;> exact ent.2
  removed envId path tracked gone := by
    have ent := net ⟨envId, path⟩
    obtain ⟨pre, found⟩ := Option.ne_none_iff_exists'.mp tracked
    rw [TurnDiffTracker.baseline, found, TurnDiffTracker.current, gone] at ent
    exact ent.2
  created envId path fresh tracked := by
    have ent := net ⟨envId, path⟩
    obtain ⟨now, found⟩ := Option.ne_none_iff_exists'.mp tracked
    rw [TurnDiffTracker.baseline, fresh, TurnDiffTracker.current, found] at ent
    exact ent.1
  untouched envId path fresh gone := by
    have ent := net ⟨envId, path⟩
    rw [TurnDiffTracker.baseline, fresh, TurnDiffTracker.current, gone] at ent
    exact ent

theorem trackDeltas_netEntries {initial : TrackedPath P → Option Text}
    {files final : Text → Map P Text} {turn : TurnDiffTracker P} (render : Renderer P)
    {deltas : List (Text × AppliedPatchDelta P)} (exact : ExactDeltas files deltas final)
    (valid : turn.valid = true) (net : NetEntries initial (contents files) turn) :
    NetEntries initial (contents final) (turn.trackDeltas render deltas) := by
  induction exact generalizing turn with
  | nil => exact net
  | cons claimed exact proper tl ih =>
    obtain ⟨stillValid, next⟩ := net.trackDelta render valid claimed exact proper
    exact ih stillValid next

/-- After any exact deltas, the maps of a fresh tracker describe the net change of the files. -/
theorem trackDeltas_netChange (render : Renderer P) (roots : Map Text P)
    (initial final : Text → Map P Text) (deltas : List (Text × AppliedPatchDelta P))
    (exact : ExactDeltas initial deltas final) :
    NetChange initial final (trackDeltas render deltas { displayRootsByEnvironment := roots }) :=
  NetEntries.netChange (trackDeltas_netEntries render exact rfl fun _ => rfl)

instance : LinearOrder (TrackedPath Text) :=
  LinearOrder.lift' (fun key => toLex (key.environmentId, key.path)) fun left right same => by
    obtain ⟨env, path⟩ := Prod.mk.inj (congrArg ofLex same)
    cases left
    cases right
    cases env
    cases path
    rfl

def plainRenderer : Renderer Text where
  relativePathFrom _ _ := none
  inferredNativePathString path := path
  gitBlobOid content := content
  unifiedDiff _ oldHeader newHeader old new :=
    "--- " ++ oldHeader ++ "\n+++ " ++ newHeader ++ "\n@@ -1 +1 @@\n-" ++
      old ++ '+' :: new
  enumerate keys := keys.sort
  mem_enumerate _ _ := Finset.mem_sort _
  nodup_enumerate keys := keys.sort_nodup _

def localChanges : List (AppliedPatchChange Text) :=
  [⟨"a", .update (some "b") "x\n" none "y\n"⟩,
    ⟨"b", .delete "y\n"⟩]

/-- In another environment `a` is added. -/
def remoteChanges : List (AppliedPatchChange Text) := [⟨"a", .add "z\n" none⟩]

def filesBeforeTurn (environmentId : Text) : Map Text Text :=
  if environmentId = "local" then Finmap.singleton "a" "x\n" else ∅

def filesAfterTurn : Text → Map Text Text :=
  Function.update (Function.update filesBeforeTurn "local" ∅) "remote"
    (Finmap.singleton "a" "z\n")

theorem trackDeltas_netChange_turn : NetChange filesBeforeTurn filesAfterTurn
      (trackDeltas plainRenderer
        [("local", { changes := localChanges }),
          ("remote", { changes := remoteChanges })]
        { displayRootsByEnvironment := ∅ }) := by
  refine trackDeltas_netChange _ _ _ _ _ (.cons rfl ?_ ?_ (.cons rfl ?_ ?_ (.nil _)))
  · have deleted : AppliedPatchChange.replay ⟨"b".toList, .delete "y\n".toList⟩
        (AppliedPatchChange.replay ⟨"a".toList, .update (some "b".toList) "x\n".toList none
          "y\n".toList⟩ (filesBeforeTurn "local".toList)) = ∅ := by decide
    refine ExactChanges.cons_iff.mpr ⟨⟨by decide, by decide⟩, ?_⟩
    refine ExactChanges.cons_iff.mpr ⟨?_, deleted ▸ ExactChanges.nil _⟩
    unfold AppliedPatchChange.Recorded
    decide
  · intro change mem oldContent overwritten newContent
    simp only [localChanges, mem_cons, not_mem_nil, or_false] at mem
    rcases mem with rfl | rfl <;> simp
  · refine ExactChanges.cons_iff.mpr ⟨?_, ExactChanges.nil _⟩
    unfold AppliedPatchChange.Recorded
    decide
  intro change mem oldContent overwritten newContent
  simp only [remoteChanges, mem_cons, not_mem_nil, or_false] at mem
  subst mem
  simp

/-! ## The cache of rendered diffs -/

open Map Nat Option

def Records (turn : TurnDiffTracker P) (body : TrackedContent) : Prop :=
  (∃ path, turn.baselineByPath.lookup path = some body) ∨
    ∃ path, turn.currentByPath.lookup path = some body

structure Extends (pre after : TurnDiffTracker P) : Prop where
  rendered : after.renderedDiffs = pre.renderedDiffs
  roots : after.displayRootsByEnvironment = pre.displayRootsByEnvironment
  revisions : pre.nextRevision ≤ after.nextRevision
  recorded : ∃ fresh : Nat → Text, ∀ body, after.Records body → pre.Records body ∨
    (pre.nextRevision ≤ body.revision ∧ body.revision < after.nextRevision ∧
      body.content = fresh body.revision)

variable {pre after fst snd : TurnDiffTracker P} {render : Renderer P}
  {turn : TurnDiffTracker P}

theorem Extends.of_records (rendered : after.renderedDiffs = pre.renderedDiffs)
    (roots : after.displayRootsByEnvironment = pre.displayRootsByEnvironment)
    (revs : after.nextRevision = pre.nextRevision)
    (noted : ∀ body, after.Records body → pre.Records body) : Extends pre after :=
  ⟨rendered, roots, revs.ge, fun _ => [], fun body held => .inl (noted body held)⟩

theorem Extends.refl (turn : TurnDiffTracker P) : Extends turn turn :=
  .of_records rfl rfl rfl fun _ held => held

theorem Extends.trans {third : TurnDiffTracker P} (left : Extends fst snd)
    (right : Extends snd third) : Extends fst third := by
  obtain ⟨early, recordedEarly⟩ := left.recorded
  obtain ⟨late, recordedLate⟩ := right.recorded
  have middle := left.revisions
  have last := right.revisions
  refine ⟨right.rendered.trans left.rendered, right.roots.trans left.roots, middle.trans last,
    fun rev => if rev < snd.nextRevision then early rev else late rev,
    fun body held => ?_⟩
  rcases recordedLate body held with held | ⟨above, below, eq⟩
  · rcases recordedEarly body held with held | ⟨above, below, eq⟩
    · exact .inl held
    · exact .inr ⟨above, by omega, eq.trans (if_pos below).symm⟩
  · exact .inr ⟨by omega, below, eq.trans (if_neg (Nat.not_lt.mpr above)).symm⟩

section

variable (turn : TurnDiffTracker P) (path : TrackedPath P) (body : Text)

theorem extends_insertBaseline : Extends turn (turn.insertBaseline path body) := by
  refine ⟨rfl, rfl, le_succ _, fun _ => body, ?_⟩
  rintro noted (⟨y, hit⟩ | held)
  · obtain ⟨-, rfl⟩ | ⟨-, hit⟩ := of_lookup_insert hit
    · exact .inr ⟨le_rfl, lt_succ_self _, rfl⟩
    · exact .inl (.inl ⟨y, hit⟩)
  · exact .inl (.inr held)

theorem extends_insertCurrent : Extends turn (turn.insertCurrent path body) := by
  refine ⟨rfl, rfl, le_succ _, fun _ => body, ?_⟩
  rintro noted (held | ⟨y, hit⟩)
  · exact .inl (.inl held)
  obtain ⟨-, rfl⟩ | ⟨-, hit⟩ := of_lookup_insert hit
  · exact .inr ⟨le_rfl, lt_succ_self _, rfl⟩
  · exact .inl (.inr ⟨y, hit⟩)

theorem extends_removeCurrent : Extends turn (turn.removeCurrent path) := by
  refine .of_records rfl rfl rfl ?_
  rintro noted (held | ⟨y, hit⟩)
  · exact .inl held
  · exact .inr ⟨y, (of_lookup_erase hit).2⟩

theorem extends_captureBaseline (held : Option Text) :
    Extends turn (turn.captureBaseline path held) := by
  unfold captureBaseline
  split
  · cases held with
    | none => exact .refl turn
    | some body => exact turn.extends_insertBaseline path body
  · exact .refl turn

theorem extends_origins (origins : Map (TrackedPath P) (TrackedPath P)) :
    Extends turn { turn with originByCurrentPath := origins } :=
  .of_records rfl rfl rfl fun _ held => held

theorem extends_applyMove (dest : TrackedPath P) (old : Option Text) :
    Extends turn (turn.applyMove path dest old body) := by
  have captured := turn.extends_captureBaseline dest old
  unfold applyMove
  dsimp only
  generalize turn.captureBaseline dest old = pre at captured ⊢
  have moved : Extends turn
      (((pre.removeOrigin path).removeCurrent path).insertCurrent dest body) :=
    ((captured.trans (pre.extends_origins _)).trans (extends_removeCurrent _ path)).trans
      (extends_insertCurrent _ dest body)
  split
  · exact (moved.trans (extends_origins _ _)).trans (extends_origins _ _)
  · exact moved.trans (extends_origins _ _)

end

theorem extends_applyChange (turn : TurnDiffTracker P) (envId : Text)
    (change : AppliedPatchChange P) : Extends turn (turn.applyChange envId change) := by
  obtain ⟨path, change⟩ := change
  cases change with
  | add body overwrittenContent =>
    exact ((turn.extends_origins _).trans (extends_captureBaseline _ _ _)).trans
      (extends_insertCurrent _ _ _)
  | delete body =>
    have gone := turn.extends_removeCurrent ⟨envId, path⟩
    simp only [applyChange, applyDelete]
    split
    · exact (gone.trans (extends_insertBaseline _ _ _)).trans (extends_origins _ _)
    · exact gone.trans (extends_origins _ _)
  | update movePath oldContent old new =>
    have captured := turn.extends_captureBaseline ⟨envId, path⟩ (some oldContent)
    cases movePath with
    | none => exact captured.trans (extends_insertCurrent _ _ _)
    | some movePath => exact captured.trans (extends_applyMove _ _ _ _ _)

theorem extends_applyChanges (turn : TurnDiffTracker P) (envId : Text)
    (changes : List (AppliedPatchChange P)) :
    Extends turn (changes.foldl (fun turn change => turn.applyChange envId change) turn) := by
  induction changes generalizing turn with
  | nil => exact .refl turn
  | cons change changes ih =>
    exact (turn.extends_applyChange envId change).trans (ih _)

def renderKey (render : Renderer P) (turn : TurnDiffTracker P) (texts : Nat → Text)
    (key : DiffCacheKey P) : Option Text :=
  turn.renderDiff render key.leftPath (key.leftRevision.map texts) key.rightPath
    (key.rightRevision.map texts)

def KeyBelow (bound : Nat) (key : DiffCacheKey P) : Prop :=
  (∀ revision ∈ key.leftRevision, revision < bound) ∧
    ∀ revision ∈ key.rightRevision, revision < bound

def SoundCache (render : Renderer P) (turn : TurnDiffTracker P) (texts : Nat → Text)
    (cache : Map (DiffCacheKey P) (Option Text)) : Prop :=
  ∀ key rendered, cache.lookup key = some rendered →
    KeyBelow turn.nextRevision key ∧ rendered = turn.renderKey render texts key

def SoundRevisions (turn : TurnDiffTracker P) (texts : Nat → Text) : Prop :=
  ∀ body, turn.Records body → body.revision < turn.nextRevision ∧ body.content = texts body.revision

def Sound (render : Renderer P) (turn : TurnDiffTracker P) : Prop :=
  ∃ texts, turn.SoundRevisions texts ∧ turn.SoundCache render texts turn.renderedDiffs

omit [DecidableEq P] in
theorem renderDiff_congr (render : Renderer P)
    (roots : fst.displayRootsByEnvironment = snd.displayRootsByEnvironment)
    (leftPath : TrackedPath P) (leftContent : Option Text) (right : TrackedPath P)
    (rightContent : Option Text) :
    fst.renderDiff render leftPath leftContent right rightContent =
      snd.renderDiff render leftPath leftContent right rightContent := by
  have display : ∀ path, fst.displayPath render path = snd.displayPath render path := by
    intro path
    rw [displayPath, displayPath, roots]
  simp [renderDiff, display]

theorem map_texts_eq {texts other : Nat → Text} {bound : Nat} {rev : Option Nat}
    (agree : ∀ rev < bound, texts rev = other rev)
    (below : ∀ given ∈ rev, given < bound) : rev.map texts = rev.map other := by
  cases rev with
  | none => rfl
  | some given => exact congrArg some (agree given (below given rfl))

theorem Sound.extends (sound : Sound render pre) (ext : Extends pre after) :
    Sound render after := by
  obtain ⟨texts, revs, cache⟩ := sound
  obtain ⟨fresh, noted⟩ := ext.recorded
  have later := ext.revisions
  have agree : ∀ revision < pre.nextRevision, texts revision =
      if revision < pre.nextRevision then texts revision else fresh revision :=
    fun revision early => (if_pos early).symm
  refine ⟨fun revision => if revision < pre.nextRevision then texts revision
    else fresh revision, fun body held => ?_, fun k rendered hit => ?_⟩
  · rcases noted body held with held | ⟨above, below, eq⟩
    · obtain ⟨below, eq⟩ := revs body held
      exact ⟨by omega, eq.trans (agree _ below)⟩
    · exact ⟨below, eq.trans (if_neg (Nat.not_lt.mpr above)).symm⟩
  rw [ext.rendered] at hit
  obtain ⟨⟨left, right⟩, eq⟩ := cache k rendered hit
  refine ⟨⟨fun revision mem => (left revision mem).trans_le later,
    fun revision mem => (right revision mem).trans_le later⟩, ?_⟩
  rw [eq, renderKey, renderKey, renderDiff_congr render ext.roots,
    map_texts_eq agree left, map_texts_eq agree right]

section

variable {render : Renderer P} {turn : TurnDiffTracker P} {texts : Nat → Text}

theorem map_content_eq {lookup : Option TrackedContent}
    (sound : ∀ body ∈ lookup, body.content = texts body.revision) :
    lookup.map (·.content) = (lookup.map (·.revision)).map texts := by
  cases lookup with
  | none => rfl
  | some body => exact congrArg some (sound body rfl)

structure SameShown (render : Renderer P) (turn : TurnDiffTracker P) (texts : Nat → Text)
    (cached plain : Aggregation P) : Prop where
  handled : cached.handled = plain.handled
  aggregated : cached.aggregated = plain.aggregated
  cache : SoundCache render turn texts cached.previousDiffs
  rendered : SoundCache render turn texts cached.renderedDiffs
  uncached : plain.previousDiffs = ∅

variable {cache : Map (DiffCacheKey P) (Option Text)} {cached plain : Aggregation P}

theorem SoundCache.erase (sound : SoundCache render turn texts cache) (k : DiffCacheKey P) :
    SoundCache render turn texts (cache.erase k) := by
  intro y rendered hit
  exact sound y rendered (of_lookup_erase hit).2

theorem SoundCache.insert (sound : SoundCache render turn texts cache) {k : DiffCacheKey P}
    (below : KeyBelow turn.nextRevision k) :
    SoundCache render turn texts (cache.insert k (turn.renderKey render texts k)) := by
  intro y rendered hit
  obtain ⟨rfl, rfl⟩ | ⟨-, hit⟩ := of_lookup_insert hit
  · exact ⟨below, rfl⟩
  · exact sound y rendered hit

theorem SoundCache.getD_lookup (sound : SoundCache render turn texts cache) (key : DiffCacheKey P) :
    (cache.lookup key).getD (turn.renderKey render texts key) =
      turn.renderKey render texts key := by
  cases hit : cache.lookup key with
  | none => rfl
  | some rendered => exact (sound key rendered hit).2

def pairKey (turn : TurnDiffTracker P) (leftPath rightPath : TrackedPath P) : DiffCacheKey P :=
  { leftPath
    leftRevision := (turn.baselineByPath.lookup leftPath).map (·.revision)
    rightPath
    rightRevision := (turn.currentByPath.lookup rightPath).map (·.revision) }

theorem keyBelow_pairKey (revs : turn.SoundRevisions texts) (leftPath right : TrackedPath P) :
    KeyBelow turn.nextRevision (turn.pairKey leftPath right) := by
  constructor
  · intro rev mem
    obtain ⟨body, hit, rfl⟩ := map_eq_some_iff.mp mem
    exact (revs body (.inl ⟨leftPath, hit⟩)).1
  intro rev mem
  obtain ⟨body, hit, rfl⟩ := map_eq_some_iff.mp mem
  exact (revs body (.inr ⟨right, hit⟩)).1

theorem renderDiff_pairKey (revs : turn.SoundRevisions texts) (leftPath right : TrackedPath P) :
    turn.renderDiff render leftPath ((turn.baselineByPath.lookup leftPath).map (·.content)) right
        ((turn.currentByPath.lookup right).map (·.content)) =
      turn.renderKey render texts (turn.pairKey leftPath right) := by
  rw [map_content_eq fun body hit => (revs body (.inl ⟨leftPath, hit⟩)).2,
    map_content_eq fun body hit => (revs body (.inr ⟨right, hit⟩)).2]
  rfl

def draw (render : Renderer P) (turn : TurnDiffTracker P) (leftPath rightPath : TrackedPath P)
    (handled : List (TrackedPath P)) (state : Aggregation P) : Aggregation P :=
  let key := turn.pairKey leftPath rightPath
  let rendered := (state.previousDiffs.lookup key).getD
    (turn.renderDiff render leftPath
      ((turn.baselineByPath.lookup leftPath).map (·.content)) rightPath
      ((turn.currentByPath.lookup rightPath).map (·.content)))
  { handled
    previousDiffs := state.previousDiffs.erase key
    renderedDiffs := state.renderedDiffs.insert key rendered
    aggregated := appendDiff state.aggregated rendered }

theorem SameShown.draw (eq : SameShown render turn texts cached plain)
    (revs : turn.SoundRevisions texts) (leftPath right : TrackedPath P)
    (handled : List (TrackedPath P)) :
    SameShown render turn texts (TurnDiffTracker.draw render turn leftPath right handled cached)
      (TurnDiffTracker.draw render turn leftPath right handled plain) := by
  obtain ⟨-, aggregated, cache, rendered, uncached⟩ := eq
  have val := cache.getD_lookup (turn.pairKey leftPath right)
  have absent : plain.previousDiffs.lookup (turn.pairKey leftPath right) = none := by
    rw [uncached]
    exact Finmap.lookup_empty _
  unfold TurnDiffTracker.draw
  dsimp only
  rw [renderDiff_pairKey revs, val, absent]
  refine ⟨rfl, ?_, cache.erase _, rendered.insert (keyBelow_pairKey revs _ _), ?_⟩
  · dsimp only
    rw [aggregated]
    rfl
  · exact (erase_eq_self absent).trans uncached

theorem aggregatePath_eq (pairs : Map (TrackedPath P) (TrackedPath P))
    (paired : List (TrackedPath P)) (state : Aggregation P) (path : TrackedPath P) :
    turn.aggregatePath render pairs paired state path =
      if path ∈ state.handled then state
      else if path ∈ paired then { state with handled := path :: state.handled }
      else draw render turn path ((pairs.lookup path).getD path)
        ((pairs.lookup path).toList ++ path :: state.handled) state := by
  unfold aggregatePath
  cases pairs.lookup path <;> rfl

theorem SameShown.aggregatePath (eq : SameShown render turn texts cached plain)
    (revs : turn.SoundRevisions texts) (pairs : Map (TrackedPath P) (TrackedPath P))
    (paired : List (TrackedPath P)) (path : TrackedPath P) :
    SameShown render turn texts (turn.aggregatePath render pairs paired cached path)
      (turn.aggregatePath render pairs paired plain path) := by
  rw [aggregatePath_eq, aggregatePath_eq, eq.handled]
  split
  · exact eq
  split
  · exact ⟨rfl, eq.aggregated, eq.cache, eq.rendered, eq.uncached⟩
  · exact eq.draw revs _ _ _

theorem SameShown.foldl (eq : SameShown render turn texts cached plain)
    (revs : turn.SoundRevisions texts) (pairs : Map (TrackedPath P) (TrackedPath P))
    (paired paths : List (TrackedPath P)) :
    SameShown render turn texts (paths.foldl (turn.aggregatePath render pairs paired) cached)
      (paths.foldl (turn.aggregatePath render pairs paired) plain) := by
  induction paths generalizing cached plain with
  | nil => exact eq
  | cons path paths ih =>
    exact ih (eq.aggregatePath revs pairs paired path)

end

def rerendered (render : Renderer P) (turn : TurnDiffTracker P) : Option Text :=
  ({ turn with renderedDiffs := ∅ }.refreshUnifiedDiff render).unifiedDiff

theorem Sound.refreshUnifiedDiff (sound : Sound render turn) :
    Sound render (turn.refreshUnifiedDiff render) ∧ (turn.refreshUnifiedDiff render).unifiedDiff =
        (turn.refreshUnifiedDiff render).rerendered render := by
  obtain ⟨texts, revs, cache⟩ := sound
  have nothing : SoundCache render turn texts ∅ := by
    intro k rendered hit
    cases hit
  have eq : SameShown render turn texts { previousDiffs := turn.renderedDiffs }
      { previousDiffs := ∅ } := ⟨rfl, rfl, cache, nothing, rfl⟩
  have shown := eq.foldl revs (turn.renamePairs render)
    ((render.enumerate (turn.renamePairs render).keys).filterMap fun origin =>
      (turn.renamePairs render).lookup origin) (turn.displayOrder render)
  refine ⟨⟨texts, revs, shown.rendered⟩, ?_⟩
  exact congrArg (fun txt : Text => if txt.isEmpty then none else some txt) shown.aggregated

theorem displayOrder_empty (render : Renderer P) (roots : Map Text P) :
    displayOrder render { displayRootsByEnvironment := roots } = [] := by
  have none : render.enumerate ∅ = [] := by
    refine eq_nil_iff_forall_not_mem.mpr fun path mem => ?_
    exact absurd ((render.mem_enumerate ∅ path).mp mem) (Finset.notMem_empty path)
  change (insertionSort _ (render.enumerate ∅ ++ render.enumerate ∅)).eraseReps = []
  rw [none]
  rfl

/-- A sound tracker stores what rendering without a cache gives, an invalid one nothing. -/
structure Transparent (render : Renderer P) (turn : TurnDiffTracker P) : Prop where
  sound : Sound render turn
  stored : turn.valid = true → turn.unifiedDiff = turn.rerendered render
  dropped : turn.valid = false → turn.unifiedDiff = none

theorem transparent_fresh (render : Renderer P) (roots : Map Text P) :
    Transparent render { displayRootsByEnvironment := roots } where
  sound := by
    refine ⟨fun _ => [], ?_, fun k rendered hit => by cases hit⟩
    rintro body (⟨path, hit⟩ | ⟨path, hit⟩) <;> cases hit
  stored _ := by
    rw [rerendered, refreshUnifiedDiff]
    change none = if (Aggregation.aggregated (foldl _ _ (displayOrder render
      { displayRootsByEnvironment := roots }))).isEmpty then none else some _
    rw [displayOrder_empty]
    rfl
  dropped invalid := by cases invalid

theorem Transparent.trackDelta (clear : Transparent render turn) (envId : Text)
    (delta : AppliedPatchDelta P) : Transparent render (turn.trackDelta render envId delta) := by
  rw [TurnDiffTracker.trackDelta]
  cases valid : turn.valid with
  | false => exact clear
  | true =>
    cases delta.exact with
    | false =>
      obtain ⟨texts, revs, -⟩ := clear.sound
      refine ⟨⟨texts, revs, fun k rendered hit => by cases hit⟩, ?_, fun _ => rfl⟩
      intro never
      cases never
    | true =>
      obtain ⟨sound, stored⟩ := (clear.sound.extends
        (turn.extends_applyChanges envId delta.changes)).refreshUnifiedDiff
      refine ⟨sound, fun _ => stored, fun invalid => ?_⟩
      have still := (turn.valid_applyChanges envId delta.changes).trans valid
      exact absurd (still.symm.trans invalid) (by decide)

theorem transparent_trackDeltas (clear : Transparent render turn)
    (deltas : List (Text × AppliedPatchDelta P)) :
    Transparent render (turn.trackDeltas render deltas) := by
  induction deltas generalizing turn with
  | nil => exact clear
  | cons delta deltas ih => exact ih (clear.trackDelta delta.1 delta.2)

/-- A valid tracker stores the diff rendered anew, an invalid one none. -/
theorem unifiedDiff_trackDeltas (render : Renderer P) (displayRoots : Map Text P)
    (deltas : List (Text × AppliedPatchDelta P)) :
    ((trackDeltas render deltas { displayRootsByEnvironment := displayRoots }).valid = true →
        (trackDeltas render deltas { displayRootsByEnvironment := displayRoots }).unifiedDiff =
          rerendered render
            (trackDeltas render deltas { displayRootsByEnvironment := displayRoots })) ∧
      ((trackDeltas render deltas { displayRootsByEnvironment := displayRoots }).valid = false →
        (trackDeltas render deltas { displayRootsByEnvironment := displayRoots }).unifiedDiff =
          none) := by
  have transparent := transparent_trackDeltas (transparent_fresh render displayRoots) deltas
  exact ⟨transparent.stored, transparent.dropped⟩

/-- After a delta that is not exact nothing is stored, though there is a diff to render. -/
theorem unifiedDiff_dropped_inexact : (trackDeltas plainRenderer
        [("local", { changes := remoteChanges }), ("local", { exact := false })]
        {}).unifiedDiff = none ∧
      rerendered plainRenderer (trackDeltas plainRenderer
        [("local", { changes := remoteChanges }), ("local", { exact := false })]
        {}) ≠ none := by
  constructor
  · rfl
  · decide +kernel

end TurnDiffTracker
end TurnDiff
end Codex
