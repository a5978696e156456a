import Codex.Foundation.Text

/-!
# Stable lines and tail of a streamed transcript

The rendered lines are emitted, queued or held back as the tail.
-/

namespace Codex.Streaming

open List

inductive HistoryRenderMode
  | rich
  | raw
  deriving DecidableEq

inductive TableHoldbackState
  | none
  | pendingHeader (headerStart : Nat)
  | confirmed (tableStart : Nat)

structure MarkdownStreamCollector where
  buffer : Text := []
  committedSourceLen : Nat := 0

namespace MarkdownStreamCollector

variable (collector : MarkdownStreamCollector)

def pushDelta (delta : Text) : MarkdownStreamCollector :=
  { collector with buffer := collector.buffer ++ delta }

def commitCompleteSource : Option MarkdownStreamCollector :=
  let commitEnd := (collector.buffer.rdropWhile (· ≠ '\n')).length
  if commitEnd ≤ collector.committedSourceLen then none
  else some { collector with committedSourceLen := commitEnd }

def committedSource : Text := collector.buffer.take collector.committedSourceLen

end MarkdownStreamCollector

/-- The markdown renderer and the scanner for tables. -/
structure Parts (L S : Type) where
  render : Text → (width : Option Nat) → HistoryRenderMode → List L
  scanner : S
  pushSourceChunk : S → Text → S
  holdback : S → TableHoldbackState

structure StablePrefixLenCache where
  sourceStart : Nat
  width : Option Nat
  stablePrefixLen : Nat

structure StreamCore (L S : Type) where
  collector : MarkdownStreamCollector := {}
  queuedLines : List L := []
  width : Option Nat
  lines : List L := []
  enqueuedStableLen : Nat := 0
  emittedStableLen : Nat := 0
  renderMode : HistoryRenderMode
  stablePrefixLenCache : Option StablePrefixLenCache := none
  holdbackScanner : S

variable {L S : Type}

/-- A slice of the lines; it panics outside them. -/
def slice (lines : List L) (start stop : Nat) : Option (List L) :=
  if start ≤ stop ∧ stop ≤ lines.length then some ((lines.take stop).drop start) else none

namespace StreamCore

variable (parts : Parts L S) (core : StreamCore L S)

def currentTailLines : List L := core.lines.drop (min core.enqueuedStableLen core.lines.length)

def stablePrefixLenForSourceStart (sourceStart : Nat) : Nat × Option StablePrefixLenCache :=
  let stablePrefixLen :=
    (parts.render (core.collector.committedSource.take sourceStart) core.width .rich).length
  let rendered := (stablePrefixLen, some ⟨sourceStart, core.width, stablePrefixLen⟩)
  match core.stablePrefixLenCache with
  | some cache =>
    if cache.sourceStart = sourceStart ∧ cache.width = core.width then
      (cache.stablePrefixLen, core.stablePrefixLenCache)
    else rendered
  | none => rendered

def tailBudgetFromSourceStart (sourceStart : Nat) : Nat × Option StablePrefixLenCache :=
  if sourceStart = 0 then (core.lines.length, core.stablePrefixLenCache)
  else
    let (stablePrefixLen, cache) := core.stablePrefixLenForSourceStart parts
      (min sourceStart core.collector.committedSource.length)
    (core.lines.length - stablePrefixLen, cache)

def activeTailBudgetLines : Nat × Option StablePrefixLenCache :=
  if core.renderMode = .raw then (0, core.stablePrefixLenCache)
  else match parts.holdback core.holdbackScanner with
    | .confirmed start | .pendingHeader start => core.tailBudgetFromSourceStart parts start
    | .none => (0, core.stablePrefixLenCache)

def computeTargetStableLen : Nat × Option StablePrefixLenCache :=
  let (tailBudget, cache) := core.activeTailBudgetLines parts
  (max (core.lines.length - tailBudget) core.emittedStableLen, cache)

/-- The queue is made anew from the current render. -/
def requeue (target : Nat) : Option (StreamCore L S) := do
  let queuedLines ← if core.emittedStableLen < target then
    slice core.lines core.emittedStableLen target else some []
  return { core with queuedLines, enqueuedStableLen := target }

def syncStableQueue : Option (Bool × StreamCore L S) := do
  let (target, stablePrefixLenCache) := core.computeTargetStableLen parts
  let core := { core with stablePrefixLenCache }
  if target < core.enqueuedStableLen then
    let core ← core.requeue target
    return (!core.queuedLines.isEmpty, core)
  else if target = core.enqueuedStableLen then return (false, core)
  else
    let added ← slice core.lines core.enqueuedStableLen target
    return (true,
      { core with queuedLines := core.queuedLines ++ added, enqueuedStableLen := target })

def rebuildStableQueueFromRender : Option (StreamCore L S) :=
  let (target, stablePrefixLenCache) := core.computeTargetStableLen parts
  { core with stablePrefixLenCache }.requeue target

/-- The collector after a delta that completes a line. -/
def commits (delta : Text) : Option MarkdownStreamCollector :=
  if '\n' ∈ delta then (core.collector.pushDelta delta).commitCompleteSource else none

def append (collector : MarkdownStreamCollector) : StreamCore L S :=
  { core with
    collector
    holdbackScanner := parts.pushSourceChunk core.holdbackScanner
      (collector.committedSource.drop core.collector.committedSourceLen)
    lines := parts.render collector.committedSource core.width core.renderMode }

def pushDelta (delta : Text) : Option (Bool × StreamCore L S) :=
  match core.commits delta with
  | some collector => (core.append parts collector).syncStableQueue parts
  | none => some (false, { core with collector := core.collector.pushDelta delta })

/-- `tick` is the batch of one line. -/
def tickBatch (maxLines : Nat) : List L × StreamCore L S :=
  let step := core.queuedLines.take maxLines
  (step, { core with
    queuedLines := core.queuedLines.drop maxLines
    emittedStableLen := core.emittedStableLen + step.length })

/-- What `set_width` and `set_render_mode` do after the field is set. -/
def relayout : Option (StreamCore L S) :=
  let source := core.collector.committedSource
  if source = [] then some core
  else
    let lines := parts.render source core.width core.renderMode
    let emitted := min core.emittedStableLen lines.length
    let pending := core.queuedLines ≠ []
    let emitted := if pending ∧ emitted = lines.length ∧ 0 < emitted then emitted - 1 else emitted
    let laid := { core with lines, queuedLines := [], emittedStableLen := emitted }
    if 0 < emitted ∧ ¬ pending ∧ ¬ core.enqueuedStableLen < core.lines.length then
      some { laid with enqueuedStableLen := lines.length }
    else laid.rebuildStableQueueFromRender parts

def setWidth (width : Option Nat) : Option (StreamCore L S) :=
  if core.width = width then some core else { core with width }.relayout parts

def setRenderMode (renderMode : HistoryRenderMode) : Option (StreamCore L S) :=
  if core.renderMode = renderMode then some core else { core with renderMode }.relayout parts

end StreamCore

inductive Act
  | pushDelta (delta : Text)
  | tick
  | tickBatch (maxLines : Nat)
  | setWidth (width : Option Nat)
  | setRenderMode (renderMode : HistoryRenderMode)

section

variable (parts : Parts L S) (core : StreamCore L S)

def Act.next : Act → Option (StreamCore L S)
  | .pushDelta delta => Prod.snd <$> core.pushDelta parts delta
  | .tick => some (core.tickBatch 1).2
  | .tickBatch maxLines => some (core.tickBatch maxLines).2
  | .setWidth width => core.setWidth parts width
  | .setRenderMode renderMode => core.setRenderMode parts renderMode

/-- No more lines are emitted or queued than are counted as enqueued. -/
def Counted : Prop :=
  core.emittedStableLen + core.queuedLines.length ≤ core.enqueuedStableLen

/-- The queue holds lines of the current render, in their place. -/
def InPlace : Prop :=
  core.enqueuedStableLen ≤ core.lines.length ∧
    core.queuedLines = (core.lines.take core.enqueuedStableLen).drop core.emittedStableLen

/-- Each line of the render is emitted, queued or in the tail. -/
structure Partitioned : Prop where
  emitted : core.emittedStableLen ≤ core.enqueuedStableLen
  inPlace : InPlace core
  tail : core.currentTailLines = core.lines.drop core.enqueuedStableLen

/-- If all lines are emitted, the new render has no more of them. -/
def Settled : Prop :=
  0 < core.emittedStableLen → core.queuedLines = [] →
    core.lines.length ≤ core.enqueuedStableLen →
    (parts.render core.collector.committedSource core.width core.renderMode).length ≤
      core.emittedStableLen

/-- The new render of a call leaves the queued lines in their place. -/
def Steady : Act → Prop
  | .pushDelta delta => ∀ collector, core.commits delta = some collector →
      InPlace (core.append parts collector)
  | .setWidth width => Settled parts { core with width }
  | .setRenderMode renderMode => Settled parts { core with renderMode }
  | .tick | .tickBatch _ => True

end

section

variable (parts : Parts L S) (width : Option Nat) (renderMode : HistoryRenderMode)
  (acts : List Act)

def run : Option (StreamCore L S) :=
  acts.foldlM (Act.next parts) { width, renderMode, holdbackScanner := parts.scanner }

/-- Every call of the run is steady in the state before it. -/
def SteadyRun : Prop :=
  ∀ front act core, front ++ [act] <+: acts → run parts width renderMode front = some core →
    Steady parts core act

end

variable {parts : Parts L S} {core : StreamCore L S}

theorem requeue_spec {target : Nat} (above : core.emittedStableLen ≤ target)
    (within : core.emittedStableLen < target → target ≤ core.lines.length) :
    ∃ after, core.requeue target = some after ∧ Counted after ∧
      (core.emittedStableLen ≤ core.lines.length → InPlace after) := by
  rw [StreamCore.requeue]
  split
  next more => simp [slice, above, within more, Counted, InPlace]
  next done =>
    obtain rfl : core.emittedStableLen = target := by omega
    simp [Counted, InPlace]

variable (parts core) in
theorem target_spec :
    let target := (core.computeTargetStableLen parts).1
    core.emittedStableLen ≤ target ∧
      (core.emittedStableLen < target → target ≤ core.lines.length) := by
  simp only [StreamCore.computeTargetStableLen]
  omega

section

variable (counted : Counted core)
include counted

theorem syncStableQueue_spec :
    ∃ synced, core.syncStableQueue parts = some synced ∧ Counted synced.2 ∧
      (InPlace core → InPlace synced.2) := by
  have spec := target_spec parts core
  rw [StreamCore.syncStableQueue]
  generalize core.computeTargetStableLen parts = found at spec
  obtain ⟨target, cache⟩ := found
  obtain ⟨above, within⟩ := spec
  simp only [Counted] at counted
  dsimp only at above within ⊢
  split_ifs with less same
  · obtain ⟨after, made, counts, place⟩ :=
      @requeue_spec _ _ { core with stablePrefixLenCache := cache } _ above within
    rw [made]
    exact ⟨_, rfl, counts, fun ⟨enqueued, _⟩ => place (by dsimp only; omega)⟩
  · exact ⟨_, rfl, counted, id⟩
  have le := within (by omega)
  have reached : core.enqueuedStableLen ≤ target := by omega
  rw [slice, if_pos ⟨reached, le⟩]
  refine ⟨_, rfl, ?_, fun ⟨enqueued, queued⟩ => ⟨le, ?_⟩⟩
  · simp only [Counted, length_append, length_drop, length_take]
    omega
  have split := take_append_drop core.enqueuedStableLen (take target core.lines)
  rw [take_take, Nat.min_eq_left reached] at split
  conv_rhs => rw [← split]
  rw [drop_append_of_le_length (by rw [length_take]; dsimp only; omega), queued]

theorem relayout_spec : ∃ after, core.relayout parts = some after ∧ Counted after ∧
    (InPlace core → Settled parts core → InPlace after) := by
  rw [StreamCore.relayout]
  split
  next => exact ⟨_, rfl, counted, fun place _ => place⟩
  extract_lets lines emitted pending kept laid
  have le : kept ≤ lines.length := by
    simp only [kept, emitted]
    split <;> omega
  split
  next all =>
    obtain ⟨some, empty, whole⟩ := all
    have same : kept = emitted := if_neg fun pends => empty pends.1
    refine ⟨_, rfl, le, fun _ settled => ⟨le_rfl, ?_⟩⟩
    have fewer : lines.length ≤ core.emittedStableLen :=
      settled (by omega) (not_not.mp empty) (Nat.not_lt.mp whole)
    simp [laid, same, emitted, fewer]
  next =>
    obtain ⟨above, within⟩ := target_spec parts laid
    obtain ⟨after, made, counts, place⟩ := @requeue_spec _ _
      { laid with stablePrefixLenCache := (laid.computeTargetStableLen parts).2 } _ above within
    exact ⟨after, made, counts, fun _ _ => place le⟩

theorem tickBatch_spec (maxLines : Nat) :
    Counted (core.tickBatch maxLines).2 ∧ (InPlace core → InPlace (core.tickBatch maxLines).2) := by
  simp only [StreamCore.tickBatch, Counted, InPlace, length_drop, length_take] at counted ⊢
  refine ⟨by omega, fun ⟨enqueued, queued⟩ => ⟨enqueued, ?_⟩⟩
  rw [← drop_drop, ← queued, drop_eq_drop_iff]
  omega

theorem next_spec (act : Act) : ∃ after, act.next parts core = some after ∧ Counted after ∧
    (InPlace core → Steady parts core act → InPlace after) := by
  cases act with
  | pushDelta delta =>
    simp only [Act.next, StreamCore.pushDelta]
    split
    next collector commits =>
      obtain ⟨after, made, counts, place⟩ :=
        @syncStableQueue_spec _ _ parts (core.append parts collector) counted
      rw [made]
      exact ⟨_, rfl, counts, fun _ steady => place (steady collector commits)⟩
    next => exact ⟨_, rfl, counted, fun place _ => place⟩
  | tick | tickBatch =>
    obtain ⟨counts, place⟩ := tickBatch_spec counted _
    exact ⟨_, rfl, counts, fun here _ => place here⟩
  | setWidth width =>
    simp only [Act.next, StreamCore.setWidth]
    split
    next => exact ⟨_, rfl, counted, fun place _ => place⟩
    next => exact @relayout_spec _ _ parts { core with width } counted
  | setRenderMode renderMode =>
    simp only [Act.next, StreamCore.setRenderMode]
    split
    next => exact ⟨_, rfl, counted, fun place _ => place⟩
    next => exact @relayout_spec _ _ parts { core with renderMode } counted

end

variable (parts) (width : Option Nat) (renderMode : HistoryRenderMode) (acts : List Act)

theorem counted_run : ∃ core, run parts width renderMode acts = some core ∧ Counted core ∧
    (SteadyRun parts width renderMode acts → InPlace core) := by
  induction acts using reverseRecOn with
  | nil => exact ⟨_, rfl, le_rfl, fun _ => ⟨le_rfl, rfl⟩⟩
  | append_singleton acts act ih =>
    obtain ⟨core, ran, counted, place⟩ := ih
    obtain ⟨after, made, counts, next⟩ := @next_spec _ _ parts core counted act
    refine ⟨after, ?_, counts, fun steady => next (place fun front act core before => ?_) ?_⟩
    · rw [run, foldlM_append]
      exact (congrArg (· >>= _) ran).trans (by simpa using made)
    · exact steady front act core (before.trans (prefix_append acts _))
    · exact steady acts act core prefix_rfl ran

/-- No slice is out of range; the lines are partitioned while new renders are steady. -/
theorem streamCore_run : ∃ core, run parts width renderMode acts = some core ∧
    core.emittedStableLen ≤ core.enqueuedStableLen ∧
      (SteadyRun parts width renderMode acts → Partitioned core) := by
  obtain ⟨core, ran, counted, place⟩ := counted_run parts width renderMode acts
  have le := Nat.le_of_add_right_le counted
  refine ⟨core, ran, le, fun steady => ⟨le, place steady, ?_⟩⟩
  rw [StreamCore.currentTailLines, Nat.min_eq_left (place steady).1]

/-- A renderer that wraps at width five, and no tables. -/
def wraps : Parts Nat Unit where
  render _ width _ := if width = some 5 then [4, 4] else [9]
  scanner := ()
  pushSourceChunk _ _ := ()
  holdback _ := .none

theorem streamCore_run_wrapped : ∃ core,
    run wraps (some 5) .rich [.pushDelta "aaaa bbbb\n"] = some core ∧ Partitioned core := by
  obtain ⟨core, ran, -, whole⟩ := streamCore_run wraps (some 5) .rich [.pushDelta "aaaa bbbb\n"]
  refine ⟨core, ran, whole fun front act before start reached => ?_⟩
  obtain ⟨rfl, rfl⟩ : front = [] ∧ act = .pushDelta "aaaa bbbb\n" := by
    cases front <;> simp at start
    exact ⟨rfl, start⟩
  cases reached
  rintro _ ⟨⟩
  exact ⟨by decide, by decide⟩

theorem narrowed_not_partitioned : ∃ core, run wraps (some 80) .rich
    [.pushDelta "aaaa bbbb\n", .tick, .setWidth (some 5)] = some core ∧
    core.lines = [4, 4] ∧ core.emittedStableLen = 1 ∧ core.queuedLines = [] ∧
      core.currentTailLines = [] ∧ ¬ Partitioned core :=
  ⟨_, rfl, rfl, rfl, rfl, rfl, fun whole => absurd whole.inPlace.2 (by decide)⟩

end Codex.Streaming
