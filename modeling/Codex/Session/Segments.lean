import Mathlib.Algebra.GroupWithZero.Nat
import Codex.Foundation.Lowercase

/-!
# Turn segments of a rollout

The scan of a rollout closes one segment after another.
-/

namespace Codex.Session

open Text (trimStart trimEnd toAsciiLowercase)

/-! ## Items of a history -/

variable (R : Type)

inductive ContentItem
  | inputText (text : Text)
  | outputText (text : Text)
  | other (rest : R)
  deriving DecidableEq

/-- What the harness attaches to an item; `rest` stands for the fields that are passed on. -/
structure ItemMetadata where
  turnId : Option Text := none
  contentItemKinds : Option (List Text) := none
  rest : Option R := none
  deriving DecidableEq

inductive AgentMessageInputContent
  | inputText (text : Text)
  | encryptedContent (body : Text)
  deriving DecidableEq

inductive ResponseItem
  | message (role : Text) (body : List (ContentItem R)) (metadata : Option (ItemMetadata R))
      (rest : R)
  | agentMessage (id : Option Text) (author recipient : Text)
      (body : List AgentMessageInputContent) (metadata : Option (ItemMetadata R))
  | model (rest : R)
  | hidden (rest : R)
  deriving DecidableEq

structure ResponseItemEnvelope where
  item : ResponseItem R
  metadata : Option R := none
  deriving DecidableEq

variable {R}

/-- Whether a text is a fragment of user context or an inter-agent message. -/
structure FragmentOps where
  isContextualUserText : Text → Bool
  isInterAgentCommunication : Text → Bool

namespace ResponseItem

def turnId : ResponseItem R → Option Text
  | message _ _ metadata _ | agentMessage _ _ _ _ metadata =>
    (metadata.bind (·.turnId)).filter fun turnId => !turnId.isEmpty
  | _ => none

def isApiMessage : ResponseItem R → Bool
  | message role _ _ _ => role ≠ "system"
  | hidden _ => false
  | _ => true

end ResponseItem

def contextualDeveloperPrefixes : List Text :=
  ["<permissions instructions>", "Approved command prefix saved:",
    "<model_switch>", "<managed_developer_instructions>",
    "<apps_instructions>", "<collaboration_mode>", "<multi_agent_role>",
    "<multi_agent_mode>", "<environments_instructions>", "<git_attribution>",
    "<plugins_instructions>", "<realtime_conversation>",
    "<skills_instructions>", "<tools>", "<personality_spec>",
    "<token_budget>", "<context_window>", "<context_window_guidance>",
    "<rollout_budget>"]

def startsWithMarker (marker text : Text) : Bool :=
  toAsciiLowercase (text.take marker.length) = toAsciiLowercase marker

def endsWithMarker (marker text : Text) : Bool :=
  toAsciiLowercase (text.drop (text.length - marker.length)) = toAsciiLowercase marker

def matchesMarkedText (startMarker endMarker text : Text) : Bool :=
  if startMarker = [] ∨ endMarker = [] then false
  else startsWithMarker startMarker (trimStart text) &&
    endsWithMarker endMarker (trimEnd (trimStart text))

def matchesModelSwitch (text : Text) : Bool :=
  matchesMarkedText "<model_switch>" "</model_switch>" text

def ContentItem.isContextualDevFragment : ContentItem R → Bool
  | inputText text => contextualDeveloperPrefixes.any (startsWithMarker · (trimStart text))
  | _ => false

section

variable (ops : FragmentOps)

def ContentItem.isContextualUserFragment : ContentItem R → Bool
  | inputText text => ops.isContextualUserText text
  | _ => false

def isContextualUserMessageContent (body : List (ContentItem R)) : Bool :=
  body.any (·.isContextualUserFragment ops)

def isInterAgentInstructionContent : List (ContentItem R) → Bool
  | [.inputText text] | [.outputText text] => ops.isInterAgentCommunication text
  | _ => false

def isUserTurnBoundary : ResponseItem R → Bool
  | .agentMessage .. => true
  | .message role body _ _ =>
    role = "user" && !isContextualUserMessageContent ops body ||
      role = "assistant" && isInterAgentInstructionContent ops body
  | _ => false

end

def annotatedContent (body : List (ContentItem R)) (metadata : Option (ItemMetadata R)) :
    List (ContentItem R × Text) :=
  let kinds := (metadata.bind (·.contentItemKinds)).getD []
  body.zip (kinds ++ List.replicate body.length "unknown".toList)

def ContentItem.isModelSwitch : ContentItem R → Bool
  | inputText text => matchesModelSwitch text
  | _ => false

/-- The message goes if nothing is left of it. -/
def removeModelSwitch (turnId : Text) (env : ResponseItemEnvelope R) :
    Option (ResponseItemEnvelope R) :=
  match env.item with
  | .message role body metadata rest =>
    if env.item.turnId = some turnId ∧ role = "developer" then
      let kept := (annotatedContent body metadata).filter fun part => !part.1.isModelSwitch
      if kept = [] then none
      else
        let metadata := { metadata.getD {} with contentItemKinds := some (kept.map Prod.snd) }
        some { env with item := .message role (kept.map Prod.fst) (some metadata) rest }
    else some env
  | _ => some env

section

variable (ops : FragmentOps) (items : List (ResponseItemEnvelope R))

def userMessagePositions : List Nat :=
  (items.zipIdx.filter fun entry => isUserTurnBoundary ops entry.1.item).map Prod.snd

def isPreTurnContext : ResponseItem R → Bool
  | .message role body _ _ =>
    role = "developer" && body.any (·.isContextualDevFragment) ||
      role = "user" && isContextualUserMessageContent ops body
  | _ => false

def trimPreTurnContextUpdates (snapshot : List (ResponseItemEnvelope R))
    (firstInstructionTurnIdx : Nat) : Nat → Nat
  | 0 => 0
  | cutIdx + 1 =>
    if firstInstructionTurnIdx < cutIdx + 1 ∧
        (snapshot[cutIdx]?).any (fun env => isPreTurnContext ops env.item) then
      trimPreTurnContextUpdates snapshot firstInstructionTurnIdx cutIdx
    else cutIdx + 1

def dropLastNUserTurns (numTurns : Nat) : List (ResponseItemEnvelope R) :=
  if numTurns = 0 then items
  else
    match userMessagePositions ops items with
    | [] => items
    | first :: rest =>
      let positions := first :: rest
      let cutIdx := if positions.length ≤ numTurns then first
        else positions.getD (positions.length - numTurns) first
      let cutIdx := trimPreTurnContextUpdates ops items first cutIdx
      let retained := items.take cutIdx
      match (items[first]?).bind (·.item.turnId) with
      | some firstTurnId =>
        if cutIdx = first then retained.filterMap (removeModelSwitch firstTurnId) else retained
      | none => retained

def recordItem (env : ResponseItemEnvelope R) : List (ResponseItemEnvelope R) :=
  if env.item.isApiMessage then items ++ [env] else items

end

/-! ## Items of a rollout -/

-- `R` stands for data that is passed on, `P` for patches of the world state
variable (R P : Type)

structure CompactedItem where
  message : Text
  replacementHistory : Option (List (ResponseItemEnvelope R))
  windowNumber : Option Nat
  firstWindowId : Option Text
  previousWindowId : Option Text
  windowId : Option Text

structure TurnContextItem where
  turnId : Option Text
  model : Text
  compHash : Option Text
  realtimeActive : Option Bool
  rest : R

structure InterAgentCommunication where
  id : Option Text
  author : Text
  recipient : Text
  content : Text
  encryptedContent : Option Text
  triggerTurn : Bool
  metadata : Option (ItemMetadata R)

structure WorldStateItem where
  full : Bool
  state : P

inductive EventMsg
  | threadRolledBack (numTurns : Nat)
  | turnStarted (turnId : Text)
  | turnComplete (turnId : Text)
  | turnAborted (turnId : Option Text)
  | userMessage
  | itemCompleted (turnId : Text) (isUserMessage : Bool)
  | other (rest : R)

inductive RolloutItem
  | sessionMeta (windowId : Option Text) (rest : R)
  | responseItem (item : ResponseItemEnvelope R)
  | interAgentCommunication (comm : InterAgentCommunication R)
  | interAgentCommunicationMetadata (triggerTurn : Bool)
  | compacted (item : CompactedItem R)
  | turnContext (item : TurnContextItem R)
  | worldState (item : WorldStateItem P)
  | securityRiskScore (rest : R)
  | eventMsg (event : EventMsg R)
  | realtimeItem (rest : R)

variable {R P}

def InterAgentCommunication.toModelInputItem (comm : InterAgentCommunication R) : ResponseItem R :=
  let content := match comm.encryptedContent with
    | some encrypted =>
      [.inputText ("Message Type: " ++
          (if comm.triggerTurn then "NEW_TASK" else "MESSAGE").toList ++
          "\nTask name: " ++ comm.recipient ++
          "\nSender: " ++ comm.author ++ "\nPayload:\n"),
        .encryptedContent encrypted]
    | none => [.inputText comm.content]
  .agentMessage comm.id comm.author comm.recipient content
    comm.metadata

structure PreviousTurnSettings where
  model : Text
  compHash : Option Text
  realtimeActive : Option Bool
  deriving DecidableEq

def TurnContextItem.settings (ctx : TurnContextItem R) : PreviousTurnSettings :=
  ⟨ctx.model, ctx.compHash, ctx.realtimeActive⟩

inductive TurnReferenceContextItem (R : Type)
  | neverSet
  | cleared
  | latest (item : TurnContextItem R)

def TurnReferenceContextItem.isNeverSet : TurnReferenceContextItem R → Bool
  | neverSet => true
  | _ => false

def TurnReferenceContextItem.isCleared : TurnReferenceContextItem R → Bool
  | cleared => true
  | _ => false

def TurnReferenceContextItem.orElse : TurnReferenceContextItem R → TurnReferenceContextItem R →
    TurnReferenceContextItem R
  | neverSet, other => other
  | reference, _ => reference

/-! ## The reverse scan -/

structure ReconstructedWindow (U : Type) where
  number : Nat
  firstId : Option U
  previousId : Option U
  id : Option U

structure ActiveReplaySegment (R P U : Type) where
  turnId : Option Text := none
  countsAsUserTurn : Bool := false
  previousTurnSettings : Option PreviousTurnSettings := none
  referenceContextItem : TurnReferenceContextItem R := .neverSet
  worldStateReplay : List (RolloutItem R P) := []
  baseReplacementHistory : Option (List (ResponseItemEnvelope R)) := none
  window : Option (ReconstructedWindow U) := none

def turnIdsAreCompatible (activeTurnId itemTurnId : Option Text) : Bool :=
  match activeTurnId, itemTurnId with
  | some active, some item => item = active
  | _, _ => true

/-- What reconstruction uses of other parts: `W` are snapshots of the world state. -/
structure ReconstructionOps (R P U W : Type) extends FragmentOps where
  parseUuidV7 : Text → Option U
  buildCompactedHistory : List (ResponseItemEnvelope R) → Text → List (ResponseItemEnvelope R)
  snapshot : P → W
  applyMergePatch : W → P → W

variable {U W : Type} (ops : ReconstructionOps R P U W)

def CompactedItem.window (item : CompactedItem R) : Option (ReconstructedWindow U) :=
  item.windowNumber.map fun number =>
    { number
      firstId := item.firstWindowId.bind ops.parseUuidV7
      previousId := item.previousWindowId.bind ops.parseUuidV7
      id := item.windowId.bind ops.parseUuidV7 }

namespace ActiveReplaySegment

variable (segment : ActiveReplaySegment R P U)

def setTurnId (turnId : Option Text) : ActiveReplaySegment R P U :=
  { segment with turnId := segment.turnId.or turnId }

def observeCompacted (item : CompactedItem R) : ActiveReplaySegment R P U :=
  { segment with
    worldStateReplay := segment.worldStateReplay ++ [.compacted item]
    window := segment.window.or (item.window ops)
    referenceContextItem := segment.referenceContextItem.orElse .cleared
    baseReplacementHistory := segment.baseReplacementHistory.or item.replacementHistory }

def observeTurnContext (ctx : TurnContextItem R) : ActiveReplaySegment R P U :=
  let segment := segment.setTurnId ctx.turnId
  if turnIdsAreCompatible segment.turnId ctx.turnId then
    { segment with
      previousTurnSettings := some ctx.settings
      referenceContextItem := segment.referenceContextItem.orElse (.latest ctx) }
  else segment

def observe : RolloutItem R P → Option (ActiveReplaySegment R P U)
  | .compacted item => some (segment.observeCompacted ops item)
  | .eventMsg (.turnComplete turnId) => some (segment.setTurnId (some turnId))
  | .eventMsg (.turnAborted (some turnId)) => some (segment.setTurnId (some turnId))
  | .eventMsg .userMessage => some { segment with countsAsUserTurn := true }
  | .turnContext ctx => some (segment.observeTurnContext ctx)
  | .worldState item =>
    some { segment with worldStateReplay := segment.worldStateReplay ++ [.worldState item] }
  | .responseItem item =>
    some { segment with
      countsAsUserTurn := segment.countsAsUserTurn ||
        isUserTurnBoundary ops.toFragmentOps item.item }
  | .interAgentCommunication _ => some { segment with countsAsUserTurn := true }
  | _ => none

end ActiveReplaySegment

def usizeMax : Nat := 2 ^ 64 - 1

structure ReplayState (R P U : Type) where
  baseReplacementHistory : Option (List (ResponseItemEnvelope R)) := none
  previousTurnSettings : Option PreviousTurnSettings := none
  referenceContextItem : TurnReferenceContextItem R := .neverSet
  worldStateReplay : List (RolloutItem R P) := []
  window : Option (ReconstructedWindow U) := none
  pendingRollbackTurns : Nat := 0
  rolloutSuffix : List (RolloutItem R P)
  activeSegment : Option (ActiveReplaySegment R P U) := none

namespace ReplayState

variable (state : ReplayState R P U)

def finalizeSegment (segment : ActiveReplaySegment R P U) : ReplayState R P U :=
  if 0 < state.pendingRollbackTurns then
    { state with
      pendingRollbackTurns := state.pendingRollbackTurns - segment.countsAsUserTurn.toNat }
  else
    { state with
      worldStateReplay := state.worldStateReplay ++ segment.worldStateReplay
      baseReplacementHistory :=
        state.baseReplacementHistory.or segment.baseReplacementHistory
      window := state.window.or segment.window
      previousTurnSettings := if segment.countsAsUserTurn then
          state.previousTurnSettings.or segment.previousTurnSettings
        else state.previousTurnSettings
      referenceContextItem :=
        if segment.countsAsUserTurn || segment.referenceContextItem.isCleared then
          state.referenceContextItem.orElse segment.referenceContextItem
        else state.referenceContextItem }

def moveSuffix (item : RolloutItem R P) (newer : List (RolloutItem R P)) : ReplayState R P U :=
  match item with
  | .compacted item =>
    if (state.activeSegment.bind (·.baseReplacementHistory)).isNone ∧
        item.replacementHistory.isSome then
      { state with rolloutSuffix := newer }
    else state
  | _ => state

def observe (item : RolloutItem R P) (newer : List (RolloutItem R P)) : ReplayState R P U :=
  match item with
  | .eventMsg (.threadRolledBack numTurns) =>
    { state with
      pendingRollbackTurns := min (state.pendingRollbackTurns + numTurns) usizeMax }
  | .eventMsg (.turnStarted turnId) =>
    match state.activeSegment with
    | some segment =>
      if turnIdsAreCompatible segment.turnId (some turnId) then
        { state.finalizeSegment segment with activeSegment := none }
      else state
    | none => state
  | item =>
    match (state.activeSegment.getD {}).observe ops item with
    | some segment => { state.moveSuffix item newer with activeSegment := some segment }
    | none => state

def isSettled : Bool :=
  state.baseReplacementHistory.isSome && state.previousTurnSettings.isSome &&
    !state.referenceContextItem.isNeverSet

def scan (state : ReplayState R P U) (newer : List (RolloutItem R P)) :
    List (RolloutItem R P) → ReplayState R P U
  | [] => state
  | item :: older =>
    let state := state.observe ops item newer
    if state.isSettled then state else scan state (item :: newer) older

def finish : ReplayState R P U :=
  match state.activeSegment with
  | some segment => { state.finalizeSegment segment with activeSegment := none }
  | none => state

end ReplayState

structure HistoryReplay (R : Type) where
  history : List (ResponseItemEnvelope R)
  sawLegacyCompaction : Bool := false

def HistoryReplay.replay (state : HistoryReplay R) : RolloutItem R P → HistoryReplay R
  | .responseItem item => { state with history := recordItem state.history item }
  | .interAgentCommunication comm =>
    { state with history := recordItem state.history { item := comm.toModelInputItem } }
  | .compacted item =>
    match item.replacementHistory with
    | some repl => { state with history := repl }
    | none =>
      { history := ops.buildCompactedHistory state.history item.message
        sawLegacyCompaction := true }
  | .eventMsg (.threadRolledBack numTurns) =>
    { state with history := dropLastNUserTurns ops.toFragmentOps state.history numTurns }
  | _ => state

def replayWorldState (baseline : Option W) : RolloutItem R P → Option W
  | .compacted _ => none
  | .worldState item =>
    if item.full then some (ops.snapshot item.state)
    else baseline.map fun baseline => ops.applyMergePatch baseline item.state
  | _ => baseline

structure RolloutReconstruction (R U W : Type) where
  history : List (ResponseItemEnvelope R)
  previousTurnSettings : Option PreviousTurnSettings
  referenceContextItem : Option (TurnContextItem R)
  worldStateBaseline : Option W
  window : ReconstructedWindow U

def RolloutItem.isCompacted : RolloutItem R P → Bool
  | .compacted _ => true
  | _ => false

def RolloutItem.isLegacyWindow : RolloutItem R P → Bool
  | .compacted item => item.windowNumber.isNone
  | _ => false

def RolloutItem.sessionWindow? : RolloutItem R P → Option (ReconstructedWindow U)
  | .sessionMeta windowId _ => (windowId.bind ops.parseUuidV7).map fun id =>
    { number := 0, firstId := some id, previousId := none, id := some id }
  | _ => none

variable (items : List (RolloutItem R P))

def initialWindow : Option (ReconstructedWindow U) :=
  if items.any (·.isLegacyWindow) then none else items.findSome? (·.sessionWindow? ops)

def fallbackWindow : ReconstructedWindow U where
  number := items.countP (·.isCompacted)
  firstId := none
  previousId := none
  id := none

def ReplayState.result (state : ReplayState R P U) : RolloutReconstruction R U W :=
  let replay := state.rolloutSuffix.foldl (HistoryReplay.replay ops)
    { history := state.baseReplacementHistory.getD [] }
  { history := replay.history
    previousTurnSettings := state.previousTurnSettings
    referenceContextItem := match state.referenceContextItem with
      | .latest item => if replay.sawLegacyCompaction then none else some item
      | _ => none
    worldStateBaseline := state.worldStateReplay.reverse.foldl (replayWorldState ops) none
    window := (state.window.or (initialWindow ops items)).getD (fallbackWindow items) }

def reconstructHistoryFromRollout : RolloutReconstruction R U W :=
  ((ReplayState.scan ops { rolloutSuffix := items } [] items.reverse).finish).result ops items

/-! ## Segments -/

variable {R P U W : Type}

structure TurnCursor (R P U : Type) where
  pendingRollbackTurns : Nat := 0
  activeSegment : Option (ActiveReplaySegment R P U) := none

abbrev ClosedSegment (R P U : Type) := ActiveReplaySegment R P U × Bool

open List

namespace TurnCursor

variable (cursor : TurnCursor R P U)

def close (segment : ActiveReplaySegment R P U) : TurnCursor R P U × Option (ClosedSegment R P U) :=
  ({ pendingRollbackTurns := cursor.pendingRollbackTurns - segment.countsAsUserTurn.toNat },
    some (segment, cursor.pendingRollbackTurns = 0))

def step (ops : ReconstructionOps R P U W) (item : RolloutItem R P) :
    TurnCursor R P U × Option (ClosedSegment R P U) :=
  match item with
  | .eventMsg (.threadRolledBack numTurns) =>
    ({ cursor with
      pendingRollbackTurns := min (cursor.pendingRollbackTurns + numTurns) usizeMax }, none)
  | .eventMsg (.turnStarted turnId) =>
    match cursor.activeSegment with
    | some segment =>
      if turnIdsAreCompatible segment.turnId (some turnId) then cursor.close segment
      else (cursor, none)
    | none => (cursor, none)
  | item =>
    match (cursor.activeSegment.getD {}).observe ops item with
    | some segment => ({ cursor with activeSegment := some segment }, none)
    | none => (cursor, none)

inductive Stepped (ops : ReconstructionOps R P U W) (cursor : TurnCursor R P U)
    (item : RolloutItem R P) : TurnCursor R P U × Option (ClosedSegment R P U) → Prop
  | rolledBack (numTurns : Nat) (marker : item = .eventMsg (.threadRolledBack numTurns)) :
      Stepped ops cursor item
        ({ cursor with
          pendingRollbackTurns := min (cursor.pendingRollbackTurns + numTurns) usizeMax }, none)
  | closed (segment : ActiveReplaySegment R P U) (turnId : Text)
      (started : item = .eventMsg (.turnStarted turnId))
      (active : cursor.activeSegment = some segment) :
      Stepped ops cursor item (cursor.close segment)
  | ignored (plain : item.isCompacted = false) : Stepped ops cursor item (cursor, none)
  | observed (next : ActiveReplaySegment R P U)
      (body : (cursor.activeSegment.getD {}).observe ops item = some next) :
      Stepped ops cursor item ({ cursor with activeSegment := some next }, none)

theorem stepped (ops : ReconstructionOps R P U W) (x : RolloutItem R P) :
    Stepped ops cursor x (cursor.step ops x) := by
  cases x with
  | eventMsg ev =>
    cases ev with
    | threadRolledBack numTurns => exact .rolledBack numTurns rfl
    | turnStarted turnId =>
      rw [step]
      cases active : cursor.activeSegment with
      | none => exact .ignored rfl
      | some seg =>
        dsimp only
        split_ifs
        · exact .closed seg turnId rfl active
        · exact .ignored rfl
    | turnAborted turnId =>
      cases turnId with
      | none => exact .ignored rfl
      | some turnId => exact .observed _ rfl
    | itemCompleted | other => exact .ignored rfl
    | turnComplete | userMessage => exact .observed _ rfl
  | compacted | turnContext | worldState | responseItem | interAgentCommunication =>
    exact .observed _ rfl
  | sessionMeta | interAgentCommunicationMetadata | securityRiskScore | realtimeItem =>
    exact .ignored rfl

def suffixAfter (suffix : List (RolloutItem R P)) (item : RolloutItem R P)
    (newer : List (RolloutItem R P)) : List (RolloutItem R P) :=
  match item with
  | .compacted item =>
    if (cursor.activeSegment.bind (·.baseReplacementHistory)).isNone ∧
        item.replacementHistory.isSome then newer
    else suffix
  | _ => suffix

def advance (ops : ReconstructionOps R P U W) (cursor : TurnCursor R P U)
    (items : List (RolloutItem R P)) : TurnCursor R P U :=
  items.foldl (fun cursor item => (cursor.step ops item).1) cursor

def closed (ops : ReconstructionOps R P U W) (cursor : TurnCursor R P U) :
    List (RolloutItem R P) → List (ClosedSegment R P U)
  | [] => []
  | item :: older => (cursor.step ops item).2.toList ++ closed ops (cursor.step ops item).1 older

def atStart : List (ClosedSegment R P U) :=
  (cursor.activeSegment.bind fun segment => (cursor.close segment).2).toList

def segments (ops : ReconstructionOps R P U W) (cursor : TurnCursor R P U)
    (items : List (RolloutItem R P)) : List (ClosedSegment R P U) :=
  cursor.closed ops items ++ (cursor.advance ops items).atStart

def suffixRun (ops : ReconstructionOps R P U W) (cursor : TurnCursor R P U)
    (suffix newer : List (RolloutItem R P)) : List (RolloutItem R P) → List (RolloutItem R P)
  | [] => suffix
  | item :: older =>
    suffixRun ops (cursor.step ops item).1 (cursor.suffixAfter suffix item newer) (item :: newer)
      older

theorem closed_append (ops : ReconstructionOps R P U W) (newer older : List (RolloutItem R P)) :
    cursor.closed ops (newer ++ older) =
      cursor.closed ops newer ++ (cursor.advance ops newer).closed ops older := by
  induction newer generalizing cursor with
  | nil => rfl
  | cons x newer ih =>
    rw [cons_append, closed, closed, ih, append_assoc]
    rfl

theorem advance_append (ops : ReconstructionOps R P U W) (newer older : List (RolloutItem R P)) :
    cursor.advance ops (newer ++ older) = (cursor.advance ops newer).advance ops older :=
  foldl_append

theorem segments_cons (ops : ReconstructionOps R P U W) (x : RolloutItem R P)
    (older : List (RolloutItem R P)) :
    cursor.segments ops (x :: older) =
      (cursor.step ops x).2.toList ++ (cursor.step ops x).1.segments ops older :=
  append_assoc ..

theorem forall_segments {ops : ReconstructionOps R P U W} {kept : RolloutItem R P → Prop}
    {fact : ActiveReplaySegment R P U → Prop} (empty : fact {})
    (step : ∀ segment x next, kept x → fact segment → segment.observe ops x = some next → fact next)
    {xs : List (RolloutItem R P)} (all : ∀ x ∈ xs, kept x)
    (active : ∀ segment, cursor.activeSegment = some segment → fact segment) :
    (∀ segment ∈ cursor.closed ops xs, fact segment.1) ∧
      ∀ segment, (cursor.advance ops xs).activeSegment = some segment → fact segment := by
  induction xs generalizing cursor with
  | nil => exact ⟨by simp [closed], active⟩
  | cons x older ih =>
    have tl : ∀ other ∈ older, kept other := fun other mem => all other (by simp [mem])
    have stepped := cursor.stepped ops x
    rw [closed]
    change _ ∧ ∀ segment, (advance ops (cursor.step ops x).1 older).activeSegment = _ → _
    generalize cursor.step ops x = res at stepped ⊢
    cases stepped with
    | rolledBack | ignored => exact ih _ tl active
    | closed segment turnId started opened =>
      have idle : ∀ other, (cursor.close segment).1.activeSegment = some other → fact other :=
        fun other opened => absurd opened (Option.some_ne_none other).symm
      obtain ⟨others, last⟩ := ih (cursor.close segment).1 tl idle
      exact ⟨forall_mem_cons.mpr ⟨active segment opened, others⟩, last⟩
    | observed next body =>
      have known : fact (cursor.activeSegment.getD {}) := by
        cases opened : cursor.activeSegment with
        | none => exact empty
        | some segment => exact active segment opened
      have new := step _ x next (all x (by simp)) known body
      exact ih _ tl fun segment eq => Option.some.inj eq ▸ new

end TurnCursor

namespace ReplayState

variable (st : ReplayState R P U)

def cursor : TurnCursor R P U where
  pendingRollbackTurns := st.pendingRollbackTurns
  activeSegment := st.activeSegment

def absorb : Option (ClosedSegment R P U) → ReplayState R P U
  | some (segment, true) =>
    { st with
      worldStateReplay := st.worldStateReplay ++ segment.worldStateReplay
      baseReplacementHistory := st.baseReplacementHistory.or segment.baseReplacementHistory
      window := st.window.or segment.window
      previousTurnSettings := if segment.countsAsUserTurn then
          st.previousTurnSettings.or segment.previousTurnSettings
        else st.previousTurnSettings
      referenceContextItem :=
        if segment.countsAsUserTurn || segment.referenceContextItem.isCleared then
          st.referenceContextItem.orElse segment.referenceContextItem
        else st.referenceContextItem }
  | _ => st

variable (cursor : TurnCursor R P U)

def atCursor (suffix : List (RolloutItem R P)) : ReplayState R P U :=
  { st with
    pendingRollbackTurns := cursor.pendingRollbackTurns
    activeSegment := cursor.activeSegment
    rolloutSuffix := suffix }

theorem finalizeSegment_eq (seg : ActiveReplaySegment R P U) :
    { st.finalizeSegment seg with activeSegment := none } =
      (st.absorb (st.cursor.close seg).2).atCursor (st.cursor.close seg).1
        st.rolloutSuffix := by
  rw [finalizeSegment]
  by_cases pend : 0 < st.pendingRollbackTurns
  · have rolledBack : (decide (st.cursor.pendingRollbackTurns = 0)) = false :=
      decide_eq_false (by change ¬ st.pendingRollbackTurns = 0; omega)
    rw [if_pos pend, TurnCursor.close, rolledBack]
    rfl
  have none : st.pendingRollbackTurns = 0 := by omega
  have survives : (decide (st.cursor.pendingRollbackTurns = 0)) = true :=
    decide_eq_true none
  rw [if_neg pend, TurnCursor.close, survives]
  simp [absorb, atCursor, cursor, none]

theorem moveSuffix_eq (x : RolloutItem R P) (newer : List (RolloutItem R P)) :
    st.moveSuffix x newer =
      { st with rolloutSuffix := st.cursor.suffixAfter st.rolloutSuffix x newer } := by
  cases x with
  | compacted x =>
    by_cases moves : (st.activeSegment.bind (·.baseReplacementHistory)).isNone ∧
        x.replacementHistory.isSome
    · have moved : st.cursor.suffixAfter st.rolloutSuffix (.compacted x) newer = newer :=
        if_pos moves
      rw [moved]
      exact if_pos moves
    have kept : st.cursor.suffixAfter st.rolloutSuffix (.compacted x) newer =
        st.rolloutSuffix := if_neg moves
    rw [kept]
    exact if_neg moves
  | _ => rfl

theorem observe_of_content {ops : ReconstructionOps R P U W} {x : RolloutItem R P}
    {seg : ActiveReplaySegment R P U} (newer : List (RolloutItem R P))
    (body : (st.activeSegment.getD {}).observe ops x = some seg)
    (seen : st.observe ops x newer =
      match (st.activeSegment.getD {}).observe ops x with
      | some seg => { st.moveSuffix x newer with activeSegment := some seg }
      | none => st)
    (stepped : st.cursor.step ops x =
      match (st.activeSegment.getD {}).observe ops x with
      | some seg => ({ st.cursor with activeSegment := some seg }, none)
      | none => (st.cursor, none)) :
    st.observe ops x newer = (st.absorb (st.cursor.step ops x).2).atCursor (st.cursor.step ops x).1
        (st.cursor.suffixAfter st.rolloutSuffix x newer) := by
  rw [seen, stepped, body, moveSuffix_eq]
  rfl

theorem observe_eq (ops : ReconstructionOps R P U W) (x : RolloutItem R P)
    (newer : List (RolloutItem R P)) :
    st.observe ops x newer = (st.absorb (st.cursor.step ops x).2).atCursor (st.cursor.step ops x).1
        (st.cursor.suffixAfter st.rolloutSuffix x newer) := by
  cases x with
  | eventMsg ev =>
    cases ev with
    | threadRolledBack numTurns => rfl
    | turnStarted turnId =>
      have pos : st.cursor.activeSegment = st.activeSegment := rfl
      rw [observe, TurnCursor.step, pos]
      cases active : st.activeSegment with
      | none => rfl
      | some seg =>
        dsimp only
        by_cases compatible : turnIdsAreCompatible seg.turnId (some turnId) = true
        · rw [if_pos compatible, if_pos compatible]
          exact st.finalizeSegment_eq seg
        rw [if_neg compatible, if_neg compatible]
        rfl
    | turnAborted turnId =>
      cases turnId with
      | none => rfl
      | some turnId => exact st.observe_of_content newer rfl rfl rfl
    | itemCompleted | other => rfl
    | turnComplete | userMessage => exact st.observe_of_content newer rfl rfl rfl
  | compacted | turnContext | worldState | responseItem | interAgentCommunication =>
    exact st.observe_of_content newer rfl rfl rfl
  | sessionMeta | interAgentCommunicationMetadata | securityRiskScore | realtimeItem => rfl

def run (ops : ReconstructionOps R P U W) (st : ReplayState R P U)
    (newer : List (RolloutItem R P)) : List (RolloutItem R P) → ReplayState R P U
  | [] => st
  | item :: older => run ops (st.observe ops item newer) (item :: newer) older

def absorbAll (segments : List (ClosedSegment R P U)) : ReplayState R P U :=
  segments.foldl (fun st segment => st.absorb (some segment)) st

theorem absorb_atCursor (suffix : List (RolloutItem R P)) (seg : Option (ClosedSegment R P U)) :
    (st.atCursor cursor suffix).absorb seg = (st.absorb seg).atCursor cursor suffix := by
  match seg with
  | none | some (_, false) | some (_, true) => rfl

theorem absorbAll_atCursor (suffix : List (RolloutItem R P)) (segs : List (ClosedSegment R P U)) :
    (st.atCursor cursor suffix).absorbAll segs = (st.absorbAll segs).atCursor cursor suffix := by
  induction segs generalizing st with
  | nil => rfl
  | cons seg segs ih =>
    change ((st.atCursor cursor suffix).absorb _).absorbAll segs = _
    rw [absorb_atCursor, ih]
    rfl

theorem absorbAll_toList_append (seg : Option (ClosedSegment R P U))
    (segments : List (ClosedSegment R P U)) :
    st.absorbAll (seg.toList ++ segments) = (st.absorb seg).absorbAll segments := by
  cases seg <;> rfl

theorem run_eq (ops : ReconstructionOps R P U W) (newer xs : List (RolloutItem R P)) :
    run ops st newer xs =
      (st.absorbAll (st.cursor.closed ops xs)).atCursor (st.cursor.advance ops xs)
        (st.cursor.suffixRun ops st.rolloutSuffix newer xs) := by
  induction xs generalizing st newer with
  | nil => rfl
  | cons x older ih =>
    rw [run, ih, observe_eq]
    rw [TurnCursor.closed, absorbAll_toList_append, absorbAll_atCursor]
    rfl

theorem scan_eq_run (ops : ReconstructionOps R P U W) (newer xs : List (RolloutItem R P)) :
    ∃ ran tl, xs = ran ++ tl ∧ scan ops st newer xs = run ops st newer ran ∧
      (tl = [] ∨ (run ops st newer ran).isSettled = true) := by
  induction xs generalizing st newer with
  | nil => exact ⟨[], [], rfl, rfl, .inl rfl⟩
  | cons x older ih =>
    rw [scan]
    split_ifs with settled
    · exact ⟨[x], older, rfl, rfl, .inr settled⟩
    obtain ⟨ran, tl, rfl, eq, stopped⟩ :=
      ih (st.observe ops x newer) (x :: newer)
    exact ⟨x :: ran, tl, rfl, eq, stopped⟩

theorem finish_eq : st.finish = (st.absorbAll st.cursor.atStart).atCursor
      (match st.activeSegment with
        | some seg => (st.cursor.close seg).1
        | none => st.cursor) st.rolloutSuffix := by
  have pos : st.cursor.activeSegment = st.activeSegment := rfl
  rw [finish, TurnCursor.atStart, pos]
  cases active : st.activeSegment with
  | none => rfl
  | some seg => exact st.finalizeSegment_eq seg

theorem exists_finish_run (ops : ReconstructionOps R P U W) (newer xs : List (RolloutItem R P)) :
    ∃ cursor, (run ops st newer xs).finish =
      (st.absorbAll (st.cursor.segments ops xs)).atCursor cursor
        (st.cursor.suffixRun ops st.rolloutSuffix newer xs) := by
  have all : st.absorbAll (st.cursor.segments ops xs) =
      (st.absorbAll (st.cursor.closed ops xs)).absorbAll
        (st.cursor.advance ops xs).atStart := foldl_append
  rw [finish_eq, run_eq, absorbAll_atCursor, all]
  exact ⟨_, rfl⟩

end ReplayState

def turnSegments (ops : ReconstructionOps R P U W) (items : List (RolloutItem R P)) :
    List (ClosedSegment R P U) :=
  TurnCursor.segments ops {} items.reverse

/-! ## The live history -/

open ActiveReplaySegment (observeTurnContext observe setTurnId observeCompacted)
open Option

section

variable (ops : ReconstructionOps R P U W) (history : List (ResponseItemEnvelope R))

def liveStep : RolloutItem R P → List (ResponseItemEnvelope R)
  | .responseItem item => recordItem history item
  | .interAgentCommunication comm =>
    recordItem history { item := comm.toModelInputItem }
  | .compacted item => item.replacementHistory.getD history
  | .eventMsg (.threadRolledBack numTurns) =>
    dropLastNUserTurns ops.toFragmentOps history numTurns
  | _ => history

def liveHistory (items : List (RolloutItem R P)) : List (ResponseItemEnvelope R) :=
  items.foldl (liveStep ops) history

def RolloutItem.CarriesReplacement (item : RolloutItem R P) : Prop :=
  ∀ comp, item = .compacted comp → comp.replacementHistory.isSome

variable {ops} {items : List (RolloutItem R P)}

theorem replay_eq_liveStep {item : RolloutItem R P} (carries : item.CarriesReplacement)
    (replay : HistoryReplay R) :
    (replay.replay ops item).history = liveStep ops replay.history item := by
  cases item with
  | compacted comp =>
    obtain ⟨repl, eq⟩ := isSome_iff_exists.mp (carries comp rfl)
    simp [HistoryReplay.replay, liveStep, eq]
  | eventMsg ev => cases ev <;> rfl
  | _ => rfl

theorem foldl_replay_history (carries : ∀ item ∈ items, item.CarriesReplacement)
    (replay : HistoryReplay R) :
    (items.foldl (HistoryReplay.replay ops) replay).history =
      liveHistory ops replay.history items := by
  induction items generalizing replay with
  | nil => rfl
  | cons item items ih =>
    have step : (replay.replay ops item).history = liveStep ops replay.history item :=
      replay_eq_liveStep (carries item (by simp)) replay
    rw [foldl_cons, ih fun y mem => carries y (by simp [mem]), step]
    rfl

theorem liveHistory_append (pre after : List (RolloutItem R P)) :
    liveHistory ops history (pre ++ after) = liveHistory ops (liveHistory ops history pre) after :=
  foldl_append

theorem liveHistory_compacted {comp : CompactedItem R} {replacement : List (ResponseItemEnvelope R)}
    (eq : comp.replacementHistory = some replacement)
    (history : List (ResponseItemEnvelope R)) (pre after : List (RolloutItem R P)) :
    liveHistory ops history (pre ++ .compacted comp :: after) =
      liveHistory ops replacement after := by
  have replaced : liveStep ops (liveHistory ops history pre) (.compacted comp) = replacement := by
    rw [liveStep, eq]
    rfl
  rw [liveHistory_append]
  change liveHistory ops (liveStep ops _ (.compacted comp)) after = _
  rw [replaced]

theorem liveHistory_of_compacted (carries : ∀ x ∈ items, x.CarriesReplacement)
    {comp : CompactedItem R} (mem : .compacted comp ∈ items)
    (history y : List (ResponseItemEnvelope R)) :
    liveHistory ops history items = liveHistory ops y items := by
  obtain ⟨repl, eq⟩ := isSome_iff_exists.mp (carries _ mem comp rfl)
  obtain ⟨pre, after, rfl⟩ := append_of_mem mem
  rw [liveHistory_compacted eq, liveHistory_compacted eq]

end

/-! ## Checkpoints -/

def checkpoints (segs : List (ClosedSegment R P U)) : List (List (ResponseItemEnvelope R) × Bool) :=
  segs.filterMap fun seg => seg.1.baseReplacementHistory.map (·, seg.2)

theorem checkpoints_append (newer older : List (ClosedSegment R P U)) :
    checkpoints (newer ++ older) = checkpoints newer ++ checkpoints older :=
  filterMap_append

def SuffixBehind (items newer suffix : List (RolloutItem R P)) :
    List (List (ResponseItemEnvelope R)) → Prop
  | [] => suffix = items ∧ ∀ item ∈ newer, item.isCompacted = false
  | [replacement] => ∃ pre comp, newer = pre ++ .compacted comp :: suffix ∧
      comp.replacementHistory = some replacement ∧ ∀ item ∈ suffix, item.isCompacted = false
  | _ => suffix <:+ newer ∧ ∃ comp, .compacted comp ∈ suffix

namespace TurnCursor

variable (cur : TurnCursor R P U)

def base? : Option (List (ResponseItemEnvelope R)) :=
  cur.activeSegment.bind (·.baseReplacementHistory)

def newBase? : RolloutItem R P → Option (List (ResponseItemEnvelope R))
  | .compacted comp => if cur.base?.isNone then comp.replacementHistory else none
  | _ => none

theorem baseReplacementHistory_observeTurnContext (seg : ActiveReplaySegment R P U)
    (ctx : TurnContextItem R) :
    (seg.observeTurnContext ctx).baseReplacementHistory = seg.baseReplacementHistory := by
  rw [observeTurnContext]
  split_ifs <;> rfl

theorem base?_step (ops : ReconstructionOps R P U W) (x : RolloutItem R P) :
    ((cur.step ops x).2.bind (·.1.baseReplacementHistory)).toList ++
        (cur.step ops x).1.base?.toList =
      cur.base?.toList ++ (cur.newBase? x).toList := by
  obtain ⟨wait, active⟩ := cur
  cases x with
  | eventMsg ev =>
    cases ev with
    | turnStarted turnId =>
      cases active with
      | none => rfl
      | some seg =>
        simp only [step, close, newBase?, base?]
        split_ifs <;> simp
    | turnAborted turnId => cases turnId <;> cases active <;> simp [step, base?, newBase?,
        observe, setTurnId]
    | _ => cases active <;> simp [step, base?, newBase?, observe,
        setTurnId]
  | compacted comp =>
    simp only [step, observe, observeCompacted, base?,
      newBase?, bind_some, bind_none, toList_none, nil_append]
    cases active with
    | none => simp
    | some seg => cases old : seg.baseReplacementHistory <;> simp [old]
  | turnContext ctx =>
    cases active <;> simp [step, base?, newBase?, observe,
      baseReplacementHistory_observeTurnContext]
  | _ => cases active <;> simp [step, base?, newBase?, observe]

end TurnCursor

variable {items newer suffix : List (RolloutItem R P)}
  {passed : List (List (ResponseItemEnvelope R))} {comp : CompactedItem R}

theorem suffixBehind_compacted {repl : List (ResponseItemEnvelope R)}
    (eq : comp.replacementHistory = some repl) (behind : SuffixBehind items newer suffix passed) :
    SuffixBehind items (.compacted comp :: newer) newer (passed ++ [repl]) := by
  match passed, behind with
  | [], ⟨_, plain⟩ => exact ⟨[], comp, rfl, eq, plain⟩
  | [_], ⟨pre, older, split, _⟩ =>
    exact ⟨suffix_cons _ _, older, split ▸ by simp⟩
  | _ :: _ :: _, ⟨part, older, mem⟩ =>
    exact ⟨suffix_cons _ _, older, part.subset mem⟩

theorem suffixBehind_cons {x : RolloutItem R P} (plain : passed = [] → x.isCompacted = false)
    (behind : SuffixBehind items newer suffix passed) :
    SuffixBehind items (x :: newer) suffix passed := by
  match passed, behind with
  | [], ⟨all, others⟩ => exact ⟨all, forall_mem_cons.mpr ⟨plain rfl, others⟩⟩
  | [_], ⟨pre, comp, split, tl⟩ =>
    exact ⟨x :: pre, comp, congrArg (x :: ·) split, tl⟩
  | _ :: _ :: _, ⟨part, hit⟩ => exact ⟨part.trans (suffix_cons _ _), hit⟩

open Prod ReplayState

namespace TurnCursor

variable (cur : TurnCursor R P U) {items newer suffix : List (RolloutItem R P)}
  {passed : List (List (ResponseItemEnvelope R))}

theorem suffixBehind_step {x : RolloutItem R P} (carries : x.CarriesReplacement)
    (behind : SuffixBehind items newer suffix (passed ++ cur.base?.toList)) :
    SuffixBehind items (x :: newer) (cur.suffixAfter suffix x newer)
      (passed ++ (cur.base?.toList ++ (cur.newBase? x).toList)) := by
  cases x with
  | compacted comp =>
    obtain ⟨replacement, eq⟩ := isSome_iff_exists.mp (carries comp rfl)
    by_cases fst : cur.base?.isNone = true
    · have moved : cur.suffixAfter suffix (.compacted comp) newer = newer :=
        if_pos ⟨fst, by simp [eq]⟩
      have given : cur.newBase? (.compacted comp) = some replacement := by
        rw [← eq]
        exact if_pos fst
      rw [moved, given, ← append_assoc]
      exact suffixBehind_compacted eq behind
    have kept : cur.suffixAfter suffix (.compacted comp) newer = suffix :=
      if_neg fun both => fst both.1
    have given : cur.newBase? (.compacted comp) = none := if_neg fst
    rw [kept, given, toList_none, append_nil]
    -- the segment has a replacement history, so one has been passed
    refine suffixBehind_cons (fun nothing => ?_) behind
    have empty : cur.base? = none :=
      toList_eq_nil_iff.mp (append_eq_nil_iff.mp nothing).2
    exact absurd (by rw [empty]; rfl) fst
  | _ =>
    change SuffixBehind items _ suffix (passed ++ (cur.base?.toList ++ []))
    rw [append_nil]
    exact suffixBehind_cons (fun _ => rfl) behind

theorem suffixBehind_suffixRun (ops : ReconstructionOps R P U W) {ran : List (RolloutItem R P)}
    (carries : ∀ x ∈ ran, x.CarriesReplacement)
    (behind : SuffixBehind items newer suffix (passed ++ cur.base?.toList)) :
    SuffixBehind items (ran.reverse ++ newer) (cur.suffixRun ops suffix newer ran)
      (passed ++ ((cur.closed ops ran).filterMap (·.1.baseReplacementHistory) ++
        (cur.advance ops ran).base?.toList)) := by
  induction ran generalizing cur suffix newer passed with
  | nil => exact behind
  | cons x older ih =>
    have stepped := cur.suffixBehind_step (carries x (by simp)) behind
    rw [← cur.base?_step ops, ← append_assoc] at stepped
    have tl := ih _ (fun y mem => carries y (by simp [mem])) stepped
    have closing : (cur.step ops x).2.toList.filterMap (·.1.baseReplacementHistory) =
        ((cur.step ops x).2.bind (·.1.baseReplacementHistory)).toList := by
      cases (cur.step ops x).2 with
      | none => rfl
      | some seg => cases h : seg.1.baseReplacementHistory <;> simp [h]
    rw [closed, filterMap_append, closing, reverse_cons]
    simp only [append_assoc] at tl ⊢
    exact tl

theorem checkpoints_atStart : (checkpoints cur.atStart).map fst = cur.base?.toList := by
  obtain ⟨wait, active⟩ := cur
  cases active with
  | none => rfl
  | some seg =>
    cases known : seg.baseReplacementHistory <;>
      simp [checkpoints, atStart, close, base?, known]

end TurnCursor

section

variable {segs : List (ClosedSegment R P U)}

theorem map_fst_checkpoints : (checkpoints segs).map fst =
    segs.filterMap (·.1.baseReplacementHistory) := by
  rw [checkpoints, map_filterMap]
  simp only [Option.map_map]
  exact filterMap_congr fun seg _ => Option.map_id' ..

theorem baseReplacementHistory_absorbAll (st : ReplayState R P U) :
    (st.absorbAll segs).baseReplacementHistory = st.baseReplacementHistory.or
        (((checkpoints segs).find? snd).map fst) := by
  induction segs generalizing st with
  | nil => exact (or_none ..).symm
  | cons seg segs ih =>
    obtain ⟨seg, survives⟩ := seg
    have absorbed := ih (st.absorb (some (seg, survives)))
    refine absorbed.trans ?_
    cases known : seg.baseReplacementHistory <;> cases survives <;>
      simp [absorb, checkpoints, known]

end

theorem SuffixBehind.exists_compacted (some : passed ≠ [])
    (behind : SuffixBehind items newer suffix passed) : ∃ comp, .compacted comp ∈ newer := by
  match passed, behind with
  | [_], ⟨pre, comp, split, _⟩ => exact ⟨comp, split ▸ by simp⟩
  | _ :: _ :: _, ⟨inner, comp, hit⟩ => exact ⟨comp, inner.subset hit⟩

theorem SuffixBehind.subset (part : newer <:+ items)
    (behind : SuffixBehind items newer suffix passed) : suffix ⊆ items := by
  match passed, behind with
  | [], ⟨all, _⟩ => exact all ▸ List.Subset.refl _
  | [_], ⟨pre, comp, split, _⟩ =>
    have inner : suffix ⊆ newer := split ▸ fun x mem => by simp [mem]
    exact List.Subset.trans inner part.subset
  | _ :: _ :: _, ⟨inner, _⟩ => exact List.Subset.trans inner.subset part.subset

theorem finish_run (ops : ReconstructionOps R P U W) (items ran : List (RolloutItem R P)) :
    let final := (run ops { rolloutSuffix := items } [] ran).finish
    final.rolloutSuffix = TurnCursor.suffixRun ops {} items [] ran ∧
      final.baseReplacementHistory =
        ((checkpoints (TurnCursor.segments ops {} ran)).find? snd).map fst := by
  obtain ⟨cur, eq⟩ := exists_finish_run { rolloutSuffix := items } ops [] ran
  rw [eq]
  exact ⟨rfl, (baseReplacementHistory_absorbAll _).trans (none_or ..)⟩

theorem exists_checkpoint_of_isSettled (ops : ReconstructionOps R P U W)
    {ran : List (RolloutItem R P)}
    (settled : (run ops { rolloutSuffix := items } [] ran).isSettled = true) :
    ∃ kept ∈ checkpoints (TurnCursor.closed ops {} ran), kept.2 = true := by
  rw [isSettled, Bool.and_eq_true, Bool.and_eq_true, run_eq] at settled
  have hit : (absorbAll { rolloutSuffix := items }
      (TurnCursor.closed ops {} ran)).baseReplacementHistory.isSome = true := settled.1.1
  rw [baseReplacementHistory_absorbAll] at hit
  have hit : ((checkpoints (TurnCursor.closed ops {} ran)).find? snd).isSome = true := by
    simpa using hit
  obtain ⟨kept, eq⟩ := isSome_iff_exists.mp hit
  exact ⟨kept, mem_of_find?_eq_some eq, find?_some eq⟩

/-- All turns are passed, or those down to one whose replacement history survives. -/
theorem exists_resumed (ops : ReconstructionOps R P U W)
    (carries : ∀ x ∈ items, x.CarriesReplacement) :
    ∃ (newer suffix : List (RolloutItem R P)) (segs : List (ClosedSegment R P U)), newer <:+ items ∧
      SuffixBehind items newer suffix ((checkpoints segs).map fst) ∧
      (reconstructHistoryFromRollout ops items).history =
        liveHistory ops ((((checkpoints segs).find? snd).map fst).getD []) suffix ∧
      (segs = turnSegments ops items ∨ ∃ kept ∈ checkpoints segs,
        kept.2 = true ∧ kept ∈ checkpoints (turnSegments ops items)) := by
  obtain ⟨ran, tl, split, eq, stopped⟩ :=
    scan_eq_run { rolloutSuffix := items } ops [] items.reverse
  have part : ran.reverse <:+ items :=
    ⟨tl.reverse, by rw [← reverse_append, ← split, reverse_reverse]⟩
  have behind := TurnCursor.suffixBehind_suffixRun {} ops
    (fun x mem => carries x (part.subset (by simpa using mem)))
    (show SuffixBehind items [] items ([] ++ []) from ⟨rfl, by simp⟩)
  rw [nil_append, ← TurnCursor.checkpoints_atStart, ← map_fst_checkpoints, ← map_append,
    ← checkpoints_append, append_nil] at behind
  refine ⟨_, _, _, part, behind, ?_, ?_⟩
  · obtain ⟨suffix, base⟩ := finish_run ops items ran
    have ins := fun x mem => carries x (behind.subset part mem)
    rw [reconstructHistoryFromRollout, eq, result, suffix, base]
    exact foldl_replay_history ins _
  rcases stopped with rfl | settled
  · left
    rw [turnSegments, split, append_nil]
    rfl
  right
  obtain ⟨kept, mem, survives⟩ := exists_checkpoint_of_isSettled ops settled
  refine ⟨kept, ?_, survives, ?_⟩
  · rw [checkpoints_append]
    exact mem_append_left _ mem
  rw [turnSegments, split, TurnCursor.segments, TurnCursor.closed_append, append_assoc,
    checkpoints_append]
  exact mem_append_left _ mem

/-! ## Resumed histories -/

def afterLastCompaction (items : List (RolloutItem R P)) : List (RolloutItem R P) :=
  items.rtakeWhile (!·.isCompacted)

theorem afterLastCompaction_eq {pre after : List (RolloutItem R P)}
    (plain : ∀ x ∈ after, x.isCompacted = false) :
    afterLastCompaction (pre ++ .compacted comp :: after) = after := by
  have all : ∀ x ∈ after.reverse, (!x.isCompacted) = true := by
    intro x mem
    rw [plain x (mem_reverse.mp mem)]
    rfl
  rw [afterLastCompaction, List.rtakeWhile, reverse_append, reverse_cons,
    append_assoc, takeWhile_append_of_pos all]
  simp [RolloutItem.isCompacted]

/-- A cold resume rebuilds the history unless the only replacement history is rolled back and
matters. -/
theorem resumed_history_eq_live_iff (ops : ReconstructionOps R P U W)
    (items : List (RolloutItem R P)) (carries : ∀ item ∈ items, item.CarriesReplacement) :
    (reconstructHistoryFromRollout ops items).history = liveHistory ops [] items ↔
      ∀ replacement, checkpoints (turnSegments ops items) = [(replacement, false)] →
        liveHistory ops [] (afterLastCompaction items) =
          liveHistory ops replacement (afterLastCompaction items) := by
  obtain ⟨newer, suffix, segs, part, behind, eq, passed⟩ := exists_resumed ops carries
  rw [eq]
  have ignored : (∃ kept ∈ checkpoints (turnSegments ops items), kept.2 = true) →
      ∀ replacement, checkpoints (turnSegments ops items) ≠ [(replacement, false)] := by
    rintro ⟨kept, mem, survives⟩ replacement only
    rw [only, mem_singleton] at mem
    rw [mem] at survives
    exact absurd survives Bool.false_ne_true
  match known : checkpoints segs with
  | [] =>
    rw [known] at behind passed
    obtain rfl | ⟨_, mem, _⟩ := passed
    · obtain ⟨rfl, _⟩ := behind
      exact iff_of_true rfl fun replacement only => absurd (known.symm.trans only) (by simp)
    · simp at mem
  | [(replacement, survives)] =>
    rw [known] at behind passed
    obtain ⟨pre, comp, rfl, carried, plain⟩ := behind
    obtain ⟨front, split⟩ := part
    rw [← append_assoc] at split
    have live : liveHistory ops [] items = liveHistory ops replacement suffix := by
      rw [← split, liveHistory_compacted carried]
    have after : afterLastCompaction items = suffix := by
      rw [← split, afterLastCompaction_eq plain]
    rw [live, after]
    cases survives with
    | true =>
      refine iff_of_true rfl fun other only => absurd only (ignored ?_ other)
      obtain rfl | ⟨kept, _, survives, mem⟩ := passed
      · exact ⟨_, known ▸ mem_singleton_self _, rfl⟩
      · exact ⟨kept, mem, survives⟩
    | false =>
      obtain rfl | ⟨kept, mem, survives, _⟩ := passed
      · constructor
        · intro equal other only
          obtain rfl : replacement = other := by simpa using known.symm.trans only
          exact equal
        intro equal
        exact equal replacement known
      rw [mem_singleton.mp mem] at survives
      exact absurd survives Bool.false_ne_true
  | newest :: snd :: others =>
    rw [known] at behind passed
    obtain ⟨inner, comp, hit⟩ := behind
    obtain ⟨front, rfl⟩ := part
    obtain ⟨between, rfl⟩ := inner
    have ins : ∀ item ∈ suffix, item.CarriesReplacement :=
      fun item mem => carries item (by simp [mem])
    refine iff_of_true ?_ fun other only => ?_
    · rw [liveHistory_append, liveHistory_append]
      exact liveHistory_of_compacted ins hit _ _
    obtain rfl | ⟨kept, _, survives, mem⟩ := passed
    · exact absurd (known.symm.trans only) (by simp)
    · exact absurd only (ignored ⟨kept, mem, survives⟩ other)

def textOps : ReconstructionOps Unit Text Text Text where
  isContextualUserText :=
    matchesMarkedText "<environment_context>" "</environment_context>"
  isInterAgentCommunication _ := false
  parseUuidV7 text := if text.length = 36 then some text else none
  buildCompactedHistory history message :=
    history.filter (isUserTurnBoundary ⟨fun _ => false, fun _ => false⟩ ·.item)
      ++ [{ item := .message "user" [.inputText message] none () }]
  snapshot := id
  applyMergePatch _ patch := patch

def userText (text : String) : ResponseItemEnvelope Unit where
  item := .message "user" [.inputText text.toList] none ()

def compactedTo (replacement : List (ResponseItemEnvelope Unit)) : CompactedItem Unit where
  message := []
  replacementHistory := some replacement
  windowNumber := none
  firstWindowId := none
  previousWindowId := none
  windowId := none

def compactedTurns : List (RolloutItem Unit Text) :=
  [.eventMsg (.turnStarted "1"), .responseItem (userText "one"),
    .eventMsg (.turnComplete "1"), .eventMsg (.turnStarted "2"),
    .responseItem (userText "two"),
    .compacted (compactedTo [userText "one", userText "two"]),
    .eventMsg (.turnComplete "2")]

theorem carriesReplacement_compactedTurns : ∀ x ∈ compactedTurns, x.CarriesReplacement := by
  intro x mem comp eq
  subst eq
  simp only [compactedTurns, mem_cons, reduceCtorEq, RolloutItem.compacted.injEq,
    not_mem_nil, or_false, false_or] at mem
  rw [mem]
  rfl

theorem resumed_history_compactedTurns : (∀ item ∈ compactedTurns, item.CarriesReplacement) ∧
      (reconstructHistoryFromRollout textOps compactedTurns).history =
        liveHistory textOps [] compactedTurns := by
  refine ⟨carriesReplacement_compactedTurns, (resumed_history_eq_live_iff textOps compactedTurns
    carriesReplacement_compactedTurns).mpr ?_⟩
  intro replacement only
  have survives : (checkpoints (turnSegments textOps compactedTurns)).map snd = [true] := by
    decide +kernel
  rw [only] at survives
  exact absurd survives (by simp)

/-- Rolling back the compacted turn loses the first turn as well. -/
theorem resumed_history_rolled_back :
    let items := compactedTurns ++ [.eventMsg (.threadRolledBack 1)]
    (∀ item ∈ items, item.CarriesReplacement) ∧
      (reconstructHistoryFromRollout textOps items).history = [] ∧
      liveHistory textOps [] items = [userText "one"] := by
  refine ⟨fun item mem => ?_, by decide +kernel⟩
  rcases mem_append.mp mem with mem | mem
  · exact carriesReplacement_compactedTurns item mem
  rw [mem_singleton.mp mem]
  nofun

end Codex.Session
