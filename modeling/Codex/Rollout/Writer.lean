import Codex.Foundation.Text
import Codex.Foundation.Triple

/-!
# The rollout writer

A session's items are appended to a JSONL file by one background task.
-/

namespace Codex.Rollout

def newline : UInt8 := 10

inductive IoError where
  | system (operation : ℕ)
  | other (msg : Text)

/-- Session metadata `M`, git information `G` and other kinds of items `I`. -/
inductive RolloutItem (M G I : Type) where
  | sessionMeta (metadata : M) (git : Option G)
  | other (item : I)
deriving DecidableEq

structure RolloutLine (T M G I : Type) where
  timestamp : T
  ordinal : Option ℕ
  item : RolloutItem M G I

/-- The JSON of a line. -/
structure RolloutCodec (T M G I : Type) where
  serialize : RolloutLine T M G I → List UInt8
  parse : List UInt8 → Option (RolloutLine T M G I)
  parse_serialize : ∀ line, parse (serialize line) = some line
  singleLine : ∀ line, newline ∉ serialize line
  parse_nil : parse [] = none
  parse_cut : ∀ line lost, lost ≠ 0 → parse ((serialize line).rdrop lost) = none

structure RolloutIo (T G : Type) where
  opens : ℕ → Bool
  torn : ℕ → Option ℕ
  timestamp : ℕ → T
  git : ℕ → Option G

inductive ThreadHistoryMode where
  | legacy
  | paginated
deriving DecidableEq

inductive RolloutOrdinalState where
  | legacy
  | paginated (next : Option ℕ)

namespace RolloutOrdinalState

def forNewRollout (mode : ThreadHistoryMode) (base : Option ℕ) : RolloutOrdinalState :=
  match mode with
  | .legacy => .legacy
  | .paginated => .paginated (some (base.getD 0))

def current : RolloutOrdinalState → Except IoError (Option ℕ)
  | .legacy => .ok none
  | .paginated none => .error (.other "paginated rollout record ordinal overflow")
  | .paginated (some ordinal) => .ok (some ordinal)

def advance : RolloutOrdinalState → RolloutOrdinalState
  | .legacy => .legacy
  | .paginated none => .paginated none
  | .paginated (some ordinal) =>
    .paginated (if ordinal + 1 < 18446744073709551616 then some (ordinal + 1) else none)

end RolloutOrdinalState

structure RolloutWriterState (M G I : Type) where
  writer : Bool
  deferredCreation : Bool
  pendingItems : List (RolloutItem M G I)
  sessionMeta : Option M
  ordinalState : RolloutOrdinalState
  file : List UInt8
  operations : ℕ

inductive RolloutCmd (M G I : Type) where
  | addItems (items : List (RolloutItem M G I))
  | persist
  | flush
  | shutdown

def newRollout {M G I : Type} (sessionMeta : M) (mode : ThreadHistoryMode)
    (base : Option ℕ) : RolloutWriterState M G I where
  writer := false
  deferredCreation := true
  pendingItems := []
  sessionMeta := some sessionMeta
  ordinalState := .forNewRollout mode base
  file := []
  operations := 0

def ensureRolloutIsNewlineTerminated (file : List UInt8) : List UInt8 :=
  if file.length = 0 then file
  else if file.getLast? ≠ some newline then file ++ [newline]
  else file

section

variable {T M G I : Type} (codec : RolloutCodec T M G I) (io : RolloutIo T G)

abbrev RolloutM (M G I : Type) := EStateM IoError (RolloutWriterState M G I)

def openLogFile : RolloutM M G I PUnit := fun state =>
  if io.opens state.operations then
    .ok ⟨⟩ { state with
      file := ensureRolloutIsNewlineTerminated state.file
      operations := state.operations + 1 }
  else .error (.system state.operations) { state with operations := state.operations + 1 }

def ensureWriterOpen : RolloutM M G I PUnit := do
  let state ← get
  if state.writer then
    pure ⟨⟩
  else do
    openLogFile io
    modify fun state => { state with writer := true, deferredCreation := false }

def writeRolloutItem (item : RolloutItem M G I) (ordinal : Option ℕ) : RolloutM M G I PUnit :=
  fun state =>
    let json := codec.serialize ⟨io.timestamp state.operations, ordinal, item⟩
    match io.torn state.operations with
    | none =>
      .ok ⟨⟩ { state with
        file := state.file ++ (json ++ [newline])
        operations := state.operations + 1 }
    | some lost =>
      .error (.system state.operations) { state with
        file := state.file ++ json.rdrop lost
        operations := state.operations + 1 }

def writeNumbered (item : RolloutItem M G I) : RolloutM M G I PUnit := do
  let state ← get
  let ordinal ← liftExcept state.ordinalState.current
  writeRolloutItem codec io item ordinal
  modify fun state => { state with ordinalState := state.ordinalState.advance }

def writeSessionMeta (sessionMeta : M) : RolloutM M G I PUnit := do
  let state ← get
  if state.writer then
    writeNumbered codec io (.sessionMeta sessionMeta (io.git state.operations))
  else
    pure ⟨⟩

def writeSessionMetaIfNeeded : RolloutM M G I PUnit := do
  let state ← get
  match state.sessionMeta with
  | none => pure ⟨⟩
  | some sessionMeta => do
      writeSessionMeta codec io sessionMeta
      modify fun state => { state with sessionMeta := none }

def writeItems : List (RolloutItem M G I) → ℕ → RolloutM M G I (ℕ × Except IoError PUnit)
  | [], writtenCount => pure (writtenCount, .ok ⟨⟩)
  | item :: items, writtenCount => do
      match ← attempt (writeNumbered codec io item) with
      | .ok _ => writeItems items (writtenCount + 1)
      | .error failure => pure (writtenCount, .error failure)

def writePendingItemsOnce : RolloutM M G I PUnit := do
  let state ← get
  if state.writer then do
    let written ← writeItems codec io state.pendingItems 0
    modify fun state => { state with pendingItems := state.pendingItems.drop written.1 }
    liftExcept written.2
  else
    throw (.other "rollout writer is not open")

def writePendingOnce : RolloutM M G I PUnit := do
  ensureWriterOpen io
  writeSessionMetaIfNeeded codec io
  writePendingItemsOnce codec io

def enterRecoveryMode : RolloutM M G I PUnit :=
  modify fun state => { state with writer := false }

def writePendingWithRecovery : RolloutM M G I PUnit := do
  match ← attempt (writePendingOnce codec io) with
  | .ok _ => pure ⟨⟩
  | .error _ => do
      enterRecoveryMode
      match ← attempt (writePendingOnce codec io) with
      | .ok _ => pure ⟨⟩
      | .error snd => do
          enterRecoveryMode
          throw snd

def RolloutWriterState.isDeferred (state : RolloutWriterState M G I) : Bool :=
  !state.writer && state.deferredCreation

def RolloutWriterState.isIdle (state : RolloutWriterState M G I) : Bool :=
  state.isDeferred && state.pendingItems.isEmpty

def persist : RolloutM M G I PUnit :=
  writePendingWithRecovery codec io

def flush : RolloutM M G I PUnit := do
  let state ← get
  if state.isIdle then pure ⟨⟩ else writePendingWithRecovery codec io

def shutdown : RolloutM M G I PUnit := do
  let state ← get
  if state.isIdle then pure ⟨⟩ else writePendingWithRecovery codec io

def addItems (items : List (RolloutItem M G I)) : RolloutM M G I PUnit :=
  modify fun state => { state with pendingItems := state.pendingItems ++ items }

def flushIfMaterialized : RolloutM M G I PUnit := do
  let state ← get
  if state.isDeferred then
    pure ⟨⟩
  else do
    match ← attempt (flush codec io) with
    | .ok _ => pure ⟨⟩
    | .error _ => enterRecoveryMode

def handle : RolloutCmd M G I → RolloutM M G I PUnit
  | .addItems items => do
      addItems items
      flushIfMaterialized codec io
  | .persist => persist codec io
  | .flush => flush codec io
  | .shutdown => shutdown codec io

def rolloutWriter : List (RolloutCmd M G I) → RolloutWriterState M G I →
    Option (RolloutWriterState M G I)
  | [], state => some state
  | .shutdown :: commands, state =>
    match shutdown codec io state with
    | .ok _ _ => none
    | .error _ next => rolloutWriter commands next
  | cmd :: commands, state =>
    rolloutWriter commands (finalState (handle codec io cmd state))

end

end Codex.Rollout
