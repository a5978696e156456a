import Codex.Foundation.Triple
import Codex.Foundation.Map
import Mathlib.Algebra.GroupWithZero.Nat
import Codex.Foundation.Text
import Mathlib.Data.Prod.Lex

/-!
# Reassembly of chunked client messages

Each client may have one message in assembly.
-/

namespace Codex.RemoteControl

abbrev ClientId := Text
abbrev StreamId := Text

abbrev ClientKey := ClientId × StreamId

inductive JSONRPCMessage (P : Type)
  | request (method : Text) (payload : P)
  | notification (payload : P)
  | response (payload : P)
  | error (payload : P)
  deriving DecidableEq

inductive ClientEvent (P : Type)
  | clientMessage (message : JSONRPCMessage P)
  | clientMessageChunk (segmentId segmentCount messageSizeBytes : Nat) (messageChunkBase64 : Text)
  | ack (segmentId : Option Nat)
  | ping
  | clientClosed

structure ClientEnvelope (P : Type) where
  event : ClientEvent P
  clientId : ClientId
  streamId : Option StreamId
  seqId : Option Nat
  cursor : Option Text := none

inductive PongStatus
  | active
  | unknown
  deriving DecidableEq

inductive ServerEvent (M : Type)
  | serverMessage (message : M)
  | serverMessageChunk (segmentId segmentCount messageSizeBytes : Nat) (messageChunkBase64 : Text)
  | ack
  | pong (status : PongStatus)

def ServerEvent.segmentId {M : Type} : ServerEvent M → Option Nat
  | .serverMessageChunk segmentId _ _ _ => some segmentId
  | .serverMessage _ | .ack | .pong _ => none

structure ServerEnvelope (M : Type) where
  event : ServerEvent M
  clientId : ClientId
  streamId : StreamId
  seqId : Nat

def remoteControlSegmentMaxBytes : Nat := 150 * 1024
def remoteControlReassembledMaxBytes : Nat := 100 * 1024 * 1024
def remoteControlSegmentCountMax : Nat := 1024
def remoteControlSegmentAssemblyMaxCount : Nat := 128

structure ClientSegmentMetadata where
  seqId : Nat
  segmentCount : Nat
  messageSizeBytes : Nat
  deriving DecidableEq

structure ClientSegmentAssembly where
  streamId : StreamId
  metadata : ClientSegmentMetadata
  raw : List UInt8
  nextSegmentId : Nat
  lastChunkSeenAt : Nat

def ClientSegmentAssembly.advance (assembly : ClientSegmentAssembly) (now : Nat)
    (raw : List UInt8) : ClientSegmentAssembly :=
  { assembly with
    lastChunkSeenAt := now
    raw := raw
    nextSegmentId := assembly.nextSegmentId + 1 }

abbrev ClientSegmentReassembler := Map ClientId ClientSegmentAssembly

inductive DecodeSliceError
  | outputSliceTooSmall
  | decodeError (cause : Text)
  deriving DecidableEq

structure SegmentCodec (P : Type) where
  decodedLenEstimate : (encodedLen : Nat) → Nat
  decode : Text → Option (List UInt8)
  decodeSlice : Text → (length : Nat) → Except DecodeSliceError (List UInt8)
  decodeSlice_ok : ∀ {text length bytes}, decodeSlice text length = .ok bytes →
    decode text = some bytes ∧ bytes.length ≤ length
  parseMessage : List UInt8 → Except Text (JSONRPCMessage P)
  iterate : ClientSegmentReassembler → List (ClientId × ClientSegmentAssembly)

structure ClientChunk where
  clientId : ClientId
  streamId : StreamId
  metadata : ClientSegmentMetadata
  segmentId : Nat
  messageChunkBase64 : Text
  deriving DecidableEq

inductive ClientSegmentObservation (P : Type)
  | forward (env : ClientEnvelope P)
  | pending
  | dropped

inductive AssemblyUpdate (P : Type)
  | pending
  | ignore
  | drop
  | complete (msg : JSONRPCMessage P)

variable {P : Type}

def ClientEnvelope.chunk? (env : ClientEnvelope P) : Option ClientChunk :=
  match env.event with
  | .clientMessageChunk segmentId segmentCount messageSizeBytes messageChunkBase64 => do
      let seqId ← env.seqId
      let streamId ← env.streamId
      pure ⟨env.clientId, streamId, ⟨seqId, segmentCount, messageSizeBytes⟩, segmentId,
        messageChunkBase64⟩
  | _ => none

def ClientEnvelope.isChunk (env : ClientEnvelope P) : Bool :=
  match env.event with
  | .clientMessageChunk _ _ _ _ => true
  | _ => false

def ClientChunk.newAssembly (chunk : ClientChunk) (now : Nat) : ClientSegmentAssembly :=
  ⟨chunk.streamId, chunk.metadata, [], 0, now⟩

def ClientChunk.isInvalid (chunk : ClientChunk) : Bool :=
  chunk.metadata.segmentCount == 0 ||
    decide (remoteControlSegmentCountMax < chunk.metadata.segmentCount) ||
    decide (chunk.metadata.segmentCount ≤ chunk.segmentId) ||
    chunk.metadata.messageSizeBytes == 0 ||
    decide (remoteControlReassembledMaxBytes < chunk.metadata.messageSizeBytes) ||
    chunk.messageChunkBase64.isEmpty

namespace ClientSegmentReassembler

def shouldIgnoreChunk (table : ClientSegmentReassembler) (chunk : ClientChunk) : Bool :=
  (table.lookup chunk.clientId).any fun assembly =>
    assembly.streamId == chunk.streamId &&
      (decide (chunk.metadata.seqId < assembly.metadata.seqId) ||
        (chunk.metadata.seqId == assembly.metadata.seqId &&
          decide (chunk.segmentId < assembly.nextSegmentId)))

def removeAssembly (table : ClientSegmentReassembler) (clientId : ClientId)
    (streamId : StreamId) : ClientSegmentReassembler :=
  if (table.lookup clientId).any (·.streamId == streamId) then table.erase clientId
  else table

variable (codec : SegmentCodec P)

def evictAssembly (table : ClientSegmentReassembler) : Option ClientSegmentReassembler :=
  if remoteControlSegmentAssemblyMaxCount ≤ table.keys.card then
    ((codec.iterate table).argmin fun entry => entry.2.lastChunkSeenAt).map fun entry =>
      table.erase entry.1
  else none

def evictAssembliesIfFull (table : ClientSegmentReassembler) : ClientSegmentReassembler :=
  exhaust (evictAssembly codec) table.keys.card table

variable (now : Nat)

def assemblyFor (chunk : ClientChunk) (tab : ClientSegmentReassembler) :
    ClientSegmentAssembly × ClientSegmentReassembler :=
  match tab.lookup chunk.clientId with
  | some assembly =>
    if assembly.streamId ≠ chunk.streamId then (chunk.newAssembly now, tab)
    else (assembly, tab)
  | none => (chunk.newAssembly now, evictAssembliesIfFull codec tab)

def decodeChunk (raw : List UInt8) (chunk : ClientChunk) : Except DecodeSliceError (List UInt8) :=
  let chunkStart := raw.length
  let encodedLen := (chunk.messageChunkBase64.map Char.utf8Size).sum
  let chunkEnd := min chunk.metadata.messageSizeBytes
    (chunkStart + codec.decodedLenEstimate encodedLen)
  let resized := raw.take chunkEnd ++ List.replicate (chunkEnd - chunkStart) 0
  match codec.decodeSlice chunk.messageChunkBase64 (resized.drop chunkStart).length with
  | .ok bytes => .ok (resized.take chunkStart ++ bytes)
  | .error error => .error error

variable (assembly : ClientSegmentAssembly)

def expects (chunk : ClientChunk) : Prop :=
  assembly.metadata = chunk.metadata ∧ chunk.segmentId = assembly.nextSegmentId

instance (assembly : ClientSegmentAssembly) (chunk : ClientChunk) :
    Decidable (expects assembly chunk) :=
  inferInstanceAs (Decidable (_ ∧ _))

def completeAssembly : AssemblyUpdate P :=
  if assembly.nextSegmentId < assembly.metadata.segmentCount then .pending
  else if assembly.raw.length ≠ assembly.metadata.messageSizeBytes then .drop
  else
    match codec.parseMessage assembly.raw with
    | .ok msg => .complete msg
    | .error _ => .drop

def updateAssembly (chunk : ClientChunk) : AssemblyUpdate P × ClientSegmentAssembly :=
  if chunk.metadata.seqId < assembly.metadata.seqId then (.ignore, assembly)
  else if assembly.metadata ≠ chunk.metadata then (.drop, assembly)
  else if chunk.segmentId < assembly.nextSegmentId then (.pending, assembly)
  else if chunk.segmentId ≠ assembly.nextSegmentId then (.drop, assembly)
  else
    match decodeChunk codec assembly.raw chunk with
    | .error _ => (.drop, { assembly with lastChunkSeenAt := now })
    | .ok raw => (completeAssembly codec (assembly.advance now raw), assembly.advance now raw)

def observeChunk (env : ClientEnvelope P) (chunk : ClientChunk) (tab : ClientSegmentReassembler) :
    ClientSegmentObservation P × ClientSegmentReassembler :=
  let prepared := assemblyFor codec now chunk tab
  let updated := updateAssembly codec now prepared.1 chunk
  let kept := prepared.2.insert chunk.clientId updated.2
  match updated.1 with
  | .pending => (.pending, kept)
  | .ignore => (.dropped, kept)
  | .drop => (.dropped, removeAssembly kept chunk.clientId chunk.streamId)
  | .complete msg =>
    (.forward { env with event := .clientMessage msg },
      removeAssembly kept chunk.clientId chunk.streamId)

def observe (env : ClientEnvelope P) (tab : ClientSegmentReassembler) :
    ClientSegmentObservation P × ClientSegmentReassembler :=
  if !env.isChunk then (.forward env, tab)
  else
    match env.chunk? with
    | none => (.dropped, tab)
    | some chunk =>
      if shouldIgnoreChunk tab chunk then (.dropped, tab)
      else if chunk.isInvalid then
        (.dropped, removeAssembly tab chunk.clientId chunk.streamId)
      else observeChunk codec now env chunk tab

end ClientSegmentReassembler

variable {M : Type}

structure BoundedOutboundBuffer (M : Type) where
  bufferByStream : Map ClientKey (List (ServerEnvelope M)) := ∅
  used : Nat := 0

namespace BoundedOutboundBuffer

def insert (env : ServerEnvelope M) (buffer : BoundedOutboundBuffer M) : BoundedOutboundBuffer M :=
  let key := (env.clientId, env.streamId)
  let queue := (buffer.bufferByStream.lookup key).getD []
  { bufferByStream := buffer.bufferByStream.insert key (queue ++ [env])
    used := buffer.used + 1 }

/-- The envelope is at or before the acknowledged place. -/
def isAcked (ackedSeqId : Nat) (ackedSegmentId : Option Nat) (env : ServerEnvelope M) : Bool :=
  decide (env.seqId < ackedSeqId) ||
    (env.seqId == ackedSeqId &&
      ackedSegmentId.all fun acked => decide (env.event.segmentId.getD 0 ≤ acked))

def ack (client : ClientId) (stream : StreamId) (ackedSeqId : Nat)
    (ackedSegmentId : Option Nat) (buffer : BoundedOutboundBuffer M) : BoundedOutboundBuffer M :=
  match buffer.bufferByStream.lookup (client, stream) with
  | none => buffer
  | some queue =>
    let kept := queue.filter fun env => !isAcked ackedSeqId ackedSegmentId env
    { bufferByStream :=
        if kept.isEmpty then buffer.bufferByStream.erase (client, stream)
        else buffer.bufferByStream.insert (client, stream) kept
      used := buffer.used - queue.countP (isAcked ackedSeqId ackedSegmentId) }

end BoundedOutboundBuffer

abbrev ClientMessageKey := ClientId × Option StreamId

structure WebsocketState (M : Type) where
  outboundBuffer : BoundedOutboundBuffer M := {}
  subscribeCursor : Option Text := none
  lastCompletedClientChunkSeqIdByStream : Map ClientMessageKey Nat := ∅
  clientSegmentReassembler : ClientSegmentReassembler := ∅

namespace WebsocketState

def clientMessageKey (env : ClientEnvelope P) : Option (ClientMessageKey × Nat) :=
  match env.event, env.seqId with
  | .clientMessageChunk _ _ _ _, some seqId =>
    some ((env.clientId, env.streamId), seqId)
  | _, _ => none

def isCompleted (state : WebsocketState M) (messageKey : Option (ClientMessageKey × Nat)) : Bool :=
  messageKey.any fun keyed =>
    (state.lastCompletedClientChunkSeqIdByStream.lookup keyed.1).any fun lastSeqId =>
      decide (keyed.2 ≤ lastSeqId)

def observeClientMessage (codec : SegmentCodec P) (now : Nat) (env : ClientEnvelope P)
    (wire : Nat) (state : WebsocketState M) : ClientSegmentObservation P × WebsocketState M :=
  if state.isCompleted (clientMessageKey env) then (.dropped, state)
  else if env.chunk?.any state.clientSegmentReassembler.shouldIgnoreChunk then
    (.dropped, state)
  else if (clientMessageKey env).isSome && remoteControlSegmentMaxBytes < wire then
    match env.streamId with
    | some stream =>
      (.dropped, { state with
        clientSegmentReassembler :=
          state.clientSegmentReassembler.removeAssembly env.clientId stream })
    | none => (.dropped, state)
  else
    let observed := state.clientSegmentReassembler.observe codec now env
    (observed.1, { state with clientSegmentReassembler := observed.2 })

def complete (messageKey : Option (ClientMessageKey × Nat)) (full : Map ClientMessageKey Nat) :
    Map ClientMessageKey Nat :=
  match messageKey with
  | some keyed => full.insert keyed.1 keyed.2
  | none => full

def acknowledge (env : ClientEnvelope P) (buffer : BoundedOutboundBuffer M) :
    BoundedOutboundBuffer M :=
  match env.event, env.seqId, env.streamId with
  | .ack segmentId, some ackedSeqId, some stream =>
    buffer.ack env.clientId stream ackedSeqId segmentId
  | _, _, _ => buffer

def recordClientMessageDelivery (env : ClientEnvelope P)
    (messageKey : Option (ClientMessageKey × Nat)) (state : WebsocketState M) : WebsocketState M :=
  { state with
    subscribeCursor := env.cursor <|> state.subscribeCursor
    lastCompletedClientChunkSeqIdByStream :=
      complete messageKey state.lastCompletedClientChunkSeqIdByStream
    outboundBuffer := acknowledge env state.outboundBuffer }

def invalidateStream (client : ClientId) (stream : StreamId) (state : WebsocketState M) :
    WebsocketState M :=
  { state with
    clientSegmentReassembler := state.clientSegmentReassembler.removeAssembly client stream
    lastCompletedClientChunkSeqIdByStream :=
      state.lastCompletedClientChunkSeqIdByStream.erase (client, some stream) }

def invalidateClient (client : ClientId) (state : WebsocketState M) : WebsocketState M :=
  { state with
    clientSegmentReassembler := state.clientSegmentReassembler.erase client
    lastCompletedClientChunkSeqIdByStream :=
      state.lastCompletedClientChunkSeqIdByStream.retain fun key => key.1 ≠ client }

end WebsocketState

open List

inductive OutboundCall (M : Type)
  | insert (env : ServerEnvelope M)
  | ack (client : ClientId) (streamId : StreamId) (ackedSeqId : Nat) (ackedSegmentId : Option Nat)

def ServerEnvelope.key (env : ServerEnvelope M) : ClientKey :=
  (env.clientId, env.streamId)

def ServerEnvelope.cursor (env : ServerEnvelope M) : Nat ×ₗ WithTop Nat :=
  toLex (env.seqId, WithTop.some (env.event.segmentId.getD 0))

def ackCursor (ackedSeqId : Nat) (ackedSegmentId : Option Nat) : Nat ×ₗ WithTop Nat :=
  toLex (ackedSeqId, ackedSegmentId.elim ⊤ WithTop.some)

namespace OutboundCall

def apply (buffer : BoundedOutboundBuffer M) : OutboundCall M → BoundedOutboundBuffer M
  | .insert env => buffer.insert env
  | .ack client streamId ackedSeqId ackedSegmentId =>
    buffer.ack client streamId ackedSeqId ackedSegmentId

def run (calls : List (OutboundCall M)) : BoundedOutboundBuffer M := calls.foldl apply {}

def Covers (env : ServerEnvelope M) : OutboundCall M → Prop
  | .insert _ => False
  | .ack client streamId ackedSeqId ackedSegmentId =>
    env.key = (client, streamId) ∧ env.cursor ≤ ackCursor ackedSeqId ackedSegmentId

instance (env : ServerEnvelope M) : DecidablePred (Covers env)
  | .insert _ => inferInstanceAs (Decidable False)
  | .ack _ _ _ _ => inferInstanceAs (Decidable (_ ∧ _))

def unacknowledged (key : ClientKey) : List (OutboundCall M) → List (ServerEnvelope M)
  | [] => []
  | .ack _ _ _ _ :: later => unacknowledged key later
  | .insert env :: later =>
    if env.key = key ∧ ¬∃ call ∈ later, Covers env call then
      env :: unacknowledged key later
    else unacknowledged key later

end OutboundCall

namespace BoundedOutboundBuffer

theorem isAcked_iff {acked : Nat} {ackedSegmentId : Option Nat} {env : ServerEnvelope M} :
    isAcked acked ackedSegmentId env = true ↔
      env.cursor ≤ ackCursor acked ackedSegmentId := by
  rw [ServerEnvelope.cursor, ackCursor, Prod.Lex.toLex_le_toLex]
  cases ackedSegmentId with
  | none | some => simp [isAcked]

end BoundedOutboundBuffer

namespace OutboundCall

theorem covers_insert {env y : ServerEnvelope M} : ¬Covers env (.insert y) :=
  not_false

theorem unacknowledged_insert (key : ClientKey) (calls : List (OutboundCall M))
    (env : ServerEnvelope M) :
    unacknowledged key (calls ++ [.insert env]) =
      unacknowledged key calls ++ if env.key = key then [env] else [] := by
  induction calls with
  | nil => simp [unacknowledged]
  | cons call later ih =>
    cases call with
    | ack client sid acked ackedSegmentId => exact ih
    | insert fst =>
      have eq : (∃ call ∈ later ++ [.insert env], Covers fst call) ↔
          ∃ call ∈ later, Covers fst call := by
        simp [or_and_right, exists_or, covers_insert]
      simp only [cons_append, unacknowledged, eq, ih]
      split <;> rfl

theorem unacknowledged_ack (key : ClientKey) (calls : List (OutboundCall M)) (client : ClientId)
    (sid : StreamId) (ackedSeqId : Nat) (acked : Option Nat) :
    unacknowledged key (calls ++ [.ack client sid ackedSeqId acked]) =
      if key = (client, sid) then
        (unacknowledged key calls).filter fun env =>
          !BoundedOutboundBuffer.isAcked ackedSeqId acked env
      else unacknowledged key calls := by
  induction calls with
  | nil => simp [unacknowledged]
  | cons call later ih =>
    cases call with
    | ack => exact ih
    | insert fst =>
      have split : (∃ call ∈ later ++ [.ack client sid ackedSeqId acked],
            Covers fst call) ↔
          (∃ call ∈ later, Covers fst call) ∨ fst.key = (client, sid) ∧
            BoundedOutboundBuffer.isAcked ackedSeqId acked fst = true := by
        rw [BoundedOutboundBuffer.isAcked_iff]
        simp [or_and_right, exists_or, Covers]
      simp only [cons_append, unacknowledged, split, ih]
      by_cases stream : fst.key = key
      · by_cases tgt : key = (client, sid)
        · by_cases covered : ∃ call ∈ later, Covers fst call
          · simp [covered, if_pos tgt]
          have here : fst.key = key ∧ ¬∃ call ∈ later, Covers fst call := ⟨stream, covered⟩
          simp only [if_pos tgt, if_pos here, filter_cons]
          cases BoundedOutboundBuffer.isAcked ackedSeqId acked fst with
          | false => exact if_pos ⟨stream, by simp [covered]⟩
          | true => exact if_neg (by simp [stream, tgt])
        have y : fst.key ≠ (client, sid) := stream ▸ tgt
        simp [y, if_neg tgt]
      · simp [stream]

end OutboundCall

open Map Option

namespace BoundedOutboundBuffer

structure Holds (calls : List (OutboundCall M)) (buffer : BoundedOutboundBuffer M) : Prop where
  counted : buffer.used = buffer.bufferByStream.total List.length
  nonempty : ∀ key queue, buffer.bufferByStream.lookup key = some queue → queue ≠ []
  queues : ∀ key, (buffer.bufferByStream.lookup key).getD [] = OutboundCall.unacknowledged key calls

theorem holds_nil : Holds [] ({} : BoundedOutboundBuffer M) where
  counted := total_empty.symm
  nonempty := fun key queue hit => by cases hit
  queues := fun key => rfl

variable {calls : List (OutboundCall M)} {buffer : BoundedOutboundBuffer M} {key : ClientKey}
  {queue : List (ServerEnvelope M)}

theorem Holds.insert (holds : Holds calls buffer) (env : ServerEnvelope M) :
    Holds (calls ++ [.insert env]) (buffer.insert env) := by
  obtain ⟨cnt, ne, queues⟩ := holds
  have looked : ∀ key, (buffer.insert env).bufferByStream.lookup key =
      if key = env.key then
        some ((buffer.bufferByStream.lookup env.key).getD [] ++ [env])
      else buffer.bufferByStream.lookup key :=
    fun key => lookup_insert _ _ _ key
  refine ⟨?_, fun key queue hit => ?_, fun key => ?_⟩
  · have total : Map.total List.length (buffer.insert env).bufferByStream + _ = _ :=
      total_set buffer.bufferByStream env.key
        (some ((buffer.bufferByStream.lookup env.key).getD [] ++ [env]))
    change buffer.used + 1 = _
    rw [cnt]
    cases hit : buffer.bufferByStream.lookup env.key with
    | none =>
      rw [hit] at total
      exact total.symm
    | some queue =>
      rw [hit] at total
      simp only [elim_some, getD_some, length_append, length_singleton]
        at total
      omega
  · rw [looked] at hit
    split at hit
    · cases hit
      exact concat_ne_nil _ _
    · exact ne key queue hit
  rw [looked, OutboundCall.unacknowledged_insert, ← queues]
  split
  · rename_i eq
    rw [if_pos eq.symm, eq]
    rfl
  rename_i y
  rw [if_neg (Ne.symm y), append_nil]

theorem lookup_ack (buffer : BoundedOutboundBuffer M) (client : ClientId) (sid : StreamId)
    (ackedSeqId : Nat) (acked : Option Nat) (y : key ≠ (client, sid)) :
    (buffer.ack client sid ackedSeqId acked).bufferByStream.lookup key =
      buffer.bufferByStream.lookup key := by
  rw [ack]
  cases buffer.bufferByStream.lookup (client, sid) with
  | none => rfl
  | some queue =>
    dsimp only
    split
    · rw [lookup_erase, if_neg y]
    · rw [lookup_insert, if_neg y]

theorem Holds.countP_le (holds : Holds calls buffer)
    (hit : buffer.bufferByStream.lookup key = some queue) (acked : ServerEnvelope M → Bool) :
    queue.countP acked ≤ buffer.used := by
  have part : total List.length (buffer.bufferByStream.erase key) + queue.length =
      total List.length buffer.bufferByStream := total_erase hit
  have covered : queue.countP acked ≤ queue.length := countP_le_length
  rw [holds.counted]
  omega

theorem ack_found {client : ClientId} {sid : StreamId}
    (hit : buffer.bufferByStream.lookup (client, sid) = some queue) (ackedSeqId : Nat)
    (acked : Option Nat) :
    buffer.ack client sid ackedSeqId acked =
      { bufferByStream := buffer.bufferByStream.set (client, sid)
          (Option.guard (fun kept => !kept.isEmpty)
            (queue.filter fun env => !isAcked ackedSeqId acked env))
        used := buffer.used - queue.countP (isAcked ackedSeqId acked) } := by
  rw [ack, hit]
  dsimp only
  rw [Option.guard]
  cases (queue.filter fun env => !isAcked ackedSeqId acked env).isEmpty <;> rfl

theorem elim_guard_nonempty (kept : List (ServerEnvelope M)) :
    (Option.guard (fun kept => !kept.isEmpty) kept).elim 0 List.length = kept.length := by
  cases kept <;> rfl

theorem getD_guard_nonempty (kept : List (ServerEnvelope M)) :
    (Option.guard (fun kept => !kept.isEmpty) kept).getD [] = kept := by
  cases kept <;> rfl

theorem Holds.ack (holds : Holds calls buffer) (client : ClientId) (sid : StreamId)
    (ackedSeqId : Nat) (acked : Option Nat) :
    Holds (calls ++ [.ack client sid ackedSeqId acked])
      (buffer.ack client sid ackedSeqId acked) := by
  cases hit : buffer.bufferByStream.lookup (client, sid) with
  | none =>
    have still : buffer.ack client sid ackedSeqId acked = buffer := by
      rw [BoundedOutboundBuffer.ack, hit]
    rw [still]
    refine ⟨holds.counted, holds.nonempty, fun key => ?_⟩
    rw [OutboundCall.unacknowledged_ack, ← holds.queues]
    split
    · rename_i eq
      rw [eq, hit]
      rfl
    · rfl
  | some queue =>
    rw [ack_found hit]
    refine ⟨?_, fun key kept looked => ?_, fun key => ?_⟩
    · have total := @total_set _ _ _ List.length buffer.bufferByStream (client, sid)
        (Option.guard (fun kept => !kept.isEmpty)
          (queue.filter fun env => !isAcked ackedSeqId acked env))
      have parts : queue.length = _ + _ :=
        length_eq_countP_add_countP (isAcked ackedSeqId acked)
      have covered := holds.countP_le hit (isAcked ackedSeqId acked)
      rw [hit, elim_guard_nonempty, ← countP_eq_length_filter, ← holds.counted] at total
      dsimp only [elim_some] at total ⊢
      simp only [Bool.not_eq_true, Bool.decide_eq_false] at parts
      omega
    · rw [lookup_set] at looked
      split at looked
      · obtain ⟨rfl, ne⟩ := guard_eq_some_iff.mp looked
        simpa using ne
      · exact holds.nonempty key kept looked
    rw [lookup_set, OutboundCall.unacknowledged_ack, ← holds.queues]
    split
    · rename_i eq
      rw [getD_guard_nonempty, eq, hit]
      rfl
    · rfl

theorem holds_run (calls : List (OutboundCall M)) : Holds calls (OutboundCall.run calls) := by
  induction calls using reverseRecOn with
  | nil => exact holds_nil
  | append_singleton calls call ih =>
    rw [OutboundCall.run, foldl_append]
    cases call with
    | insert env => exact ih.insert env
    | ack client sid acked ackedSegmentId =>
      exact ih.ack client sid acked ackedSegmentId

/-- The counter and the queues agree, and an acknowledgement changes its own stream only. -/
theorem outboundBuffer_sound (calls : List (OutboundCall M)) : (OutboundCall.run calls).used =
        (OutboundCall.run calls).bufferByStream.total List.length ∧
      (∀ key queue, (OutboundCall.run calls).bufferByStream.lookup key = some queue → queue ≠ []) ∧
      (∀ key, ((OutboundCall.run calls).bufferByStream.lookup key).getD [] =
        OutboundCall.unacknowledged key calls) ∧
      ∀ client streamId ackedSeqId ackedSegmentId,
        (∀ queue, (OutboundCall.run calls).bufferByStream.lookup (client, streamId) = some queue →
            queue.countP (isAcked ackedSeqId ackedSegmentId) ≤ (OutboundCall.run calls).used) ∧
          ∀ key ≠ (client, streamId), ((OutboundCall.run calls).ack client streamId ackedSeqId
                ackedSegmentId).bufferByStream.lookup key =
              (OutboundCall.run calls).bufferByStream.lookup key := by
  have holds := holds_run calls
  refine ⟨holds.counted, holds.nonempty, holds.queues,
    fun client streamId ackedSeqId ackedSegmentId => ⟨fun queue hit => ?_, fun key y => ?_⟩⟩
  · exact holds.countP_le hit _
  · exact lookup_ack _ client streamId ackedSeqId ackedSegmentId y

end BoundedOutboundBuffer

namespace OutboundCall

abbrev Ack := ClientId × StreamId × Nat × Option Nat

def ofAck : Ack → OutboundCall M
  | (client, streamId, ackedSeqId, ackedSegmentId) => .ack client streamId ackedSeqId ackedSegmentId

theorem unacknowledged_acks {batch others : List Ack}
    (same : ∀ ack, ack ∈ batch ↔ ack ∈ others) (key : ClientKey) (calls : List (OutboundCall M)) :
    unacknowledged key (calls ++ batch.map ofAck) =
      unacknowledged key (calls ++ others.map ofAck) := by
  induction calls with
  | nil =>
    have none acks : unacknowledged (M := M) key (map ofAck acks) = [] := by
      induction acks with
      | nil => rfl
      | cons ack acks ih => exact ih
    exact (none batch).trans (none others).symm
  | cons call later ih =>
    cases call with
    | ack => exact ih
    | insert env =>
      have covered : (∃ call ∈ later ++ map ofAck batch, Covers env call) ↔
          ∃ call ∈ later ++ map ofAck others, Covers env call := by
        simp only [mem_append, List.mem_map, same]
      simp only [cons_append, unacknowledged, covered, ih]

theorem run_eq_of_unacknowledged {calls others : List (OutboundCall M)}
    (same : ∀ key, unacknowledged key calls = unacknowledged key others) :
    run calls = run others := by
  obtain ⟨counted, nonempty, queues⟩ := BoundedOutboundBuffer.holds_run calls
  obtain ⟨counted', nonempty', queues'⟩ := BoundedOutboundBuffer.holds_run others
  have equal : (run calls).bufferByStream = (run others).bufferByStream := by
    refine Finmap.ext_lookup fun key => ?_
    have queue := (queues key).trans ((same key).trans (queues' key).symm)
    cases fst : (run calls).bufferByStream.lookup key <;>
      cases snd : (run others).bufferByStream.lookup key <;> grind
  rw [← equal, ← counted] at counted'
  exact congrArg₂ BoundedOutboundBuffer.mk equal counted'.symm

/-- Acknowledgements count as a set: neither their order nor a repetition matters. -/
theorem run_acks_unordered (calls : List (OutboundCall M)) (batch : List Ack) :
    run (calls ++ batch.map ofAck) =
      run (calls ++ batch.toFinset.toList.map ofAck) :=
  run_eq_of_unacknowledged fun key => unacknowledged_acks (by simp) key calls

end OutboundCall

end Codex.RemoteControl
