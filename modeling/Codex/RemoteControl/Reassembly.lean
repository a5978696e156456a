import Codex.Foundation.Lists
import Codex.RemoteControl.Segment

/-!
# Chunked messages are forwarded intact and at most once

The log has the chunks taken, messages forwarded and streams invalidated.
-/

namespace Codex.RemoteControl

open List Option

variable {P M : Type}

inductive Entry (P : Type)
  | accepted (chunk : ClientChunk)
  | forwarded (chunk : ClientChunk) (message : JSONRPCMessage P)
  | invalidatedStream (clientId : ClientId) (streamId : StreamId)
  | invalidatedClient (clientId : ClientId)
  deriving DecidableEq

def Entry.Invalidates (clientId : ClientId) (streamId : StreamId) : Entry P → Prop
  | .invalidatedStream client stream => client = clientId ∧ stream = streamId
  | .invalidatedClient client => client = clientId
  | .accepted _ | .forwarded _ _ => False

def Entry.acceptedChunk? (clientId : ClientId) : Entry P → Option ClientChunk
  | .accepted chunk => if chunk.clientId = clientId then some chunk else none
  | .forwarded _ _ | .invalidatedStream _ _ | .invalidatedClient _ => none

def acceptedBy (clientId : ClientId) (log : List (Entry P)) : List ClientChunk :=
  log.filterMap (Entry.acceptedChunk? clientId)

inductive Input (P : Type)
  | envelope (envelope : ClientEnvelope P) (wireSizeBytes now : Nat)
  | invalidateStream (clientId : ClientId) (streamId : StreamId)
  | invalidateClient (clientId : ClientId)

namespace WebsocketState

def admits (st : WebsocketState M) (envelope : ClientEnvelope P) (wireSizeBytes : Nat)
    (chunk : ClientChunk) : Bool :=
  !st.isCompleted (clientMessageKey envelope) &&
    !st.clientSegmentReassembler.shouldIgnoreChunk chunk &&
    decide (wireSizeBytes ≤ remoteControlSegmentMaxBytes) && !chunk.isInvalid

variable (codec : SegmentCodec P)

def accepts (now : Nat) (envelope : ClientEnvelope P)
    (wireSizeBytes : Nat) (st : WebsocketState M) (chunk : ClientChunk) : Bool :=
  let assembly := (st.clientSegmentReassembler.assemblyFor codec now chunk).1
  st.admits envelope wireSizeBytes chunk &&
    decide (ClientSegmentReassembler.expects assembly chunk) &&
    (ClientSegmentReassembler.decodeChunk codec assembly.raw chunk).isOk

def forwardedEntry (envelope delivered : ClientEnvelope P) : List (Entry P) :=
  match envelope.chunk?, delivered.event with
  | some chunk, .clientMessage message => [.forwarded chunk message]
  | _, _ => []

def receive (now : Nat) (envelope : ClientEnvelope P)
    (wireSizeBytes : Nat) (st : WebsocketState M) : List (Entry P) × WebsocketState M :=
  let observed := st.observeClientMessage codec now envelope wireSizeBytes
  let accepted := (envelope.chunk?.filter (st.accepts codec now envelope wireSizeBytes)).toList
  match observed.1 with
  | .forward delivered =>
    (accepted.map .accepted ++ forwardedEntry envelope delivered,
      observed.2.recordClientMessageDelivery delivered (clientMessageKey envelope))
  | .pending | .dropped => (accepted.map .accepted, observed.2)

def step (logged : List (Entry P) × WebsocketState M) (input : Input P) :
    List (Entry P) × WebsocketState M :=
  match input with
  | .envelope envelope wireSizeBytes now =>
    let received := logged.2.receive codec now envelope wireSizeBytes
    (logged.1 ++ received.1, received.2)
  | .invalidateStream clientId streamId =>
    (logged.1 ++ [.invalidatedStream clientId streamId],
      logged.2.invalidateStream clientId streamId)
  | .invalidateClient clientId =>
    (logged.1 ++ [.invalidatedClient clientId], logged.2.invalidateClient clientId)

def run (inputs : List (Input P)) : List (Entry P) × WebsocketState M :=
  inputs.foldl (step codec) ([], {})

end WebsocketState

structure Assembles (codec : SegmentCodec P) (clientId : ClientId) (streamId : StreamId)
    (metadata : ClientSegmentMetadata) (chunks : List ClientChunk) (raw : List UInt8) : Prop where
  own : ∀ chunk ∈ chunks, chunk.clientId = clientId ∧ chunk.streamId = streamId ∧
    chunk.metadata = metadata
  numbered : chunks.map (·.segmentId) = List.range chunks.length
  decoded : ∃ parts, chunks.mapM (fun chunk => codec.decode chunk.messageChunkBase64) = some parts ∧
    raw = parts.flatten

variable (codec : SegmentCodec P)

/-- A forwarded message is assembled from the last chunks accepted of its client. -/
def ForwardsIntact (log : List (Entry P)) : Prop :=
  ∀ before chunk message after, log = before ++ .forwarded chunk message :: after →
    ∃ old chunks raw, acceptedBy chunk.clientId before = old ++ chunks ∧
      Assembles codec chunk.clientId chunk.streamId chunk.metadata chunks raw ∧
      chunks.length = chunk.metadata.segmentCount ∧
      raw.length = chunk.metadata.messageSizeBytes ∧ codec.parseMessage raw = .ok message

/-- Sequence numbers increase until the stream is invalidated. -/
def ForwardsIncreasing (log : List (Entry P)) : Prop :=
  ∀ before first firstMessage between snd secondMessage after,
    log = before ++ .forwarded first firstMessage :: between ++
      .forwarded snd secondMessage :: after →
    first.clientId = snd.clientId → first.streamId = snd.streamId →
    (∀ ent ∈ between, ¬ ent.Invalidates first.clientId first.streamId) →
    first.metadata.seqId < snd.metadata.seqId

theorem Assembles.nil (clientId : ClientId) (sid : StreamId)
    (metadata : ClientSegmentMetadata) : Assembles codec clientId sid metadata [] [] where
  own := by simp
  numbered := rfl
  decoded := ⟨[], rfl, rfl⟩

theorem Assembles.concat {codec : SegmentCodec P} {chunk : ClientChunk} {chunks : List ClientChunk}
    {raw bytes : List UInt8}
    (joins : Assembles codec chunk.clientId chunk.streamId chunk.metadata chunks raw)
    (next : chunk.segmentId = chunks.length)
    (decoded : codec.decode chunk.messageChunkBase64 = some bytes) :
    Assembles codec chunk.clientId chunk.streamId chunk.metadata (chunks ++ [chunk])
      (raw ++ bytes) where
  own := by
    intro mem located
    rcases mem_append.mp located with old | last
    · exact joins.own mem old
    rw [mem_singleton.mp last]
    exact ⟨rfl, rfl, rfl⟩
  numbered := by
    simp [joins.numbered, next, range_succ]
  decoded := by
    obtain ⟨parts, all, rfl⟩ := joins.decoded
    refine ⟨parts ++ [bytes], ?_, by simp⟩
    rw [mapM_append, all]
    simp [decoded]

open ClientEnvelope ClientSegmentAssembly Map Or

namespace ClientSegmentReassembler

variable {now : Nat} {chunk : ClientChunk} {assemblies : ClientSegmentReassembler}
  {assembly : ClientSegmentAssembly}

def Within (after before : ClientSegmentReassembler) : Prop :=
  ∀ client assembly, after.lookup client = some assembly → before.lookup client = some assembly

variable (assemblies : ClientSegmentReassembler)

theorem within_erase (client : ClientId) : Within (assemblies.erase client) assemblies := by
  intro y assembly hit
  exact (of_lookup_erase hit).2

theorem within_removeAssembly (client : ClientId)
    (stream : StreamId) : Within (removeAssembly assemblies client stream) assemblies := by
  rw [removeAssembly]
  split
  · exact within_erase assemblies client
  · exact fun _ _ hit => hit

theorem within_evictAssembliesIfFull :
    Within (evictAssembliesIfFull codec assemblies) assemblies := by
  refine exhaust_relation (fun pre after => Within after pre) (fun _ _ _ hit => hit)
    (fun fst snd client assembly hit => fst client assembly (snd client assembly hit))
    (fun pre after evicted => ?_) _ assemblies
  rw [evictAssembly] at evicted
  split at evicted
  · obtain ⟨ent, -, rfl⟩ := map_eq_some_iff.mp evicted
    exact within_erase pre ent.1
  · cases evicted

theorem within_assemblyFor : Within (assemblyFor codec now chunk assemblies).2 assemblies := by
  rw [assemblyFor]
  cases assemblies.lookup chunk.clientId with
  | some assembly =>
    dsimp only
    split <;> exact fun _ _ hit => hit
  | none => exact within_evictAssembliesIfFull codec assemblies

theorem assemblyFor_fst : (assemblyFor codec now chunk assemblies).1 = chunk.newAssembly now ∨
      assemblies.lookup chunk.clientId = some (assemblyFor codec now chunk assemblies).1 ∧
        (assemblyFor codec now chunk assemblies).1.streamId = chunk.streamId := by
  rw [assemblyFor]
  cases assemblies.lookup chunk.clientId with
  | some assembly =>
    by_cases eq : assembly.streamId = chunk.streamId <;> simp [eq]
  | none => exact inl rfl

theorem streamId_assemblyFor :
    (assemblyFor codec now chunk assemblies).1.streamId = chunk.streamId := by
  rcases assemblyFor_fst codec assemblies with fresh | ⟨-, eq⟩
  · rw [fresh]
    rfl
  · exact eq

theorem updateAssembly_of_expects {raw : List UInt8} (want : expects assembly chunk)
    (got : decodeChunk codec assembly.raw chunk = .ok raw) :
    updateAssembly codec now assembly chunk =
      (completeAssembly codec (assembly.advance now raw), assembly.advance now raw) := by
  obtain ⟨eq, next⟩ := want
  simp [updateAssembly, eq, next, got]

theorem updateAssembly_of_refused
    (refused : ¬ (expects assembly chunk ∧ (decodeChunk codec assembly.raw chunk).isOk)) :
    updateAssembly codec now assembly chunk = (.ignore, assembly) ∨
      updateAssembly codec now assembly chunk = (.pending, assembly) ∨
      (updateAssembly codec now assembly chunk).1 = .drop ∧
        (updateAssembly codec now assembly chunk).2.streamId = assembly.streamId := by
  rw [updateAssembly]
  by_cases stale : chunk.metadata.seqId < assembly.metadata.seqId
  · simp [stale]
  by_cases eq : assembly.metadata = chunk.metadata
  · by_cases old : chunk.segmentId < assembly.nextSegmentId
    · simp [eq, old]
    by_cases next : chunk.segmentId = assembly.nextSegmentId
    · cases got : decodeChunk codec assembly.raw chunk with
      | error err => simp [eq, next]
      | ok raw => exact absurd ⟨⟨eq, next⟩, by rw [got]; rfl⟩ refused
    · simp [eq, old, next]
  · simp [stale, eq]

theorem decodeChunk_ok {raw next : List UInt8} (fits : raw.length ≤ chunk.metadata.messageSizeBytes)
    (got : decodeChunk codec raw chunk = .ok next) :
    ∃ bytes, codec.decode chunk.messageChunkBase64 = some bytes ∧ next = raw ++ bytes ∧
      next.length ≤ chunk.metadata.messageSizeBytes := by
  simp only [decodeChunk] at got
  generalize limit : min chunk.metadata.messageSizeBytes (raw.length + codec.decodedLenEstimate
    (chunk.messageChunkBase64.map Char.utf8Size).sum) = chunkEnd at got
  have room : raw.length ≤ chunkEnd ∧ chunkEnd ≤ chunk.metadata.messageSizeBytes := by omega
  rw [take_of_length_le room.1, take_left, drop_left, length_replicate]
    at got
  cases slice : codec.decodeSlice chunk.messageChunkBase64 (chunkEnd - raw.length) with
  | error err => simp [slice] at got
  | ok bytes =>
    obtain rfl : raw ++ bytes = next := by simpa [slice] using got
    obtain ⟨txt, short⟩ := codec.decodeSlice_ok slice
    refine ⟨bytes, txt, rfl, ?_⟩
    rw [length_append]
    omega

end ClientSegmentReassembler

structure Takes (codec : SegmentCodec P) (st : WebsocketState M) (chunk : ClientChunk)
    (base : ClientSegmentAssembly) (raw : List UInt8) : Prop where
  started : base.nextSegmentId = 0 ∧ base.raw = [] ∨
    st.clientSegmentReassembler.lookup chunk.clientId = some base
  stream : base.streamId = chunk.streamId
  expected : ClientSegmentReassembler.expects base chunk
  decoded : ClientSegmentReassembler.decodeChunk codec base.raw chunk = .ok raw
  numbered : chunk.segmentId < chunk.metadata.segmentCount
  fresh : ∀ last, st.lastCompletedClientChunkSeqIdByStream.lookup
    (chunk.clientId, some chunk.streamId) = some last → last < chunk.metadata.seqId

inductive Received (codec : SegmentCodec P) (st next : WebsocketState M) :
    List (Entry P) → Prop
  | refused
      (assemblies : ∀ client assembly,
        next.clientSegmentReassembler.lookup client = some assembly →
          st.clientSegmentReassembler.lookup client = some assembly ∨
            assembly.nextSegmentId = 0 ∧ assembly.raw = [])
      (cursors : next.lastCompletedClientChunkSeqIdByStream =
        st.lastCompletedClientChunkSeqIdByStream) : Received codec st next []
  | accepted {chunk : ClientChunk} {base : ClientSegmentAssembly} {raw : List UInt8} {now : Nat}
      (takes : Takes codec st chunk base raw)
      (assemblies : ∀ client assembly,
        next.clientSegmentReassembler.lookup client = some assembly →
          client = chunk.clientId ∧ assembly = base.advance now raw ∨ client ≠ chunk.clientId ∧
              st.clientSegmentReassembler.lookup client = some assembly)
      (cursors : next.lastCompletedClientChunkSeqIdByStream =
        st.lastCompletedClientChunkSeqIdByStream) : Received codec st next [.accepted chunk]
  | forwarded {chunk : ClientChunk} {base : ClientSegmentAssembly} {raw : List UInt8}
      {message : JSONRPCMessage P} (takes : Takes codec st chunk base raw)
      (last : chunk.metadata.segmentCount ≤ base.nextSegmentId + 1)
      (size : raw.length = chunk.metadata.messageSizeBytes)
      (parsed : codec.parseMessage raw = .ok message)
      (assemblies : ∀ client assembly,
        next.clientSegmentReassembler.lookup client = some assembly → client ≠ chunk.clientId ∧
            st.clientSegmentReassembler.lookup client = some assembly)
      (cursors : next.lastCompletedClientChunkSeqIdByStream =
        st.lastCompletedClientChunkSeqIdByStream.insert
          (chunk.clientId, some chunk.streamId) chunk.metadata.seqId) :
      Received codec st next [.accepted chunk, .forwarded chunk message]

theorem ClientEnvelope.event_of_chunk? {envelope : ClientEnvelope P} {chunk : ClientChunk}
    (hit : envelope.chunk? = some chunk) :
    envelope.isChunk = true ∧ envelope.streamId = some chunk.streamId ∧
      WebsocketState.clientMessageKey envelope =
        some ((chunk.clientId, some chunk.streamId), chunk.metadata.seqId) := by
  obtain ⟨ev, clientId, sid, seqId, cursor⟩ := envelope
  cases ev with
  | clientMessageChunk segId total size txt =>
    cases seqId with
    | none => cases hit
    | some seqId =>
      cases sid with
      | none => cases hit
      | some sid =>
        cases hit
        exact ⟨rfl, rfl, rfl⟩
  | _ => cases hit

namespace ClientSegmentReassembler

variable {codec : SegmentCodec P} {now : Nat} {envelope : ClientEnvelope P} {chunk : ClientChunk}
  {assemblies : ClientSegmentReassembler}

theorem lookup_removeAssembly_insert {assembly : ClientSegmentAssembly}
    (stream : assembly.streamId = chunk.streamId) {client : ClientId}
    {found : ClientSegmentAssembly}
    (kept : (removeAssembly (assemblies.insert chunk.clientId assembly) chunk.clientId
      chunk.streamId).lookup client = some found) :
    client ≠ chunk.clientId ∧ assemblies.lookup client = some found := by
  rw [removeAssembly, if_pos (by simp [stream])] at kept
  obtain ⟨y, kept⟩ := of_lookup_erase kept
  rw [lookup_insert, if_neg y] at kept
  exact ⟨y, kept⟩

variable {client : ClientId} {assembly : ClientSegmentAssembly}

theorem lookup_insert_assemblyFor
    (hit : ((assemblyFor codec now chunk assemblies).2.insert chunk.clientId
      (assemblyFor codec now chunk assemblies).1).lookup client = some assembly) :
    assemblies.lookup client = some assembly ∨ assembly.nextSegmentId = 0 ∧ assembly.raw = [] := by
  obtain ⟨rfl, rfl⟩ | ⟨-, hit⟩ := of_lookup_insert hit
  · rcases assemblyFor_fst codec assemblies with fresh | ⟨pre, -⟩
    · rw [fresh]
      exact inr ⟨rfl, rfl⟩
    · exact inl pre
  · exact inl (within_assemblyFor codec assemblies client assembly hit)

theorem observeChunk_of_refused
    (refused : ¬ (expects (assemblyFor codec now chunk assemblies).1 chunk ∧
      (decodeChunk codec (assemblyFor codec now chunk assemblies).1.raw chunk).isOk)) :
    (∀ sent, (observeChunk codec now envelope chunk assemblies).1 ≠ .forward sent) ∧
      ∀ client assembly,
        (observeChunk codec now envelope chunk assemblies).2.lookup client = some assembly →
          assemblies.lookup client = some assembly ∨
            assembly.nextSegmentId = 0 ∧ assembly.raw = [] := by
  rcases @updateAssembly_of_refused _ codec now _ _ refused with ignored | pending | ⟨drop, stream⟩
  · simp only [observeChunk, ignored]
    exact ⟨fun _ => nofun, fun _ _ => lookup_insert_assemblyFor⟩
  · simp only [observeChunk, pending]
    exact ⟨fun _ => nofun, fun _ _ => lookup_insert_assemblyFor⟩
  simp only [observeChunk, drop]
  refine ⟨fun _ => nofun, fun client assembly hit => inl ?_⟩
  have kept := lookup_removeAssembly_insert (stream.trans (streamId_assemblyFor codec _)) hit
  exact within_assemblyFor codec assemblies client assembly kept.2

theorem completeAssembly_eq_complete {message : JSONRPCMessage P}
    (full : completeAssembly codec assembly = .complete message) :
    assembly.metadata.segmentCount ≤ assembly.nextSegmentId ∧
      assembly.raw.length = assembly.metadata.messageSizeBytes ∧
      codec.parseMessage assembly.raw = .ok message := by
  rw [completeAssembly] at full
  by_cases waiting : assembly.nextSegmentId < assembly.metadata.segmentCount
  · simp [waiting] at full
  by_cases size : assembly.raw.length = assembly.metadata.messageSizeBytes
  · cases parsed : codec.parseMessage assembly.raw with
    | error err => simp [waiting, size, parsed] at full
    | ok res =>
      obtain rfl : res = message := by simpa [waiting, size, parsed] using full
      exact ⟨Nat.le_of_not_lt waiting, size, rfl⟩
  · simp [waiting, size] at full

theorem lookup_insert_advanced {advanced : ClientSegmentAssembly}
    (hit : ((assemblyFor codec now chunk assemblies).2.insert chunk.clientId advanced).lookup
      client = some assembly) :
    client = chunk.clientId ∧ assembly = advanced ∨
      client ≠ chunk.clientId ∧ assemblies.lookup client = some assembly := by
  refine (of_lookup_insert hit).imp_right ?_
  rintro ⟨y, hit⟩
  exact ⟨y, within_assemblyFor codec assemblies client assembly hit⟩

end ClientSegmentReassembler

namespace WebsocketState

open ClientSegmentReassembler

variable {codec : SegmentCodec P} {now wireSizeBytes : Nat} {envelope : ClientEnvelope P}
  {chunk : ClientChunk} {st : WebsocketState M}

theorem observeClientMessage_of_admits (hit : envelope.chunk? = some chunk)
    (admitted : st.admits envelope wireSizeBytes chunk) :
    st.observeClientMessage codec now envelope wireSizeBytes =
      ((observeChunk codec now envelope chunk st.clientSegmentReassembler).1, { st with
          clientSegmentReassembler :=
            (observeChunk codec now envelope chunk st.clientSegmentReassembler).2 }) := by
  simp only [admits, Bool.and_eq_true, Bool.not_eq_true', decide_eq_true_eq] at admitted
  obtain ⟨⟨⟨done, ignored⟩, small⟩, valid⟩ := admitted
  have fits : ¬ remoteControlSegmentMaxBytes < wireSizeBytes := Nat.not_lt.mpr small
  have isChunk := (event_of_chunk? hit).1
  simp [observeClientMessage, done, hit, ignored, fits, observe, isChunk, valid]

theorem observeClientMessage_of_not_admits (isChunk : envelope.isChunk = true)
    (refused : ∀ chunk, envelope.chunk? = some chunk →
      st.admits envelope wireSizeBytes chunk = false) :
    ∃ assemblies, st.observeClientMessage codec now envelope wireSizeBytes =
        (.dropped, { st with clientSegmentReassembler := assemblies }) ∧
      Within assemblies st.clientSegmentReassembler := by
  have same : Within st.clientSegmentReassembler st.clientSegmentReassembler :=
    fun _ _ hit => hit
  rw [observeClientMessage]
  split
  · exact ⟨_, rfl, same⟩
  rename_i done
  split
  · exact ⟨_, rfl, same⟩
  rename_i ignored
  split
  · split
    · exact ⟨_, rfl, within_removeAssembly _ _ _⟩
    · exact ⟨_, rfl, same⟩
  rename_i large
  cases hit : envelope.chunk? with
  | none =>
    refine ⟨st.clientSegmentReassembler, ?_, same⟩
    simp [observe, isChunk, hit]
  | some chunk =>
    have keyed := (event_of_chunk? hit).2.2
    have invalid : chunk.isInvalid = true := by
      have barred := refused chunk hit
      simp_all [admits]
    simp only [hit, any_some] at ignored
    refine ⟨_, ?_, within_removeAssembly _ chunk.clientId chunk.streamId⟩
    simp [observe, isChunk, hit, ignored, invalid]

theorem observeClientMessage_of_not_isChunk (plain : envelope.isChunk = false) :
    st.observeClientMessage codec now envelope wireSizeBytes = (.forward envelope, st) ∧
      clientMessageKey envelope = none ∧ envelope.chunk? = none := by
  obtain ⟨ev, clientId, sid, seqId, cursor⟩ := envelope
  cases ev with
  | clientMessageChunk segId total size txt => cases plain
  | _ =>
    simp [observeClientMessage, isCompleted, clientMessageKey, chunk?, observe,
      isChunk]

theorem takes_of_accepts (hit : envelope.chunk? = some chunk)
    (accepted : st.accepts codec now envelope wireSizeBytes chunk = true) :
    ∃ raw, Takes codec st chunk (assemblyFor codec now chunk st.clientSegmentReassembler).1
      raw := by
  simp only [accepts, Bool.and_eq_true, decide_eq_true_eq] at accepted
  obtain ⟨⟨admitted, want⟩, decodes⟩ := accepted
  cases decoded : decodeChunk codec
      (assemblyFor codec now chunk st.clientSegmentReassembler).1.raw chunk with
  | error err =>
    rw [decoded] at decodes
    cases decodes
  | ok raw =>
    simp only [admits, Bool.and_eq_true, Bool.not_eq_true', decide_eq_true_eq] at admitted
    obtain ⟨⟨⟨done, -⟩, -⟩, valid⟩ := admitted
    refine ⟨raw, ?_, streamId_assemblyFor codec _, want, decoded, ?_, ?_⟩
    · rcases assemblyFor_fst codec st.clientSegmentReassembler with fresh | ⟨pre, -⟩
      · rw [fresh]
        exact inl ⟨rfl, rfl⟩
      · exact inr pre
    · simp [ClientChunk.isInvalid] at valid
      omega
    intro last cursor
    rw [(event_of_chunk? hit).2.2] at done
    simpa [isCompleted, cursor] using done

theorem receive_of_not_forward (kept : ∀ sent,
      (st.observeClientMessage codec now envelope wireSizeBytes).1 ≠ .forward sent) :
    st.receive codec now envelope wireSizeBytes =
      ((envelope.chunk?.filter (st.accepts codec now envelope wireSizeBytes)).toList.map
          .accepted,
        (st.observeClientMessage codec now envelope wireSizeBytes).2) := by
  rw [receive]
  cases observed : (st.observeClientMessage codec now envelope wireSizeBytes).1 with
  | forward sent => exact absurd observed (kept sent)
  | pending | dropped => simp

theorem received_of_not_admits (isChunk : envelope.isChunk = true)
    (refused : ∀ chunk, envelope.chunk? = some chunk →
      st.admits envelope wireSizeBytes chunk = false) :
    Received codec st (st.receive codec now envelope wireSizeBytes).2
      (st.receive codec now envelope wireSizeBytes).1 := by
  obtain ⟨assemblies, seen, le⟩ :=
    @observeClientMessage_of_not_admits P M codec now _ _ _ isChunk refused
  have unaccepted : envelope.chunk?.filter (st.accepts codec now envelope wireSizeBytes) =
      none := by
    rw [filter_eq_none_iff]
    intro chunk hit
    simp [accepts, refused chunk hit]
  rw [receive_of_not_forward (by simp [seen]), unaccepted, seen]
  exact .refused (fun client assembly hit => inl (le client assembly hit)) rfl

theorem received_of_refused (hit : envelope.chunk? = some chunk)
    (admitted : st.admits envelope wireSizeBytes chunk)
    (refused : ¬ st.accepts codec now envelope wireSizeBytes chunk) :
    Received codec st (st.receive codec now envelope wireSizeBytes).2
      (st.receive codec now envelope wireSizeBytes).1 := by
  have observed := @observeClientMessage_of_admits P M codec now _ _ _ _ hit admitted
  have outcome := @observeChunk_of_refused P codec now envelope chunk
    st.clientSegmentReassembler (by simpa [accepts, admitted] using refused)
  have unaccepted : envelope.chunk?.filter (st.accepts codec now envelope wireSizeBytes) =
      none := by
    simp [hit, refused]
  rw [receive_of_not_forward (by rw [observed]; exact outcome.1), unaccepted, observed]
  exact .refused outcome.2 rfl

theorem received_of_accepts (hit : envelope.chunk? = some chunk)
    (accepted : st.accepts codec now envelope wireSizeBytes chunk = true) :
    Received codec st (st.receive codec now envelope wireSizeBytes).2
      (st.receive codec now envelope wireSizeBytes).1 := by
  obtain ⟨raw, takes⟩ := takes_of_accepts hit accepted
  have admitted : st.admits envelope wireSizeBytes chunk = true := by
    simp only [accepts, Bool.and_eq_true] at accepted
    exact accepted.1.1
  have observed := @observeClientMessage_of_admits P M codec now _ _ _ _ hit admitted
  have update := @updateAssembly_of_expects P codec now _ _ _ takes.expected takes.decoded
  have logged : envelope.chunk?.filter (st.accepts codec now envelope wireSizeBytes) =
      some chunk := by
    simp [hit, accepted]
  have gone := fun client assembly => @lookup_removeAssembly_insert chunk
    (assemblyFor codec now chunk st.clientSegmentReassembler).2
    (advance _ now raw) takes.stream client assembly
  have within := @within_assemblyFor P codec now chunk st.clientSegmentReassembler
  simp only [observeChunk, update] at observed
  cases outcome : completeAssembly codec (advance _ now raw) with
  | pending | ignore =>
    rw [outcome] at observed
    rw [receive_of_not_forward (by simp [observed]), logged, observed]
    exact .accepted takes (fun _ _ => lookup_insert_advanced) rfl
  | drop =>
    rw [outcome] at observed
    rw [receive_of_not_forward (by simp [observed]), logged, observed]
    refine @Received.accepted _ _ codec st _ chunk _ raw now takes
      (fun client assembly kept => inr ?_) rfl
    obtain ⟨y, pre⟩ := gone client assembly kept
    exact ⟨y, within client assembly pre⟩
  | complete msg =>
    obtain ⟨last, size, parsed⟩ := completeAssembly_eq_complete outcome
    have eq := takes.expected.1
    rw [outcome] at observed
    rw [hit] at logged
    simp only [receive, observed, hit, logged, forwardedEntry,
      (event_of_chunk? hit).2.2]
    refine .forwarded takes (eq ▸ last) (eq ▸ size) parsed ?_ rfl
    intro client assembly kept
    obtain ⟨y, pre⟩ := gone client assembly kept
    exact ⟨y, within client assembly pre⟩

/-- An envelope does nothing to the assemblies and cursors but what `Received` lists. -/
theorem received_receive (codec : SegmentCodec P) (now : Nat) (envelope : ClientEnvelope P)
    (wireSizeBytes : Nat) (st : WebsocketState M) :
    Received codec st (st.receive codec now envelope wireSizeBytes).2
      (st.receive codec now envelope wireSizeBytes).1 := by
  cases isChunk : envelope.isChunk with
  | false =>
    obtain ⟨seen, unkeyed, absent⟩ :=
      @observeClientMessage_of_not_isChunk P M codec now wireSizeBytes envelope st isChunk
    simp only [receive, seen, absent, unkeyed, forwardedEntry, filter_none,
      toList_none, map_nil, append_nil]
    exact .refused (fun _ _ hit => inl hit) rfl
  | true =>
    cases hit : envelope.chunk? with
    | none => exact received_of_not_admits isChunk (by simp [hit])
    | some chunk =>
      by_cases accepted : st.accepts codec now envelope wireSizeBytes chunk = true
      · exact received_of_accepts hit accepted
      by_cases admitted : st.admits envelope wireSizeBytes chunk = true
      · exact received_of_refused hit admitted accepted
      refine received_of_not_admits isChunk fun y eq => ?_
      obtain rfl := some.inj (hit.symm.trans eq)
      exact Bool.eq_false_iff.mpr admitted

end WebsocketState

def Traces (log : List (Entry P)) (clientId : ClientId) (assembly : ClientSegmentAssembly) : Prop :=
  ∃ old chunks, acceptedBy clientId log = old ++ chunks ∧
    Assembles codec clientId assembly.streamId assembly.metadata chunks assembly.raw ∧
    chunks.length = assembly.nextSegmentId ∧
    assembly.raw.length ≤ assembly.metadata.messageSizeBytes

def CursorsCover (log : List (Entry P)) (cursors : Map ClientMessageKey Nat) : Prop :=
  ∀ before chunk message after, log = before ++ .forwarded chunk message :: after →
    (∀ ent ∈ after, ¬ ent.Invalidates chunk.clientId chunk.streamId) →
    ∃ last, cursors.lookup (chunk.clientId, some chunk.streamId) = some last ∧
      chunk.metadata.seqId ≤ last

structure Faithful (codec : SegmentCodec P) (log : List (Entry P)) (st : WebsocketState M) :
    Prop where
  traces : ∀ client assembly, st.clientSegmentReassembler.lookup client = some assembly →
    Traces codec log client assembly
  cursors : CursorsCover log st.lastCompletedClientChunkSeqIdByStream
  intact : ForwardsIntact codec log
  increasing : ForwardsIncreasing log

section

variable {codec : SegmentCodec P} {log : List (Entry P)} {ent : Entry P}

theorem acceptedBy_concat (clientId : ClientId) (log : List (Entry P)) (ent : Entry P) :
    acceptedBy clientId (log ++ [ent]) =
      acceptedBy clientId log ++ (ent.acceptedChunk? clientId).toList := by
  cases taken : ent.acceptedChunk? clientId <;> simp [acceptedBy, taken]

variable {clientId : ClientId} {assembly : ClientSegmentAssembly} {st next : WebsocketState M}
  {chunk : ClientChunk} {raw : List UInt8}

theorem Traces.of_empty (empty : assembly.nextSegmentId = 0 ∧ assembly.raw = []) :
    Traces codec log clientId assembly := by
  refine ⟨acceptedBy clientId log, [], (append_nil _).symm, ?_, empty.1.symm, ?_⟩
  · rw [empty.2]
    exact Assembles.nil codec clientId assembly.streamId assembly.metadata
  · simp [empty.2]

theorem Traces.concat (traces : Traces codec log clientId assembly)
    (foreign : ent.acceptedChunk? clientId = none) :
    Traces codec (log ++ [ent]) clientId assembly := by
  obtain ⟨old, chunks, accepted, tl⟩ := traces
  refine ⟨old, chunks, ?_, tl⟩
  rw [acceptedBy_concat, foreign, accepted]
  exact append_nil _

theorem Traces.advance {chunk : ClientChunk} {base : ClientSegmentAssembly} {raw : List UInt8}
    {now : Nat} {st : WebsocketState M} (traces : Traces codec log chunk.clientId base)
    (takes : Takes codec st chunk base raw) :
    Traces codec (log ++ [.accepted chunk]) chunk.clientId (base.advance now raw) := by
  obtain ⟨old, chunks, accepted, joins, cnt, fits⟩ := traces
  obtain ⟨eq, next⟩ := takes.expected
  rw [eq] at fits
  obtain ⟨bytes, got, rfl, le⟩ :=
    ClientSegmentReassembler.decodeChunk_ok codec fits takes.decoded
  refine ⟨old, chunks ++ [chunk], ?_, ?_, ?_, ?_⟩
  · simp [acceptedBy_concat, accepted, Entry.acceptedChunk?]
  · simp only [ClientSegmentAssembly.advance, eq, takes.stream] at joins ⊢
    exact joins.concat (next.trans cnt.symm) got
  · simp [ClientSegmentAssembly.advance, cnt]
  · simpa [ClientSegmentAssembly.advance, eq] using le

theorem Faithful.concat (faithful : Faithful codec log st)
    (silent : ∀ chunk msg, ent ≠ .forwarded chunk msg)
    (traces : ∀ client assembly, next.clientSegmentReassembler.lookup client = some assembly →
      Traces codec (log ++ [ent]) client assembly)
    (cursors : ∀ clientId sid, ¬ ent.Invalidates clientId sid →
      next.lastCompletedClientChunkSeqIdByStream.lookup (clientId, some sid) =
        st.lastCompletedClientChunkSeqIdByStream.lookup (clientId, some sid)) :
    Faithful codec (log ++ [ent]) next where
  traces := traces
  cursors := by
    intro pre chunk msg after split valid
    rcases concat_eq_append_cons split with ⟨-, eq, -⟩ | ⟨tl, rfl, lt⟩
    · exact absurd eq (silent chunk msg)
    rw [cursors _ _ (valid ent (by simp))]
    exact faithful.cursors pre chunk msg tl lt fun ent mem =>
      valid ent (by simp [mem])
  intact := by
    intro pre chunk msg after split
    rcases concat_eq_append_cons split with ⟨-, eq, -⟩ | ⟨tl, -, lt⟩
    · exact absurd eq (silent chunk msg)
    · exact faithful.intact pre chunk msg tl lt
  increasing := by
    intro pre fst msg1 between snd msg2 after split
    rcases concat_eq_append_cons split with ⟨-, eq, -⟩ | ⟨tl, -, lt⟩
    · exact absurd eq (silent snd msg2)
    · exact faithful.increasing pre fst msg1 between snd msg2 tl lt

theorem Faithful.forward {msg : JSONRPCMessage P} {old chunks : List ClientChunk}
    (faithful : Faithful codec log st) (accepted : acceptedBy chunk.clientId log = old ++ chunks)
    (joins : Assembles codec chunk.clientId chunk.streamId chunk.metadata chunks raw)
    (count : chunks.length = chunk.metadata.segmentCount)
    (size : raw.length = chunk.metadata.messageSizeBytes)
    (parsed : codec.parseMessage raw = .ok msg)
    (fresh : ∀ last, st.lastCompletedClientChunkSeqIdByStream.lookup
      (chunk.clientId, some chunk.streamId) = some last → last < chunk.metadata.seqId)
    (assemblies : next.clientSegmentReassembler = st.clientSegmentReassembler)
    (cursors : next.lastCompletedClientChunkSeqIdByStream =
      st.lastCompletedClientChunkSeqIdByStream.insert
        (chunk.clientId, some chunk.streamId) chunk.metadata.seqId) :
    Faithful codec (log ++ [.forwarded chunk msg]) next where
  traces := by
    intro client assembly hit
    rw [assemblies] at hit
    exact (faithful.traces client assembly hit).concat rfl
  cursors := by
    intro pre y otherMessage after split valid
    rw [cursors, lookup_insert]
    rcases concat_eq_append_cons split with ⟨-, eq, -⟩ | ⟨tl, rfl, lt⟩
    · cases eq
      exact ⟨_, if_pos rfl, le_rfl⟩
    obtain ⟨last, cursor, past⟩ := faithful.cursors pre y otherMessage tl lt
      fun ent mem => valid ent (by simp [mem])
    split
    · rename_i eq
      rw [eq] at cursor
      exact ⟨_, rfl, past.trans (fresh last cursor).le⟩
    · exact ⟨last, cursor, past⟩
  intact := by
    intro pre y otherMessage after split
    rcases concat_eq_append_cons split with ⟨rfl, eq, -⟩ | ⟨tl, -, lt⟩
    · cases eq
      exact ⟨old, chunks, raw, accepted, joins, count, size, parsed⟩
    · exact faithful.intact pre y otherMessage tl lt
  increasing := by
    intro pre fst msg1 between snd msg2 after split client stream valid
    rcases concat_eq_append_cons split with ⟨lt, eq, -⟩ | ⟨tl, -, lt⟩
    · cases eq
      obtain ⟨last, cursor, past⟩ :=
        faithful.cursors pre fst msg1 between lt valid
      rw [client, stream] at cursor
      exact past.trans_lt (fresh last cursor)
    exact faithful.increasing pre fst msg1 between snd msg2 tl lt
      client stream valid

theorem Faithful.traces_base {base : ClientSegmentAssembly} (faithful : Faithful codec log st)
    (takes : Takes codec st chunk base raw) : Traces codec log chunk.clientId base := by
  rcases takes.started with empty | hit
  · exact Traces.of_empty empty
  · exact faithful.traces chunk.clientId base hit

theorem acceptedChunk?_of_ne {client : ClientId} (y : client ≠ chunk.clientId) :
    (Entry.accepted chunk : Entry P).acceptedChunk? client = none :=
  if_neg (Ne.symm y)

theorem Faithful.received {ents : List (Entry P)} (faithful : Faithful codec log st)
    (got : Received codec st next ents) : Faithful codec (log ++ ents) next := by
  cases got with
  | refused assemblies cursors =>
    rw [append_nil]
    refine ⟨fun client assembly hit => ?_, cursors ▸ faithful.cursors, faithful.intact,
      faithful.increasing⟩
    rcases assemblies client assembly hit with pre | empty
    · exact faithful.traces client assembly pre
    · exact Traces.of_empty empty
  | accepted takes assemblies cursors =>
    refine faithful.concat (fun _ _ => nofun) (fun client assembly hit => ?_)
      fun _ _ _ => by rw [cursors]
    rcases assemblies client assembly hit with ⟨rfl, rfl⟩ | ⟨y, pre⟩
    · exact (faithful.traces_base takes).advance takes
    · exact (faithful.traces client assembly pre).concat (acceptedChunk?_of_ne y)
  | @forwarded chunk base raw message takes last size parsed assemblies cursors =>
    obtain ⟨old, chunks, accepted, joins, cnt, -⟩ :=
      @Traces.advance _ _ _ _ _ _ _ 0 _ (faithful.traces_base takes) takes
    have eq := takes.expected.1
    have between : Faithful codec (log ++ [.accepted chunk])
        { st with clientSegmentReassembler := next.clientSegmentReassembler } := by
      refine faithful.concat (fun _ _ => nofun) (fun client assembly hit => ?_)
        fun _ _ _ => rfl
      obtain ⟨y, pre⟩ := assemblies client assembly hit
      exact (faithful.traces client assembly pre).concat (acceptedChunk?_of_ne y)
    have assembled : Assembles codec chunk.clientId chunk.streamId chunk.metadata chunks raw := by
      simpa [advance, eq, takes.stream] using joins
    have count : chunks.length = chunk.metadata.segmentCount := by
      have number := takes.numbered
      have next := takes.expected.2
      simp only [advance] at cnt
      omega
    rw [append_cons]
    exact between.forward accepted assembled count size parsed takes.fresh rfl cursors

end

namespace WebsocketState

variable {codec : SegmentCodec P}

theorem faithful_step {logged : List (Entry P) × WebsocketState M}
    (faithful : Faithful codec logged.1 logged.2) (input : Input P) :
    Faithful codec (step codec logged input).1 (step codec logged input).2 := by
  cases input with
  | envelope envelope wireSizeBytes now =>
    exact faithful.received (received_receive codec now envelope wireSizeBytes logged.2)
  | invalidateStream clientId sid =>
    refine faithful.concat (fun _ _ => nofun) (fun client assembly hit => ?_)
      fun client stream valid => ?_
    · have pre := ClientSegmentReassembler.within_removeAssembly _ _ _ client assembly hit
      exact (faithful.traces client assembly pre).concat rfl
    refine (lookup_erase _ _ _).trans (if_neg fun eq => ?_)
    cases eq
    exact valid ⟨rfl, rfl⟩
  | invalidateClient clientId =>
    refine faithful.concat (fun _ _ => nofun) (fun client assembly hit => ?_)
      fun client stream valid => ?_
    · have pre := ClientSegmentReassembler.within_erase _ _ client assembly hit
      exact (faithful.traces client assembly pre).concat rfl
    refine (lookup_retain _ _ _).trans (if_pos ?_)
    exact decide_eq_true fun eq => valid eq.symm

theorem faithful_run (codec : SegmentCodec P) (inputs : List (Input P)) :
    Faithful codec (run codec inputs : List (Entry P) × WebsocketState M).1
      (run codec inputs : List (Entry P) × WebsocketState M).2 := by
  have steps : ∀ logged : List (Entry P) × WebsocketState M, Faithful codec logged.1 logged.2 →
      Faithful codec (inputs.foldl (step codec) logged).1
        (inputs.foldl (step codec) logged).2 := by
    induction inputs with
    | nil => exact fun _ faithful => faithful
    | cons input inputs ih =>
      exact fun logged faithful => ih _ (faithful_step faithful input)
  refine steps ([], {}) ⟨?_, ?_, ?_, ?_⟩
  · intro client assembly hit
    cases hit
  · intro pre chunk msg after split
    simp at split
  · intro pre chunk msg after split
    simp at split
  intro pre fst msg1 between snd msg2 after split
  simp at split

/-- A forwarded message has all its chunks in order, and messages of a stream are forwarded in
order. -/
theorem run_forwardsIntact (codec : SegmentCodec P) (inputs : List (Input P)) :
    ForwardsIntact codec (run codec inputs : List (Entry P) × WebsocketState M).1 ∧
      ForwardsIncreasing (run codec inputs : List (Entry P) × WebsocketState M).1 :=
  ⟨(faithful_run codec inputs).intact, (faithful_run codec inputs).increasing⟩

def base64Codec : SegmentCodec Unit where
  decodedLenEstimate encodedLen := (encodedLen + 3) / 4 * 3
  decode := decodeBase64
  decodeSlice text length :=
    match decodeBase64 text with
    | none => .error (.decodeError "Invalid input")
    | some bytes => if bytes.length ≤ length then .ok bytes else .error .outputSliceTooSmall
  decodeSlice_ok := by
    intro text length bytes decoded
    cases whole : decodeBase64 text with
    | none => simp [whole] at decoded
    | some res =>
      simp only [whole] at decoded
      split at decoded
      · rename_i fits
        cases decoded
        exact ⟨rfl, fits⟩
      · cases decoded
  parseMessage raw :=
    if raw = "\x7b\"method\":\"x\"\x7d".toList.map (fun c => .ofNat c.toNat) then
      .ok (.notification ())
    else .error "expected value"
  iterate _ := []

def helloChunk (segmentId : Nat) (text : Text) : Input Unit :=
  .envelope ⟨.clientMessageChunk segmentId 2 14 text, "c", some "s", some 7, none⟩
    200 0

/-- A repeated chunk is ignored, and a replay of the whole message is dropped. -/
theorem run_forwardsIntact_replayed :
    (run base64Codec [helloChunk 0 "eyJtZXRob2Q=", helloChunk 0 "eyJtZXRob2Q=",
        helloChunk 1 "IjoieCJ9", helloChunk 0 "eyJtZXRob2Q=",
        helloChunk 1 "IjoieCJ9"] : List (Entry Unit) × WebsocketState Unit).1 =
      [.accepted ⟨"c", "s", ⟨7, 2, 14⟩, 0, "eyJtZXRob2Q="⟩,
        .accepted ⟨"c", "s", ⟨7, 2, 14⟩, 1, "IjoieCJ9"⟩,
        .forwarded ⟨"c", "s", ⟨7, 2, 14⟩, 1, "IjoieCJ9"⟩ (.notification ())] ∧
      ForwardsIntact base64Codec
        (run base64Codec [helloChunk 0 "eyJtZXRob2Q=", helloChunk 0 "eyJtZXRob2Q=",
          helloChunk 1 "IjoieCJ9", helloChunk 0 "eyJtZXRob2Q=",
          helloChunk 1 "IjoieCJ9"] : List (Entry Unit) × WebsocketState Unit).1 :=
  ⟨by decide +kernel, (run_forwardsIntact base64Codec _).1⟩

end WebsocketState
end Codex.RemoteControl
