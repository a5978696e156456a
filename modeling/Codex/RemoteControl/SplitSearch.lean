import Codex.Foundation.Splice
import Codex.RemoteControl.Segment

/-!
# Which chunk sizes the search tries

Chunks are added as long as each makes the chunks smaller.
-/

namespace Codex.RemoteControl

open List

def remoteControlSegmentTargetBytes : Nat := 100 * 1024

inductive RequestId
  | integer (value : Int)
  | string (value : Text)
  deriving DecidableEq

structure JSONRPCErrorError (P : Type) where
  code : Int
  message : Text
  data : Option P := none

inductive OutgoingMessage (P : Type)
  | request (payload : P)
  | appServerNotification (payload : P)
  | response (id : RequestId) (result : P)
  | error (id : RequestId) (error : JSONRPCErrorError P)

inductive SplitError
  | other (cause : Text)
  | invalidData (message : Text)
  deriving DecidableEq

structure ServerCodec (P : Type) where
  serializedLen : ServerEnvelope (OutgoingMessage P) → Except Text Nat
  toVec : OutgoingMessage P → Except Text (List UInt8)
  toVec_ne_nil : ∀ {message}, toVec message ≠ .ok []

variable {P : Type}

def internalErrorCode : Int := -32603

def responseSerializationError (requestId : RequestId) (err : Text) : OutgoingMessage P :=
  .error requestId
    { code := internalErrorCode
      message := "failed to serialize response: " ++ err }

def buildChunkEnvelope (env : ServerEnvelope (OutgoingMessage P))
    (segmentId segmentCount messageSizeBytes : Nat) (chunk : List UInt8) :
    Except SplitError (ServerEnvelope (OutgoingMessage P)) :=
  if remoteControlSegmentCountMax < segmentCount then
    .error (.invalidData "remote-control segment count exceeds maximum")
  else
    .ok { env with
      event := .serverMessageChunk segmentId segmentCount messageSizeBytes (encodeBase64 chunk) }

section

variable (codec : ServerCodec P) (env : ServerEnvelope (OutgoingMessage P))

def serializedChunkLen (segmentId segmentCount messageSizeBytes : Nat) (chunk : List UInt8) :
    Except SplitError Nat := do
  let chunkEnvelope ← buildChunkEnvelope env segmentId segmentCount messageSizeBytes chunk
  (codec.serializedLen chunkEnvelope).mapError .other

def chunkFits (segmentId segmentCount messageSizeBytes : Nat) (chunk : List UInt8) : Bool :=
  match serializedChunkLen codec env segmentId segmentCount messageSizeBytes chunk with
  | .ok size => decide (size ≤ remoteControlSegmentMaxBytes)
  | .error _ => false

def segmentsFit (raw : List UInt8) (chunkSize : Nat) : Bool :=
  (chunks chunkSize raw).zipIdx.all fun entry =>
    chunkFits codec env entry.2 (raw.length ⌈/⌉ chunkSize) raw.length entry.1

def buildSegments (raw : List UInt8) (chunkSize : Nat) :
    Except SplitError (List (ServerEnvelope (OutgoingMessage P))) :=
  (chunks chunkSize raw).zipIdx.mapM fun entry =>
    buildChunkEnvelope env entry.2 (raw.length ⌈/⌉ chunkSize) raw.length entry.1

def evenChunkSize (messageSizeBytes segmentCount : Nat) : Nat :=
  max 1 (messageSizeBytes ⌈/⌉ segmentCount)

inductive SplitRound (P : Type)
  | done (result : Except SplitError (List (ServerEnvelope (OutgoingMessage P))))
  | again (segmentCount : Nat)

def splitRound (raw : List UInt8) (segmentCount : Nat) : SplitRound P :=
  let chunkSize := evenChunkSize raw.length segmentCount
  let segmentCount := raw.length ⌈/⌉ chunkSize
  if segmentsFit codec env raw chunkSize then .done (buildSegments env raw chunkSize)
  else if chunkSize = 1 then .done (.ok [])
  else
    let nextSegmentCount := segmentCount + 1
    let nextChunkSize := evenChunkSize raw.length nextSegmentCount
    .again (if nextChunkSize = chunkSize then raw.length else nextSegmentCount)

def splitLoop (raw : List UInt8) : (fuel segmentCount : Nat) →
      Option (Except SplitError (List (ServerEnvelope (OutgoingMessage P))))
  | 0, _ => none
  | fuel + 1, segmentCount =>
    match splitRound codec env raw segmentCount with
    | .done result => some result
    | .again next => splitLoop raw fuel next

def startingSegmentCount (messageSizeBytes : Nat) : Nat :=
  max 2 (messageSizeBytes ⌈/⌉ remoteControlSegmentTargetBytes)

def splitMessage (fuel : Nat) (raw : List UInt8) :
    Option (Except SplitError (List (ServerEnvelope (OutgoingMessage P)))) :=
  if remoteControlReassembledMaxBytes < raw.length then some (.ok [])
  else
    let minimalSegmentCount := min (max raw.length 1) remoteControlSegmentCountMax
    match serializedChunkLen codec env 0 minimalSegmentCount raw.length (raw.take 1) with
    | .error err => some (.error err)
    | .ok size =>
      if remoteControlSegmentMaxBytes < size then some (.ok [])
      else splitLoop codec env raw fuel (startingSegmentCount raw.length)

def splitServerEnvelopeForTransport (fuel : Nat) :
    Option (Except SplitError (List (ServerEnvelope (OutgoingMessage P)))) :=
  match env.event with
  | .serverMessage message =>
    match codec.serializedLen env with
    | .error err =>
      match message with
      | .response id _ =>
        some (.ok [{ env with
          event := .serverMessage (responseSerializationError id err) }])
      | _ => some (.error (.other err))
    | .ok envelopeSizeBytes =>
      if envelopeSizeBytes ≤ remoteControlSegmentMaxBytes then some (.ok [env])
      else
        match codec.toVec message with
        | .error err => some (.error (.other err))
        | .ok raw => splitMessage codec env fuel raw
  | _ => some (.ok [env])

end

section

variable {messageSizeBytes segmentCount chunkSize : Nat}

theorem one_le_evenChunkSize : 1 ≤ evenChunkSize messageSizeBytes segmentCount :=
  Nat.le_max_left _ _

theorem evenChunkSize_le (pos : 0 < segmentCount) (nonzero : 1 ≤ chunkSize)
    (covers : messageSizeBytes ≤ segmentCount * chunkSize) :
    evenChunkSize messageSizeBytes segmentCount ≤ chunkSize :=
  Nat.max_le.mpr ⟨nonzero, (ceilDiv_le_iff_le_mul pos).mpr covers⟩

theorem le_mul_evenChunkSize (pos : 0 < segmentCount) :
    messageSizeBytes ≤ segmentCount * evenChunkSize messageSizeBytes segmentCount :=
  (ceilDiv_le_iff_le_mul pos).mp (Nat.le_max_right _ _)

theorem evenChunkSize_self (messageSizeBytes : Nat) :
    evenChunkSize messageSizeBytes messageSizeBytes = 1 := by
  refine le_antisymm ?_ one_le_evenChunkSize
  cases messageSizeBytes with
  | zero => rfl
  | succ size => exact evenChunkSize_le (Nat.succ_pos size) le_rfl (Nat.mul_one _).ge

end

section

variable {codec : ServerCodec P} {env : ServerEnvelope (OutgoingMessage P)}
  {raw : List UInt8} {segmentCount next : Nat}

theorem evenChunkSize_lt_of_again (again : splitRound codec env raw segmentCount = .again next) :
    evenChunkSize raw.length next < evenChunkSize raw.length segmentCount := by
  rw [splitRound] at again
  dsimp only at again
  have nonzero : 1 ≤ evenChunkSize raw.length segmentCount := one_le_evenChunkSize
  generalize evenChunkSize raw.length segmentCount = chunkSize at again nonzero ⊢
  split at again
  · cases again
  split at again
  · cases again
  rename_i several
  cases again
  split
  · rw [evenChunkSize_self]
    omega
  rename_i changed
  refine lt_of_le_of_ne (evenChunkSize_le (Nat.succ_pos _) nonzero ?_) changed
  have covers : raw.length ≤ chunkSize * (raw.length ⌈/⌉ chunkSize) :=
    (ceilDiv_le_iff_le_mul nonzero).mp le_rfl
  rw [Nat.mul_comm] at covers
  exact covers.trans (Nat.mul_le_mul_right _ (Nat.le_succ _))

theorem splitLoop_isSome {fuel : Nat} (enough : evenChunkSize raw.length segmentCount ≤ fuel) :
    ∃ result, splitLoop codec env raw fuel segmentCount = some result := by
  induction fuel generalizing segmentCount with
  | zero => exact absurd enough (Nat.not_le.mpr one_le_evenChunkSize)
  | succ fuel ih =>
    rw [splitLoop]
    cases round : splitRound codec env raw segmentCount with
    | done result => exact ⟨result, rfl⟩
    | again next =>
      have smaller := evenChunkSize_lt_of_again round
      exact ih (by omega)

variable {fuel : Nat} {result : Except SplitError (List (ServerEnvelope (OutgoingMessage P)))}

theorem splitLoop_succ (ended : splitLoop codec env raw fuel segmentCount = some result) :
    splitLoop codec env raw (fuel + 1) segmentCount = some result := by
  induction fuel generalizing segmentCount with
  | zero => cases ended
  | succ fuel ih =>
    rw [splitLoop] at ended ⊢
    cases round : splitRound codec env raw segmentCount with
    | done result =>
      rw [round] at ended
      exact ended
    | again next =>
      rw [round] at ended
      exact ih ended

theorem splitLoop_of_le {more : Nat} (enough : fuel ≤ more)
    (ended : splitLoop codec env raw fuel segmentCount = some result) :
    splitLoop codec env raw more segmentCount = some result := by
  induction enough with
  | refl => exact ended
  | step _ ih => exact splitLoop_succ ih

end

def segmentBytes (segment : ServerEnvelope (OutgoingMessage P)) : Option (List UInt8) :=
  match segment.event with
  | .serverMessageChunk _ _ _ messageChunkBase64 => decodeBase64 messageChunkBase64
  | _ => none

/-- The segments are numbered, fit and carry the bytes of the message. -/
structure Segments (codec : ServerCodec P) (env : ServerEnvelope (OutgoingMessage P))
    (raw : List UInt8) (segments : List (ServerEnvelope (OutgoingMessage P))) : Prop where
  limited : segments.length ≤ remoteControlSegmentCountMax
  numbered : ∀ (index : Nat) (segment : ServerEnvelope (OutgoingMessage P)),
    segments[index]? = some segment → ∃ messageChunkBase64, segment = { env with
      event := .serverMessageChunk index segments.length raw.length messageChunkBase64 }
  fits : ∀ segment ∈ segments, ∃ size ≤ remoteControlSegmentMaxBytes,
    codec.serializedLen segment = .ok size
  decoded : ∃ parts, segments.mapM segmentBytes = some parts ∧ parts.flatten = raw

section

variable {codec : ServerCodec P} {env : ServerEnvelope (OutgoingMessage P)}
  {raw : List UInt8} {chunkSize : Nat}

def segment (env : ServerEnvelope (OutgoingMessage P)) (segmentCount messageSizeBytes : Nat)
    (entry : List UInt8 × Nat) : ServerEnvelope (OutgoingMessage P) :=
  { env with
    event := .serverMessageChunk entry.2 segmentCount messageSizeBytes (encodeBase64 entry.1) }

theorem chunkFits_iff {segId segmentCount messageSizeBytes : Nat} {chunk : List UInt8} :
    chunkFits codec env segId segmentCount messageSizeBytes chunk = true ↔
      segmentCount ≤ remoteControlSegmentCountMax ∧ ∃ size ≤ remoteControlSegmentMaxBytes,
        codec.serializedLen (segment env segmentCount messageSizeBytes (chunk, segId)) =
          .ok size := by
  rw [chunkFits, serializedChunkLen, buildChunkEnvelope]
  by_cases many : remoteControlSegmentCountMax < segmentCount
  · rw [if_pos many]
    exact iff_of_false Bool.false_ne_true fun fits => Nat.not_le.mpr many fits.1
  · rw [if_neg many]
    change (match (codec.serializedLen (segment env segmentCount messageSizeBytes
      (chunk, segId))).mapError SplitError.other with
        | .ok size => decide (size ≤ remoteControlSegmentMaxBytes)
        | .error _ => false) = true ↔ _
    cases codec.serializedLen (segment env segmentCount messageSizeBytes
      (chunk, segId)) with
    | error cause => simp [Except.mapError]
    | ok size => simp [Except.mapError, Nat.not_lt.mp many]

theorem buildSegments_eq (few : raw.length ⌈/⌉ chunkSize ≤ remoteControlSegmentCountMax) :
    buildSegments env raw chunkSize = .ok ((chunks chunkSize raw).zipIdx.map
      (segment env (raw.length ⌈/⌉ chunkSize) raw.length)) := by
  have built : ∀ ent : List UInt8 × Nat,
      buildChunkEnvelope env ent.2 (raw.length ⌈/⌉ chunkSize) raw.length ent.1 =
        pure (segment env (raw.length ⌈/⌉ chunkSize) raw.length ent) :=
    fun ent => if_neg (Nat.not_lt.mpr few)
  rw [buildSegments, funext built, mapM_pure]
  rfl

theorem segmentBytes_comp_segment (segmentCount messageSizeBytes : Nat) :
    segmentBytes ∘ segment env segmentCount messageSizeBytes = fun ent => pure ent.1 :=
  funext fun ent => decodeBase64_encodeBase64 ent.1

theorem segments_of_segmentsFit (ne : raw ≠ []) (pos : 0 < chunkSize)
    (fit : segmentsFit codec env raw chunkSize = true) :
    ∃ segments, buildSegments env raw chunkSize = .ok segments ∧ segments ≠ [] ∧
      Segments codec env raw segments := by
  have count := length_chunks chunkSize raw
  have some_chunk : chunks chunkSize raw ≠ [] := by
    intro none
    have whole := flatten_chunks pos raw
    rw [none] at whole
    exact ne whole.symm
  have fits : ∀ ent ∈ (chunks chunkSize raw).zipIdx, _ := fun ent mem =>
    chunkFits_iff.mp (List.all_eq_true.mp fit ent mem)
  obtain ⟨fst, mem⟩ := exists_mem_of_ne_nil _
    (mt zipIdx_eq_nil_iff.mp some_chunk)
  have few := (fits fst mem).1
  refine ⟨_, buildSegments_eq few, by simpa using some_chunk, ⟨?_, ?_, ?_, ?_⟩⟩
  · rw [length_map, length_zipIdx, count]
    exact few
  · intro idx hit here
    rw [getElem?_map, getElem?_zipIdx] at here
    obtain ⟨ent, located, rfl⟩ := Option.map_eq_some_iff.mp here
    obtain ⟨chunk, -, rfl⟩ := Option.map_eq_some_iff.mp located
    refine ⟨encodeBase64 chunk, ?_⟩
    rw [length_map, length_zipIdx, count, segment, Nat.zero_add]
  · intro hit mem
    obtain ⟨ent, here, rfl⟩ := List.mem_map.mp mem
    exact (fits ent here).2
  · refine ⟨chunks chunkSize raw, ?_, flatten_chunks pos raw⟩
    rw [mapM_map, segmentBytes_comp_segment, mapM_pure]
    exact congrArg some (zipIdx_map_fst 0 _)

end

section

variable {codec : ServerCodec P} {env : ServerEnvelope (OutgoingMessage P)}
  {raw : List UInt8} {segmentCount fuel : Nat}
  {segments : List (ServerEnvelope (OutgoingMessage P))}

theorem splitRound_segments (ne : raw ≠ [])
    (ended : splitRound codec env raw segmentCount = .done (.ok segments))
    (sent : segments ≠ []) : Segments codec env raw segments := by
  rw [splitRound] at ended
  dsimp only at ended
  split at ended
  · rename_i fit
    obtain ⟨built, eq, -, holds⟩ := segments_of_segmentsFit ne one_le_evenChunkSize fit
    rw [eq] at ended
    cases ended
    exact holds
  split at ended
  · cases ended
    exact absurd rfl sent
  · cases ended

theorem splitLoop_segments (ne : raw ≠ [])
    (ended : splitLoop codec env raw fuel segmentCount = some (.ok segments))
    (sent : segments ≠ []) : Segments codec env raw segments := by
  induction fuel generalizing segmentCount with
  | zero => cases ended
  | succ fuel ih =>
    rw [splitLoop] at ended
    cases round : splitRound codec env raw segmentCount with
    | done result =>
      rw [round] at ended
      cases ended
      exact splitRound_segments ne round sent
    | again next =>
      rw [round] at ended
      exact ih ended

theorem splitMessage_segments (ne : raw ≠ [])
    (ended : splitMessage codec env fuel raw = some (.ok segments)) (sent : segments ≠ []) :
    Segments codec env raw segments := by
  rw [splitMessage] at ended
  split at ended
  · cases ended
    exact absurd rfl sent
  dsimp only at ended
  split at ended
  · cases ended
  split at ended
  · cases ended
    exact absurd rfl sent
  · exact splitLoop_segments ne ended sent

theorem splitMessage_ends (codec : ServerCodec P) (env : ServerEnvelope (OutgoingMessage P))
    (raw : List UInt8) :
    ∃ result enough, ∀ fuel ≥ enough, splitMessage codec env fuel raw = some result := by
  obtain ⟨result, ended⟩ := @splitLoop_isSome _ codec env raw
    (startingSegmentCount raw.length) _ le_rfl
  by_cases large : remoteControlReassembledMaxBytes < raw.length
  · exact ⟨.ok [], 0, fun fuel _ => if_pos large⟩
  simp only [splitMessage, if_neg large]
  cases serializedChunkLen codec env 0 (min (max raw.length 1) remoteControlSegmentCountMax)
      raw.length (raw.take 1) with
  | error err => exact ⟨.error err, 0, fun fuel _ => rfl⟩
  | ok size =>
    by_cases wide : remoteControlSegmentMaxBytes < size
    · exact ⟨.ok [], 0, fun fuel _ => if_pos wide⟩
    refine ⟨result, evenChunkSize raw.length (startingSegmentCount raw.length),
      fun fuel enough => ?_⟩
    exact (if_neg wide).trans (splitLoop_of_le enough ended)

theorem split_message {msg : OutgoingMessage P} {size : Nat}
    (server : env.event = .serverMessage msg)
    (large : codec.serializedLen env = .ok size) (exceeds : remoteControlSegmentMaxBytes < size)
    (serialized : codec.toVec msg = .ok raw) (fuel : Nat) :
    splitServerEnvelopeForTransport codec env fuel = splitMessage codec env fuel raw := by
  simp [splitServerEnvelopeForTransport, server, large, if_neg (Nat.not_le.mpr exceeds), serialized]

theorem split_cases (codec : ServerCodec P) (env : ServerEnvelope (OutgoingMessage P)) :
    (∃ result, (∀ fuel, splitServerEnvelopeForTransport codec env fuel = some result) ∧
        ∀ segments, result = .ok segments → segments.length = 1) ∨
      ∃ msg raw, env.event = .serverMessage msg ∧ codec.toVec msg = .ok raw ∧
        ∀ fuel, splitServerEnvelopeForTransport codec env fuel =
          splitMessage codec env fuel raw := by
  have one : ∀ passed segments : List (ServerEnvelope (OutgoingMessage P)), passed.length = 1 →
      (.ok passed : Except SplitError _) = .ok segments → segments.length = 1 := by
    rintro passed segments single ⟨⟩
    exact single
  have failed : ∀ (err : SplitError) (segments : List (ServerEnvelope (OutgoingMessage P))),
      .error err = (.ok segments : Except SplitError _) → segments.length = 1 := by
    rintro err segments ⟨⟩
  cases server : env.event with
  | serverMessage msg =>
    cases len : codec.serializedLen env with
    | error err =>
      simp only [splitServerEnvelopeForTransport, server, len]
      cases msg with
      | response id result => exact .inl ⟨_, fun _ => rfl, fun segments => one _ segments rfl⟩
      | request _ | appServerNotification _ | error _ _ =>
        exact .inl ⟨_, fun _ => rfl, failed _⟩
    | ok size =>
      by_cases small : size ≤ remoteControlSegmentMaxBytes
      · simp only [splitServerEnvelopeForTransport, server, len, if_pos small]
        exact .inl ⟨_, fun _ => rfl, fun segments => one _ segments rfl⟩
      cases serialized : codec.toVec msg with
      | error err =>
        simp only [splitServerEnvelopeForTransport, server, len, if_neg small, serialized]
        exact .inl ⟨_, fun _ => rfl, failed _⟩
      | ok raw =>
        exact .inr ⟨msg, raw, rfl, serialized,
          split_message server len (Nat.not_le.mp small) serialized⟩
  | serverMessageChunk _ _ _ _ | ack | pong _ =>
    simp only [splitServerEnvelopeForTransport, server]
    exact .inl ⟨_, fun _ => rfl, fun segments => one _ segments rfl⟩

end

/-- The search ends because every round has smaller chunks. -/
theorem splitServerEnvelopeForTransport_lossless (codec : ServerCodec P)
    (env : ServerEnvelope (OutgoingMessage P)) :
    (∀ raw segmentCount next, splitRound codec env raw segmentCount = .again next →
        evenChunkSize raw.length next < evenChunkSize raw.length segmentCount) ∧
      (∃ result enough, ∀ fuel ≥ enough,
        splitServerEnvelopeForTransport codec env fuel = some result) ∧
      ∀ fuel segments, splitServerEnvelopeForTransport codec env fuel = some (.ok segments) →
          1 < segments.length → ∃ message raw, env.event = .serverMessage message ∧
              codec.toVec message = .ok raw ∧ Segments codec env raw segments := by
  refine ⟨fun raw segmentCount next => evenChunkSize_lt_of_again, ?_, ?_⟩
  · rcases split_cases codec env with ⟨result, ended, -⟩ | ⟨message, raw, -, -, searched⟩
    · exact ⟨result, 0, fun fuel _ => ended fuel⟩
    obtain ⟨result, enough, ended⟩ := splitMessage_ends codec env raw
    exact ⟨result, enough, fun fuel more => (searched fuel).trans (ended fuel more)⟩
  intro fuel segments ended several
  rcases split_cases codec env with ⟨result, always, single⟩ |
    ⟨message, raw, server, serialized, searched⟩
  · have passed : result = .ok segments := Option.some.inj ((always fuel).symm.trans ended)
    have length := single segments passed
    omega
  have ne : raw ≠ [] := by
    rintro rfl
    exact codec.toVec_ne_nil serialized
  refine ⟨message, raw, server, serialized,
    splitMessage_segments ne ((searched fuel).symm.trans ended) ?_⟩
  rintro rfl
  exact absurd several (Nat.not_lt_zero 1)

def Shrinks (messageSizeBytes first last : Nat) : Prop :=
  first ≤ last ∧ ∀ count, first ≤ count → count < last →
    evenChunkSize messageSizeBytes (count + 1) < evenChunkSize messageSizeBytes count

/-- The chunk sizes that the search comes to. -/
def Tried (messageSizeBytes chunkSize : Nat) : Prop :=
  chunkSize = 1 ∨ ∃ count, Shrinks messageSizeBytes (startingSegmentCount messageSizeBytes) count ∧
    chunkSize = evenChunkSize messageSizeBytes count

theorem Shrinks.refl (messageSizeBytes count : Nat) : Shrinks messageSizeBytes count count :=
  ⟨le_rfl, fun _ above below => absurd above (Nat.not_le.mpr below)⟩

variable {messageSizeBytes chunkSize count clientIdLength room : Nat}

theorem shrinks_iff {fst last : Nat} : Shrinks messageSizeBytes fst last ↔ last = fst ∨
      evenChunkSize messageSizeBytes (fst + 1) < evenChunkSize messageSizeBytes fst ∧
        Shrinks messageSizeBytes (fst + 1) last := by
  constructor
  · rintro ⟨ord, smaller⟩
    rcases ord.eq_or_lt with rfl | pre
    · exact .inl rfl
    exact .inr ⟨smaller fst le_rfl pre, pre, fun count above =>
      smaller count (Nat.le_of_succ_le above)⟩
  rintro (rfl | ⟨next, ord, smaller⟩)
  · exact Shrinks.refl _ _
  refine ⟨Nat.le_of_succ_le ord, fun count above below => ?_⟩
  rcases above.eq_or_lt with rfl | after
  · exact next
  · exact smaller count after below

def Exact (messageSizeBytes count : Nat) : Prop :=
  0 < count ∧ (evenChunkSize messageSizeBytes count ≠ 1 →
    messageSizeBytes ⌈/⌉ evenChunkSize messageSizeBytes count = count)

theorem ceilDiv_eq (pos : 0 < chunkSize) (covers : messageSizeBytes ≤ chunkSize * (count + 1))
    (short : chunkSize * count < messageSizeBytes) :
    messageSizeBytes ⌈/⌉ chunkSize = count + 1 := by
  refine le_antisymm ((ceilDiv_le_iff_le_mul pos).mpr covers) ?_
  by_contra fewer
  have enough := (ceilDiv_le_iff_le_mul pos).mp (Nat.lt_succ_iff.mp (Nat.not_le.mp fewer))
  omega

theorem exact_two (messageSizeBytes : Nat) : Exact messageSizeBytes 2 := by
  refine ⟨Nat.two_pos, fun several => ?_⟩
  have one := @one_le_evenChunkSize messageSizeBytes 2
  have large : 2 < messageSizeBytes := by
    by_contra small
    have single := evenChunkSize_le Nat.two_pos le_rfl (show messageSizeBytes ≤ 2 * 1 by omega)
    omega
  have half : evenChunkSize messageSizeBytes 2 ≤ messageSizeBytes - 1 :=
    evenChunkSize_le Nat.two_pos (by omega) (by omega)
  refine ceilDiv_eq one ?_ (by omega)
  rw [Nat.mul_comm]
  exact le_mul_evenChunkSize Nat.two_pos

theorem exact_ceilDiv {target : Nat} (pos : 0 < target) (ne : 0 < messageSizeBytes) :
    Exact messageSizeBytes (messageSizeBytes ⌈/⌉ target) := by
  have covers := (ceilDiv_le_iff_le_mul pos).mp (le_refl (messageSizeBytes ⌈/⌉ target))
  obtain ⟨count, eq⟩ : ∃ count, messageSizeBytes ⌈/⌉ target = count + 1 := by
    refine Nat.exists_eq_add_one_of_ne_zero fun zero => ?_
    rw [zero] at covers
    omega
  have short : target * count < messageSizeBytes := by
    by_contra fewer
    have enough := (ceilDiv_le_iff_le_mul pos).mpr (Nat.not_lt.mp fewer)
    omega
  rw [eq] at covers ⊢
  have le : evenChunkSize messageSizeBytes (count + 1) ≤ target :=
    evenChunkSize_le (Nat.succ_pos count) pos (covers.trans_eq (Nat.mul_comm _ _))
  refine ⟨Nat.succ_pos count, fun _ => ceilDiv_eq one_le_evenChunkSize ?_ ?_⟩
  · rw [Nat.mul_comm]
    exact le_mul_evenChunkSize (Nat.succ_pos count)
  · exact lt_of_le_of_lt (Nat.mul_le_mul_right count le) short

theorem exact_startingSegmentCount (ne : 0 < messageSizeBytes) :
    Exact messageSizeBytes (startingSegmentCount messageSizeBytes) := by
  rw [startingSegmentCount]
  rcases le_total 2 (messageSizeBytes ⌈/⌉ remoteControlSegmentTargetBytes) with many | few
  · rw [max_eq_right many]
    exact exact_ceilDiv (by decide) ne
  rw [max_eq_left few]
  exact exact_two messageSizeBytes

theorem Exact.succ (holds : Exact messageSizeBytes count)
    (smaller : evenChunkSize messageSizeBytes (count + 1) < evenChunkSize messageSizeBytes count) :
    Exact messageSizeBytes (count + 1) := by
  refine ⟨Nat.succ_pos count, fun _ => ceilDiv_eq one_le_evenChunkSize ?_ ?_⟩
  · rw [Nat.mul_comm]
    exact le_mul_evenChunkSize (Nat.succ_pos count)
  by_contra covers
  rw [Nat.not_lt, Nat.mul_comm] at covers
  exact Nat.not_lt.mpr (evenChunkSize_le holds.1 one_le_evenChunkSize covers) smaller

section

variable {codec : ServerCodec P} {envelope : ServerEnvelope (OutgoingMessage P)}
  {raw : List UInt8} {segmentCount : Nat}

def Sends (res : Option (Except SplitError (List (ServerEnvelope (OutgoingMessage P))))) : Prop :=
  ∃ segs, res = some (.ok segs) ∧ segs ≠ []

theorem sends_splitLoop_succ : (∃ fuel, Sends (splitLoop codec envelope raw fuel segmentCount)) ↔
    ∃ fuel, Sends (splitLoop codec envelope raw (fuel + 1) segmentCount) := by
  constructor
  · rintro ⟨fuel, sent⟩
    cases fuel with
    | zero => obtain ⟨segs, ⟨⟩, -⟩ := sent
    | succ fuel => exact ⟨fuel, sent⟩
  rintro ⟨fuel, sent⟩
  exact ⟨fuel + 1, sent⟩

theorem sends_splitLoop_done {res : Except SplitError (List (ServerEnvelope (OutgoingMessage P)))}
    (round : splitRound codec envelope raw segmentCount = .done res) :
    (∃ fuel, Sends (splitLoop codec envelope raw fuel segmentCount)) ↔ Sends (some res) := by
  rw [sends_splitLoop_succ]
  simp only [splitLoop, round, exists_const]

theorem sends_splitLoop_again {next : Nat}
    (round : splitRound codec envelope raw segmentCount = .again next) :
    (∃ fuel, Sends (splitLoop codec envelope raw fuel segmentCount)) ↔
      ∃ fuel, Sends (splitLoop codec envelope raw fuel next) := by
  rw [sends_splitLoop_succ]
  simp only [splitLoop, round]

theorem not_sends_nil : ¬Sends (P := P) (some (.ok [])) := by
  rintro ⟨segs, ⟨⟩, sent⟩
  exact sent rfl

theorem sends_buildSegments (ne : raw ≠ []) (pos : 0 < chunkSize)
    (fit : segmentsFit codec envelope raw chunkSize = true) :
    Sends (some (buildSegments envelope raw chunkSize)) := by
  obtain ⟨segs, built, sent, -⟩ := segments_of_segmentsFit ne pos fit
  exact ⟨segs, congrArg some built, sent⟩

theorem sends_splitLoop_single (ne : raw ≠ [])
    (single : evenChunkSize raw.length segmentCount = 1) :
    (∃ fuel, Sends (splitLoop codec envelope raw fuel segmentCount)) ↔
      segmentsFit codec envelope raw 1 = true := by
  have round : splitRound codec envelope raw segmentCount =
      if segmentsFit codec envelope raw 1 = true then .done (buildSegments envelope raw 1)
      else .done (.ok []) := by
    simp [splitRound, single]
  by_cases fit : segmentsFit codec envelope raw 1 = true
  · rw [if_pos fit] at round
    exact iff_of_true ((sends_splitLoop_done round).mpr
      (sends_buildSegments ne Nat.one_pos fit)) fit
  rw [if_neg fit] at round
  exact iff_of_false (mt (sends_splitLoop_done round).mp not_sends_nil) fit

/-- Single bytes fit, or a size up to the first chunk that makes no difference. -/
theorem sends_splitLoop_iff (ne : raw ≠ []) (cnt : Exact raw.length segmentCount) :
    (∃ fuel, Sends (splitLoop codec envelope raw fuel segmentCount)) ↔
      segmentsFit codec envelope raw 1 = true ∨ ∃ count, Shrinks raw.length segmentCount count ∧
          segmentsFit codec envelope raw (evenChunkSize raw.length count) = true := by
  induction measure : evenChunkSize raw.length segmentCount using Nat.strong_induction_on
    generalizing segmentCount with
  | _ chunkSize ih =>
    by_cases fit : segmentsFit codec envelope raw chunkSize = true
    · have round : splitRound codec envelope raw segmentCount =
          .done (buildSegments envelope raw chunkSize) := by
        simp [splitRound, measure, if_pos fit]
      refine iff_of_true ((sends_splitLoop_done round).mpr ?_)
        (.inr ⟨segmentCount, Shrinks.refl _ _, measure ▸ fit⟩)
      exact sends_buildSegments ne (measure ▸ one_le_evenChunkSize) fit
    -- The size itself does not fit, so only later counts are left.
    have later : (∃ count, Shrinks raw.length segmentCount count ∧
          segmentsFit codec envelope raw (evenChunkSize raw.length count) = true) ↔
        evenChunkSize raw.length (segmentCount + 1) < chunkSize ∧
          ∃ count, Shrinks raw.length (segmentCount + 1) count ∧
            segmentsFit codec envelope raw (evenChunkSize raw.length count) = true := by
      constructor
      · rintro ⟨count, shrinks, fits⟩
        rcases shrinks_iff.mp shrinks with rfl | ⟨smaller, tl⟩
        · rw [measure] at fits
          exact absurd fits fit
        · exact ⟨measure ▸ smaller, count, tl, fits⟩
      rintro ⟨smaller, count, tl, fits⟩
      exact ⟨count, shrinks_iff.mpr (.inr ⟨measure.symm ▸ smaller, tl⟩), fits⟩
    rw [later]
    by_cases single : chunkSize = 1
    · have one : ¬evenChunkSize raw.length (segmentCount + 1) < chunkSize := by
        rw [single]
        exact Nat.not_lt.mpr one_le_evenChunkSize
      rw [sends_splitLoop_single ne (measure.trans single)]
      simp [one]
    have count : raw.length ⌈/⌉ chunkSize = segmentCount := by
      rw [← measure]
      exact cnt.2 (measure.symm ▸ single)
    have round : splitRound codec envelope raw segmentCount = .again
        (if evenChunkSize raw.length (segmentCount + 1) = chunkSize then raw.length
          else segmentCount + 1) := by
      simp [splitRound, measure, if_neg fit, if_neg single, count]
    rw [sends_splitLoop_again round]
    have descends := evenChunkSize_lt_of_again round
    by_cases eq : evenChunkSize raw.length (segmentCount + 1) = chunkSize
    · rw [if_pos eq, sends_splitLoop_single ne (evenChunkSize_self _)]
      simp [eq]
    rw [if_neg eq] at descends ⊢
    rw [measure] at descends
    rw [ih _ descends (cnt.succ (measure.symm ▸ descends)) rfl]
    simp [descends]

def probeFits (codec : ServerCodec P) (envelope : ServerEnvelope (OutgoingMessage P))
    (raw : List UInt8) : Bool :=
  chunkFits codec envelope 0 (min (max raw.length 1) remoteControlSegmentCountMax) raw.length
    (raw.take 1)

theorem sends_splitMessage_iff (ne : raw ≠ [])
    (le : raw.length ≤ remoteControlReassembledMaxBytes) :
    (∃ fuel, Sends (splitMessage codec envelope fuel raw)) ↔
      probeFits codec envelope raw = true ∧ ∃ chunkSize, Tried raw.length chunkSize ∧
        segmentsFit codec envelope raw chunkSize = true := by
  have searched : (∃ fuel, Sends (splitLoop codec envelope raw fuel
        (startingSegmentCount raw.length))) ↔
      ∃ chunkSize, Tried raw.length chunkSize ∧
        segmentsFit codec envelope raw chunkSize = true := by
    rw [sends_splitLoop_iff ne
      (exact_startingSegmentCount (length_pos_iff.mpr ne))]
    constructor
    · rintro (single | ⟨count, shrinks, fits⟩)
      · exact ⟨1, .inl rfl, single⟩
      · exact ⟨_, .inr ⟨count, shrinks, rfl⟩, fits⟩
    rintro ⟨chunkSize, rfl | ⟨count, shrinks, rfl⟩, fits⟩
    · exact .inl fits
    · exact .inr ⟨count, shrinks, fits⟩
  rw [← searched]
  simp only [splitMessage, if_neg (Nat.not_lt.mpr le), probeFits, chunkFits]
  cases serializedChunkLen codec envelope 0 (min (max raw.length 1) remoteControlSegmentCountMax)
      raw.length (raw.take 1) with
  | error err =>
    refine iff_of_false ?_ (fun probed => Bool.false_ne_true probed.1)
    rintro ⟨fuel, segs, ⟨⟩, -⟩
  | ok size =>
    dsimp only
    by_cases wide : remoteControlSegmentMaxBytes < size
    · simp only [if_pos wide, decide_eq_true_iff, Nat.not_le.mpr wide, false_and, iff_false]
      rintro ⟨fuel, sent⟩
      exact not_sends_nil sent
    · simp [if_neg wide, Nat.not_lt.mp wide]

/-- The message can be sent in chunks of this size. -/
structure Admissible (codec : ServerCodec P) (envelope : ServerEnvelope (OutgoingMessage P))
    (raw : List UInt8) (chunkSize : Nat) : Prop where
  positive : 0 < chunkSize
  few : raw.length ⌈/⌉ chunkSize ≤ remoteControlSegmentCountMax
  fits : ∀ entry ∈ (chunks chunkSize raw).zipIdx, ∃ size ≤ remoteControlSegmentMaxBytes,
    codec.serializedLen (segment envelope (raw.length ⌈/⌉ chunkSize) raw.length entry) = .ok size

end

/-- The first byte fits and some split that the search tries can be sent. -/
theorem splitServerEnvelopeForTransport_complete_iff (codec : ServerCodec P)
    (envelope : ServerEnvelope (OutgoingMessage P)) {message : OutgoingMessage P} {raw : List UInt8}
    {size : Nat} (server : envelope.event = .serverMessage message)
    (serialized : codec.toVec message = .ok raw)
    (bounded : raw.length ≤ remoteControlReassembledMaxBytes)
    (large : codec.serializedLen envelope = .ok size)
    (exceeds : remoteControlSegmentMaxBytes < size) :
    ((∃ chunkSize, Admissible codec envelope raw chunkSize) →
        ∃ fuel segs, splitServerEnvelopeForTransport codec envelope fuel = some (.ok segs) ∧
          segs ≠ []) ↔
      ∀ chunkSize, Admissible codec envelope raw chunkSize →
        probeFits codec envelope raw = true ∧ ∃ tried, Tried raw.length tried ∧
          segmentsFit codec envelope raw tried = true := by
  have nonempty : raw ≠ [] := by
    rintro rfl
    exact codec.toVec_ne_nil serialized
  have sends := @sends_splitMessage_iff _ codec envelope raw nonempty bounded
  have searched := fun fuel => split_message server large exceeds serialized fuel
  simp only [searched]
  change (_ → ∃ fuel, Sends (splitMessage codec envelope fuel raw)) ↔ _
  rw [sends, forall_exists_index]

def decimal (number : Nat) : Text := Nat.toDigits 10 number

def requestIdJson : RequestId → Text
  | .integer value => if value < 0 then '-' :: decimal value.natAbs else decimal value.natAbs
  | .string value => "\"" ++ value ++ "\""

def messageJson : OutgoingMessage Text → Text
  | .request payload | .appServerNotification payload => '\x7b' :: payload ++ "\x7d"
  | .response id res =>
    '\x7b' :: "\"id\":" ++ requestIdJson id ++ ",\"result\":" ++ res ++
      "\x7d"
  | .error id error =>
    '\x7b' :: "\"error\":\x7b\"code\":" ++ requestIdJson (.integer error.code) ++
      ",\"message\":\"" ++ error.message ++ "\"\x7d,\"id\":" ++ requestIdJson id ++
      "\x7d"

variable (segmentId segmentCount messageSizeBytes : Nat)

def chunkJson (messageChunkBase64 : Text) : Text :=
  "\"type\":\"server_message_chunk\",\"segment_id\":" ++ decimal segmentId ++
    ",\"segment_count\":" ++ decimal segmentCount ++
    ",\"message_size_bytes\":" ++ decimal messageSizeBytes ++
    ",\"message_chunk_base64\":\"" ++ messageChunkBase64 ++ "\""

def eventJson : ServerEvent (OutgoingMessage Text) → Text
  | .serverMessage message =>
    "\"type\":\"server_message\",\"message\":" ++ messageJson message
  | .serverMessageChunk segmentId segmentCount messageSizeBytes messageChunkBase64 =>
    chunkJson segmentId segmentCount messageSizeBytes messageChunkBase64
  | .ack => "\"type\":\"ack\""
  | .pong .active => "\"type\":\"pong\",\"status\":\"active\""
  | .pong .unknown => "\"type\":\"pong\",\"status\":\"unknown\""

variable (envelope : ServerEnvelope (OutgoingMessage Text))

def envelopeJson : Text :=
  "\x7b" ++ eventJson envelope.event ++ ",\"client_id\":\"" ++ envelope.clientId ++
    "\",\"stream_id\":\"" ++ envelope.streamId ++ "\",\"seq_id\":" ++
    decimal envelope.seqId ++ "\x7d"

def jsonCodec : ServerCodec Text where
  serializedLen envelope := .ok (envelopeJson envelope).length
  toVec message := .ok ((messageJson message).map fun character => .ofNat character.toNat)
  toVec_ne_nil := by
    intro message empty
    have none := map_eq_nil_iff.mp (Except.ok.inj empty)
    cases message <;> cases none

def shortResponse : OutgoingMessage Text :=
  .response (.integer 1) ("\"" ++ List.replicate 100 'x' ++ "\"")

def crowdedEnvelope (clientIdLength : Nat) : ServerEnvelope (OutgoingMessage Text) :=
  ⟨.serverMessage shortResponse, List.replicate clientIdLength 'c', "s", 1⟩

def shortRaw : List UInt8 := (messageJson shortResponse).map fun character => .ofNat character.toNat

theorem length_shortRaw : shortRaw.length = 120 := by decide +kernel

theorem length_envelopeJson :
    (envelopeJson envelope).length = (eventJson envelope.event).length + envelope.clientId.length +
      envelope.streamId.length + (decimal envelope.seqId).length + 42 := by
  rw [envelopeJson]
  repeat rw [length_append]
  change 1 + _ + 14 + _ + 15 + _ + 11 + _ + 1 = _
  omega

theorem length_chunkJson (txt : Text) :
    (chunkJson segmentId segmentCount messageSizeBytes txt).length =
      (decimal segmentId).length + (decimal segmentCount).length +
        (decimal messageSizeBytes).length + txt.length + 108 := by
  have fst : "\"type\":\"server_message_chunk\",\"segment_id\":".toList.length = 43 := by
    decide +kernel
  have snd : ",\"segment_count\":".toList.length = 17 := by decide +kernel
  have third : ",\"message_size_bytes\":".toList.length = 22 := by decide +kernel
  have fourth : ",\"message_chunk_base64\":\"".toList.length = 25 := by decide +kernel
  have last : "\"".toList.length = 1 := by decide +kernel
  unfold chunkJson
  simp only [length_append, fst, snd, third, fourth, last]
  omega

theorem length_envelopeJson_segment (clientIdLength segmentCount : Nat) (ent : List UInt8 × Nat) :
    (envelopeJson (segment (crowdedEnvelope clientIdLength) segmentCount 120 ent)).length =
      clientIdLength + 155 + (decimal ent.2).length + (decimal segmentCount).length +
        (encodeBase64 ent.1).length := by
  have size : (decimal 120).length = 3 := by decide +kernel
  have seq : (decimal 1).length = 1 := by decide +kernel
  rw [length_envelopeJson]
  change (chunkJson ent.2 segmentCount 120 (encodeBase64 ent.1)).length +
    (List.replicate clientIdLength 'c').length + 1 + (decimal 1).length + 42 = _
  rw [length_chunkJson, size, seq, length_replicate]
  omega

theorem serializedLen_crowdedEnvelope (clientIdLength : Nat) :
    jsonCodec.serializedLen (crowdedEnvelope clientIdLength) = .ok (clientIdLength + 198) := by
  have ev : (eventJson (.serverMessage shortResponse)).length = 154 := by decide +kernel
  have seq : (decimal 1).length = 1 := by decide +kernel
  refine congrArg Except.ok ?_
  rw [length_envelopeJson]
  change (eventJson (.serverMessage shortResponse)).length +
    (List.replicate clientIdLength 'c').length + 1 + (decimal 1).length + 42 = _
  rw [ev, seq, length_replicate]
  omega

def fitsRoom (room chunkSize : Nat) : Bool :=
  decide (120 ⌈/⌉ chunkSize ≤ remoteControlSegmentCountMax) &&
    (chunks chunkSize shortRaw).zipIdx.all fun entry =>
      decide ((decimal entry.2).length + (decimal (120 ⌈/⌉ chunkSize)).length +
        (encodeBase64 entry.1).length ≤ room)

theorem admissible_crowdedEnvelope
    (total : clientIdLength + 155 + room = remoteControlSegmentMaxBytes) (pos : 0 < chunkSize)
    (fits : fitsRoom room chunkSize = true) :
    Admissible jsonCodec (crowdedEnvelope clientIdLength) shortRaw chunkSize := by
  obtain ⟨few, narrow⟩ := Bool.and_eq_true_iff.mp fits
  refine ⟨pos, ?_, fun ent mem => ?_⟩
  · rw [length_shortRaw]
    exact of_decide_eq_true few
  have within := of_decide_eq_true (List.all_eq_true.mp narrow ent mem)
  rw [length_shortRaw]
  refine ⟨_, ?_, rfl⟩
  rw [length_envelopeJson_segment]
  omega

theorem Admissible.segmentsFit {codec : ServerCodec P}
    {envelope : ServerEnvelope (OutgoingMessage P)} {raw : List UInt8}
    (admissible : Admissible codec envelope raw chunkSize) :
    segmentsFit codec envelope raw chunkSize = true :=
  List.all_eq_true.mpr fun ent mem =>
    chunkFits_iff.mpr ⟨admissible.few, admissible.fits ent mem⟩

theorem not_segmentsFit_crowdedEnvelope
    (total : clientIdLength + 155 + room = remoteControlSegmentMaxBytes)
    (few : 120 ⌈/⌉ chunkSize ≤ remoteControlSegmentCountMax)
    (tight : fitsRoom room chunkSize = false) :
    segmentsFit jsonCodec (crowdedEnvelope clientIdLength) shortRaw chunkSize ≠ true := by
  intro fit
  refine Bool.false_ne_true (tight.symm.trans (Bool.and_eq_true_iff.mpr
    ⟨decide_eq_true few, List.all_eq_true.mpr fun ent mem => decide_eq_true ?_⟩))
  obtain ⟨-, size, le, length⟩ := chunkFits_iff.mp (List.all_eq_true.mp fit ent mem)
  rw [length_shortRaw] at length
  have measured := (length_envelopeJson_segment clientIdLength _ ent).symm.trans
    (Except.ok.inj length)
  omega

/-- A split into ten bytes each is found. -/
theorem splitServerEnvelopeForTransport_complete_tenBytes :
    Admissible jsonCodec (crowdedEnvelope 153425) shortRaw 10 ∧ ∃ fuel segs,
        splitServerEnvelopeForTransport jsonCodec (crowdedEnvelope 153425) fuel =
          some (.ok segs) ∧ segs ≠ [] := by
  have admissible : Admissible jsonCodec (crowdedEnvelope 153425) shortRaw 10 :=
    admissible_crowdedEnvelope (show 153425 + 155 + 20 = _ by decide) (by decide)
      (by decide +kernel)
  have shrinks : Shrinks 120 (startingSegmentCount 120) 12 := by
    refine ⟨by decide, fun count above below => ?_⟩
    have all : ∀ count ∈ List.range 12, 2 ≤ count →
        evenChunkSize 120 (count + 1) < evenChunkSize 120 count := by decide
    exact all count (mem_range.mpr below) above
  have probe : probeFits jsonCodec (crowdedEnvelope 153425) shortRaw = true := by
    rw [probeFits, length_shortRaw]
    refine chunkFits_iff.mpr ⟨by decide, _, ?_, rfl⟩
    rw [length_envelopeJson_segment]
    decide +kernel
  refine ⟨admissible, (splitServerEnvelopeForTransport_complete_iff jsonCodec
    (crowdedEnvelope 153425) rfl rfl ?_ (serializedLen_crowdedEnvelope _) (by decide)).mpr
      (fun chunkSize _ => ⟨probe, 10, ?_, admissible.segmentsFit⟩) ⟨10, admissible⟩⟩
  · change shortRaw.length ≤ _
    rw [length_shortRaw]
    decide
  change Tried shortRaw.length 10
  rw [length_shortRaw]
  exact .inr ⟨12, shrinks, rfl⟩

/-- Three bytes each can be sent to this client, but the search goes from ten bytes to one. -/
theorem splitServerEnvelopeForTransport_drops_threeBytes :
    (∃ size, jsonCodec.serializedLen (crowdedEnvelope 153436) = .ok size ∧
        remoteControlSegmentMaxBytes < size) ∧
      Admissible jsonCodec (crowdedEnvelope 153436) shortRaw 3 ∧
      ¬∃ fuel segs, splitServerEnvelopeForTransport jsonCodec (crowdedEnvelope 153436) fuel =
          some (.ok segs) ∧ segs ≠ [] := by
  have total : 153436 + 155 + 9 = remoteControlSegmentMaxBytes := by decide
  refine ⟨⟨_, serializedLen_crowdedEnvelope _, by decide⟩,
    admissible_crowdedEnvelope total (by decide) (by decide +kernel), ?_⟩
  have nonempty : shortRaw ≠ [] := by
    intro empty
    exact absurd length_shortRaw (by rw [empty]; decide)
  have bounded : shortRaw.length ≤ remoteControlReassembledMaxBytes := by
    rw [length_shortRaw]
    decide
  have searched := fun fuel => @split_message _ jsonCodec (crowdedEnvelope 153436) shortRaw _ _ rfl
    (serializedLen_crowdedEnvelope _) (by decide) rfl fuel
  simp only [searched]
  change ¬∃ fuel, Sends (splitMessage jsonCodec (crowdedEnvelope 153436) fuel shortRaw)
  rw [sends_splitMessage_iff nonempty bounded]
  rintro ⟨-, chunkSize, tried, fit⟩
  rw [length_shortRaw] at tried
  rcases tried with rfl | ⟨count, ⟨above, shrinks⟩, rfl⟩
  · exact not_segmentsFit_crowdedEnvelope total (by decide) (by decide +kernel) fit
  · have below : count < 13 := by
      by_contra late
      exact absurd (shrinks 12 (by decide) (by omega)) (by decide)
    have all : ∀ count ∈ List.range 13, 2 ≤ count →
        120 ⌈/⌉ evenChunkSize 120 count ≤ remoteControlSegmentCountMax ∧
          fitsRoom 9 (evenChunkSize 120 count) = false := by decide +kernel
    obtain ⟨few, tight⟩ := all count (mem_range.mpr below) above
    exact not_segmentsFit_crowdedEnvelope total few tight fit

end Codex.RemoteControl
