import Codex.Foundation.Splice
import Codex.NoiseRelay.OrderedCiphertext

/-!
# Exactly-once delivery on a relay stream

Messages are framed, cut into records, numbered and encrypted.
-/

namespace Codex.NoiseRelay

open List

/-- One direction of an encrypted channel. -/
structure NoiseTransport where
  encrypt : (nonce : Nat) → Bytes → Except Text Bytes
  decrypt : (nonce : Nat) → Bytes → Except Text Bytes
  decrypt_encrypt : ∀ nonce plaintext, nonce < maxSeq → plaintext.length ≤ noiseRecordPlaintextLen →
      ∃ ciphertext, encrypt nonce plaintext = .ok ciphertext ∧
        decrypt nonce ciphertext = .ok plaintext

variable (transport : NoiseTransport)

structure StreamWriter where
  nextSeq : Nat := 0
  sendNonce : Nat := 0
  sent : List RelayData := []

namespace StreamWriter

def takeNextSequence : EStateM RelayError StreamWriter Nat := do
  let writer ← getThe StreamWriter
  if writer.nextSeq < maxSeq then do
    set { writer with nextSeq := writer.nextSeq + 1 }
    pure writer.nextSeq
  else throwThe RelayError .sequenceExhausted

def encrypt (plaintext : Bytes) : EStateM RelayError StreamWriter Bytes := do
  let writer ← getThe StreamWriter
  match transport.encrypt writer.sendNonce plaintext with
  | .ok ciphertext => do
      set { writer with sendNonce := writer.sendNonce + 1 }
      pure ciphertext
  | .error cause => throwThe RelayError (.encryption cause)

def sendRecord (plaintextRecord : Bytes) : EStateM RelayError StreamWriter PUnit := do
  let seq ← takeNextSequence
  let ciphertext ← encrypt transport plaintextRecord
  modifyThe StreamWriter fun writer => { writer with sent := writer.sent ++ [⟨seq, ciphertext⟩] }

def sendMessage (msg : Bytes) : EStateM RelayError StreamWriter PUnit := do
  let frame ← liftExcept (frameMessage msg)
  (chunks noiseRecordPlaintextLen frame).forM (sendRecord transport)

def writerTask (messages : List Bytes) : EStateM RelayError StreamWriter PUnit :=
  messages.forM (sendMessage transport)

end StreamWriter

def sentRecords (plains : List Bytes) : List RelayData :=
  (finalState (plains.forM (StreamWriter.sendRecord transport) {})).sent

structure NoiseVirtualStream where
  inboundCiphertexts : OrderedCiphertextFrames := {}
  receiveNonce : Nat := 0
  inboundDecoder : MessageDecoder := {}
  incoming : List Bytes := []

namespace NoiseVirtualStream

def decrypt (ciphertext : Bytes) : EStateM RelayError NoiseVirtualStream Bytes := do
  let stream ← getThe NoiseVirtualStream
  match transport.decrypt stream.receiveNonce ciphertext with
  | .ok plaintext => do
      set { stream with receiveNonce := stream.receiveNonce + 1 }
      pure plaintext
  | .error cause => throwThe RelayError (.decryption cause)

def deliver (msg : Bytes) : EStateM RelayError NoiseVirtualStream PUnit :=
  modifyThe NoiseVirtualStream fun stream =>
    { stream with incoming := stream.incoming ++ [msg] }

def receiveCiphertext (ciphertext : Bytes) : EStateM RelayError NoiseVirtualStream PUnit := do
  let plaintext ← decrypt transport ciphertext
  let messages ← zoom inboundDecoder
    (fun decoder stream => { stream with inboundDecoder := decoder })
    (MessageDecoder.push plaintext)
  messages.forM deliver

def receiveData (data : RelayData) : EStateM RelayError NoiseVirtualStream PUnit := do
  let ciphertexts ← zoom inboundCiphertexts
    (fun frames stream => { stream with inboundCiphertexts := frames })
    (OrderedCiphertextFrames.push data.seq data.payload)
  ciphertexts.forM (receiveCiphertext transport)

end NoiseVirtualStream

structure Sends (plains : List Bytes) (writer : StreamWriter) : Prop where
  nextSeq : writer.nextSeq = writer.sent.length
  sendNonce : writer.sendNonce = writer.sent.length
  numbered : Numbered writer.sent
  decrypt : ∀ data ∈ writer.sent, ∃ plaintext, plains[data.seq]? = some plaintext ∧
    transport.decrypt data.seq data.payload = .ok plaintext

variable {transport} {plains messages : List Bytes}

theorem Numbered.snoc {sent : List RelayData} (numbered : Numbered sent)
    (room : sent.length < maxSeq) (payload : Bytes) :
    Numbered (sent ++ [⟨sent.length, payload⟩]) where
  seq idx data found := by
    rw [getElem?_append] at found
    split at found
    · exact numbered.seq idx data found
    rename_i late
    obtain ⟨ins, rfl⟩ := List.getElem?_eq_some_iff.mp found
    simp only [length_singleton] at ins
    simp only [getElem_singleton]
    omega
  length_le := by
    rw [length_append]
    exact room

theorem sends_empty (plains : List Bytes) : Sends transport plains {} where
  nextSeq := rfl
  sendNonce := rfl
  numbered := ⟨fun idx data hit => by simp at hit, Nat.zero_le _⟩
  decrypt data mem := by simp at mem

namespace StreamWriter

variable {writer : StreamWriter} {plaintext : Bytes}

theorem takeNextSequence_ok (room : writer.nextSeq < maxSeq) :
    takeNextSequence writer = .ok writer.nextSeq { writer with nextSeq := writer.nextSeq + 1 } := by
  change (if writer.nextSeq < maxSeq then _ else _ : EStateM RelayError StreamWriter Nat) writer = _
  rw [if_pos room]
  rfl

theorem takeNextSequence_error (full : ¬ writer.nextSeq < maxSeq) :
    takeNextSequence writer = .error .sequenceExhausted writer := by
  change (if writer.nextSeq < maxSeq then _ else _ : EStateM RelayError StreamWriter Nat) writer = _
  rw [if_neg full]
  rfl

theorem encrypt_ok {ciphertext : Bytes}
    (encrypted : transport.encrypt writer.sendNonce plaintext = .ok ciphertext) :
    encrypt transport plaintext writer =
      .ok ciphertext { writer with sendNonce := writer.sendNonce + 1 } := by
  change (match transport.encrypt writer.sendNonce plaintext with
    | .ok _ => _
    | .error _ => _ : EStateM RelayError StreamWriter Bytes) writer = _
  rw [encrypted]
  rfl

theorem sendRecord_sends {front back : List Bytes} (split : plains = front ++ plaintext :: back)
    (bounded : plaintext.length ≤ noiseRecordPlaintextLen) :
    Triple (fun writer => Sends transport plains writer ∧ writer.sent.length = front.length)
      (sendRecord transport plaintext)
      (fun _ writer => Sends transport plains writer ∧
        writer.sent.length = (front ++ [plaintext]).length)
      fun _ writer => Sends transport plains writer := by
  intro writer ⟨sends, cnt⟩
  refine (?_ : Triple (· = writer) _ _ _) writer rfl
  by_cases room : writer.nextSeq < maxSeq
  · have nonce : writer.sendNonce < maxSeq := by rwa [sends.sendNonce, ← sends.nextSeq]
    obtain ⟨ciphertext, encrypted, plain⟩ :=
      transport.decrypt_encrypt writer.sendNonce plaintext nonce bounded
    refine Triple.bind_ok (takeNextSequence_ok room) (Triple.bind_ok (encrypt_ok encrypted) ?_)
    refine Triple.modify fun st eq => ?_
    subst eq
    have num : writer.nextSeq = writer.sent.length := sends.nextSeq
    have nonce_eq : writer.sendNonce = writer.sent.length := sends.sendNonce
    refine ⟨⟨?_, ?_, ?_, fun data mem => ?_⟩, ?_⟩
    · simp [num]
    · simp [nonce_eq]
    · rw [num]
      exact sends.numbered.snoc (num ▸ room) ciphertext
    · rcases mem_append.mp mem with pre | new
      · exact sends.decrypt data pre
      obtain rfl := mem_singleton.mp new
      refine ⟨plaintext, ?_, ?_⟩
      · simp [num, cnt, split]
      · rwa [num, ← nonce_eq]
    · simp [cnt]
  · exact Triple.bind_error (takeNextSequence_error room) sends

end StreamWriter

theorem sends_finalState (bounded : ∀ plaintext ∈ plains,
      plaintext.length ≤ noiseRecordPlaintextLen) :
    Sends transport plains (finalState (plains.forM (StreamWriter.sendRecord transport) {})) := by
  have loop := Triple.forM_front
    (fun front writer => Sends transport plains writer ∧ writer.sent.length = front.length)
    fun front plaintext back split =>
      StreamWriter.sendRecord_sends split (bounded plaintext (by simp [split]))
  exact (loop.weaken fun _ _ reached => reached.1).finalState ⟨sends_empty plains, rfl⟩

def writerRecords (messages : List Bytes) : List Bytes :=
  messages.flatMap fun msg => chunks noiseRecordPlaintextLen (framed msg)

theorem writerTask_eq (sendable : ∀ msg ∈ messages, Sendable msg) :
    StreamWriter.writerTask transport messages =
      (writerRecords messages).forM (StreamWriter.sendRecord transport) := by
  induction messages with
  | nil => rfl
  | cons msg messages ih =>
    obtain ⟨fst, others⟩ := forall_mem_cons.mp sendable
    change (StreamWriter.sendMessage transport msg >>= fun _ =>
      StreamWriter.writerTask transport messages) = _
    rw [writerRecords, flatMap_cons, forM_append, ← writerRecords, ih others,
      StreamWriter.sendMessage, frameMessage_eq fst, liftExcept_ok_bind]

open MessageDecoder

namespace NoiseVirtualStream

structure Decodes (messages plains : List Bytes) (count : Nat) (stream : NoiseVirtualStream) :
    Prop where
  nonce : stream.receiveNonce = count
  stalls : stream.inboundDecoder.Stalls messages (plains.take count).flatten stream.incoming

variable {stream : NoiseVirtualStream} {ciphertext plaintext : Bytes}
  {sent arrived : List RelayData}

theorem decrypt_ok (plain : transport.decrypt stream.receiveNonce ciphertext = .ok plaintext) :
    decrypt transport ciphertext stream =
      .ok plaintext { stream with receiveNonce := stream.receiveNonce + 1 } := by
  change (match transport.decrypt stream.receiveNonce ciphertext with
    | .ok _ => _
    | .error _ => _ : EStateM RelayError NoiseVirtualStream Bytes) stream = _
  rw [plain]
  rfl

theorem forM_deliver (stream : NoiseVirtualStream) (done : List Bytes) :
    done.forM deliver stream =
      .ok ⟨⟩ { stream with incoming := stream.incoming ++ done } := by
  induction done generalizing stream with
  | nil =>
    rw [append_nil]
    rfl
  | cons msg done ih =>
    refine (ih { stream with incoming := stream.incoming ++ [msg] }).trans ?_
    rw [append_assoc]
    rfl

theorem receiveCiphertext_decodes (sendable : ∀ msg ∈ messages, Sendable msg)
    (bytes : plains.flatten = framedStream messages) {count : Nat}
    (known : plains[count]? = some plaintext) (bounded : plaintext.length ≤ noiseRecordPlaintextLen)
    (plain : transport.decrypt count ciphertext = .ok plaintext) (fs : OrderedCiphertextFrames) :
    Triple (fun stream => Decodes messages plains count stream ∧ stream.inboundCiphertexts = fs)
      (receiveCiphertext transport ciphertext)
      (fun _ stream => Decodes messages plains (count + 1) stream ∧ stream.inboundCiphertexts = fs)
      fun _ _ => False := by
  intro stream ⟨decodes, still⟩
  have next : (plains.take (count + 1)).flatten = (plains.take count).flatten ++ plaintext := by
    rw [take_add_one, known, flatten_append]
    simp
  have inStream : (plains.take count).flatten ++ plaintext <+: framedStream messages := by
    rw [← next, ← bytes]
    exact (List.take_prefix (count + 1) plains).flatten
  have got : Triple (· = { stream with receiveNonce := stream.receiveNonce + 1 })
      (zoom inboundDecoder (fun dec stream => { stream with inboundDecoder := dec })
        (push plaintext))
      (fun done after => ∃ dec : MessageDecoder,
        dec.Stalls messages (plains.take (count + 1)).flatten
          (stream.incoming ++ done) ∧
        after = { stream with receiveNonce := count + 1, inboundDecoder := dec })
      fun _ _ => False := by
    refine Triple.zoom fun st eq => ?_
    subst eq
    refine (push_stalls sendable bounded inStream).consequence
      (fun dec eq => eq ▸ decodes.stalls) (fun done dec stalls => ?_)
      fun _ _ never => never
    exact ⟨dec, next ▸ stalls, by rw [decodes.nonce]⟩
  refine Triple.bind_ok (decrypt_ok (decodes.nonce ▸ plain))
    (Triple.bind got fun done st reached => ?_) stream rfl
  obtain ⟨dec, stalls, rfl⟩ := reached
  rw [forM_deliver]
  exact ⟨⟨rfl, stalls⟩, still⟩

/-- The receiver has decoded the records before the first one that is missing. -/
def Receives (sent : List RelayData) (messages plains : List Bytes) (arrived : List RelayData)
    (stream : NoiseVirtualStream) : Prop :=
  ∃ released, stream.inboundCiphertexts.Waits sent arrived released ∧
    Decodes messages plains released.length stream

private theorem released_record {released front back : List Bytes} {fs : OrderedCiphertextFrames}
    (waits : fs.Waits sent arrived (released ++ (front ++ ciphertext :: back))) :
    ∃ data, sent[released.length + front.length]? = some data ∧ data.payload = ciphertext := by
  have taken := waits.merged.released
  rw [map_id, Nat.sub_zero] at taken
  have start : released ++ (front ++ ciphertext :: back) <+: sent.map RelayData.payload :=
    taken ▸ take_prefix fs.nextSeq _
  obtain ⟨tl, whole⟩ := start
  have hit : (sent.map RelayData.payload)[released.length + front.length]? = some ciphertext := by
    rw [← whole]
    simp
  rw [getElem?_map, Option.map_eq_some_iff] at hit
  exact hit

section

variable (sendable : ∀ msg ∈ messages, Sendable msg)
  (bytes : plains.flatten = framedStream messages)
  (bounded : ∀ plaintext ∈ plains, plaintext.length ≤ noiseRecordPlaintextLen)
  {writer : StreamWriter} (sends : Sends transport plains writer) {data : RelayData}

include sendable bytes bounded sends

theorem forM_receiveCiphertext_decodes {released ready : List Bytes} {fs : OrderedCiphertextFrames}
    (waits : fs.Waits writer.sent arrived (released ++ ready)) :
    Triple (fun stream => Decodes messages plains released.length stream ∧
        stream.inboundCiphertexts = fs) (ready.forM (receiveCiphertext transport))
      (fun _ stream => Decodes messages plains (released.length + ready.length) stream ∧
        stream.inboundCiphertexts = fs)
      fun _ _ => False := by
  refine Triple.forM_front
    (fun front stream => Decodes messages plains (released.length + front.length) stream ∧
      stream.inboundCiphertexts = fs) fun front ciphertext back split => ?_
  obtain ⟨record, hit, rfl⟩ := released_record (split ▸ waits)
  obtain ⟨plaintext, known, plain⟩ := sends.decrypt record (mem_of_getElem? hit)
  rw [sends.numbered.seq _ record hit] at known plain
  rw [length_append, length_singleton, ← Nat.add_assoc]
  exact receiveCiphertext_decodes sendable bytes known
    (bounded plaintext (mem_of_getElem? known)) plain fs

theorem receiveData_receives (mem : data ∈ writer.sent)
    (window : WithinWindow writer.sent (arrived ++ [data])) :
    Triple (Receives writer.sent messages plains arrived) (receiveData transport data)
      (fun _ => Receives writer.sent messages plains (arrived ++ [data]))
      fun _ _ => False := by
  intro stream ⟨released, waits, decodes⟩
  have reordered : Triple (· = stream)
      (zoom inboundCiphertexts (fun fs stream => { stream with inboundCiphertexts := fs })
        (OrderedCiphertextFrames.push data.seq data.payload))
      (fun ready after => ∃ fs : OrderedCiphertextFrames,
        fs.Waits writer.sent (arrived ++ [data]) (released ++ ready) ∧
        after = { stream with inboundCiphertexts := fs })
      fun _ _ => False := by
    refine Triple.zoom fun st eq => ?_
    subst eq
    refine (OrderedCiphertextFrames.push_waits sends.numbered mem window).consequence
      (fun fs eq => eq ▸ waits) (fun ready fs holds => ?_)
      fun _ _ never => never
    exact ⟨fs, holds, rfl⟩
  refine Triple.bind reordered (fun ready st reached => ?_) stream rfl
  obtain ⟨fs, waits, rfl⟩ := reached
  refine (forM_receiveCiphertext_decodes sendable bytes bounded sends waits).weaken
    (fun _ after reached => ?_) _ ⟨⟨decodes.nonce, decodes.stalls⟩, rfl⟩
  exact ⟨released ++ ready, reached.2 ▸ waits, by rw [length_append]; exact reached.1⟩

theorem forM_receiveData_receives {deliveries : List RelayData}
    (members : ∀ data ∈ deliveries, data ∈ writer.sent)
    (window : ∀ arrived, arrived <+: deliveries → WithinWindow writer.sent arrived) :
    Triple (Receives writer.sent messages plains []) (deliveries.forM (receiveData transport))
      (fun _ => Receives writer.sent messages plains deliveries) fun _ _ => False := by
  refine Triple.forM_front (Receives writer.sent messages plains)
    fun front data back split => ?_
  have start : front ++ [data] <+: deliveries := ⟨back, by rw [split, append_assoc]; rfl⟩
  exact receiveData_receives sendable bytes bounded sends (members data (by simp [split]))
    (window _ start)

end

theorem Receives.complete (receives : Receives sent messages plains arrived stream)
    (bytes : plains.flatten = framedStream messages) (members : ∀ data ∈ arrived, data ∈ sent)
    (all : ∀ idx < plains.length, ∃ data ∈ arrived, data.seq = idx) :
    stream.incoming = messages := by
  obtain ⟨released, waits, decodes⟩ := receives
  have taken := congrArg List.length waits.merged.released
  have ins := waits.merged.next_le
  rw [length_map, length_take] at taken
  have reached : plains.length ≤ released.length := by
    by_contra short
    obtain ⟨data, pre, num⟩ := all stream.inboundCiphertexts.nextSeq (by omega)
    have handled := (waits.arrived_iff data (members data pre)).mp pre
    rw [num, waits.next] at handled
    simp at handled
  have stalls := decodes.stalls
  rw [take_of_length_le reached, bytes] at stalls
  exact stalls.complete

end NoiseVirtualStream

/-- The plaintexts are the framed messages, cut into records of bounded length. -/
structure Cut (messages plains : List Bytes) : Prop where
  bytes : ∀ frames, messages.mapM frameMessage = .ok frames → plains.flatten = frames.flatten
  length_le : ∀ plaintext ∈ plains, plaintext.length ≤ noiseRecordPlaintextLen

/-- Records are reordered, repeated or missing, never too far ahead of a missing one. -/
structure Delivery (sent deliveries : List RelayData) : Prop where
  fromSender : ∀ data ∈ deliveries, data ∈ sent
  window : ∀ arrived, arrived <+: deliveries → WithinWindow sent arrived

theorem Cut.framedStream_eq (cut : Cut messages plains)
    (sendable : ∀ msg ∈ messages, Sendable msg) : plains.flatten = framedStream messages := by
  rw [cut.bytes _ (mapM_frameMessage sendable), framedStream, flatMap_def]

theorem cut_writerRecords (sendable : ∀ msg ∈ messages, Sendable msg) :
    Cut messages (writerRecords messages) where
  bytes fs framing := by
    rw [mapM_frameMessage sendable] at framing
    cases framing
    rw [writerRecords, ← flatMap_id, flatMap_assoc, flatMap_def]
    refine congrArg List.flatten (map_congr_left fun msg _ => ?_)
    rw [flatMap_id]
    exact flatten_chunks (by decide) (framed msg)
  length_le plaintext mem := by
    obtain ⟨msg, -, piece⟩ := mem_flatMap.mp mem
    exact length_le_of_mem_chunks piece

/-- A relay stream delivers messages exactly once and in order. -/
theorem delivers_exactlyOnce (transport : NoiseTransport) (messages : List Bytes)
    (sendable : ∀ msg ∈ messages, Sendable msg) :
    (∃ records, Cut messages records ∧
      (finalState (StreamWriter.writerTask transport messages {})).sent =
        sentRecords transport records) ∧
    (∀ plains deliveries, Cut messages plains → Delivery (sentRecords transport plains) deliveries →
        ∃ stream : NoiseVirtualStream,
          deliveries.forM (NoiseVirtualStream.receiveData transport) {} = .ok ⟨⟩ stream ∧
            stream.incoming <+: messages ∧
            ((∀ index < plains.length, ∃ data ∈ deliveries, data.seq = index) →
              stream.incoming = messages)) ∧
    ∀ record decoder decoder', MessageDecoder.push record decoder ≠
      .error .reassemblyBuffer decoder' := by
  refine ⟨⟨writerRecords messages, cut_writerRecords sendable, ?_⟩,
    fun plains deliveries cut delivery => ?_, push_ne_reassemblyBuffer⟩
  · rw [writerTask_eq sendable]
    rfl
  have bytes := cut.framedStream_eq sendable
  have start : NoiseVirtualStream.Receives (sentRecords transport plains) messages plains
      [] {} :=
    ⟨[], OrderedCiphertextFrames.waits_empty _, rfl, stalls_empty messages⟩
  have reached := NoiseVirtualStream.forM_receiveData_receives sendable bytes cut.length_le
    (sends_finalState cut.length_le) delivery.fromSender delivery.window {} start
  cases res : deliveries.forM (NoiseVirtualStream.receiveData transport) {} with
  | error failure after =>
    rw [res] at reached
    exact reached.elim
  | ok val stream =>
    rw [res] at reached
    have inOrder : stream.incoming <+: messages := by
      obtain ⟨released, -, decodes⟩ := reached
      exact decodes.stalls.inOrder
    exact ⟨stream, rfl, inOrder, reached.complete bytes delivery.fromSender⟩

def markingTransport : NoiseTransport where
  encrypt nonce plaintext := .ok (UInt8.ofNat nonce :: plaintext)
  decrypt nonce ciphertext :=
    match ciphertext with
    | [] => .error "transport ciphertext is too short"
    | mark :: plaintext =>
      if mark = UInt8.ofNat nonce then .ok plaintext else .error "decryption failed"
  decrypt_encrypt nonce plaintext _ _ := ⟨_, rfl, by simp⟩

/-- The second length is split between records; the last comes first, the first twice. -/
theorem delivers_exactlyOnce_reordered : ∃ stream : NoiseVirtualStream,
      [RelayData.mk 2 [2, 0, 1, 3], ⟨0, [0, 0, 0, 0]⟩, ⟨0, [0, 0, 0, 0]⟩,
          ⟨1, [1, 2, 1, 2, 0, 0]⟩].forM (NoiseVirtualStream.receiveData markingTransport) {} =
        .ok ⟨⟩ stream ∧ stream.incoming = [[1, 2], [3]] := by
  obtain ⟨-, delivers, -⟩ := delivers_exactlyOnce markingTransport [[1, 2], [3]] (by decide)
  have cut : Cut [[1, 2], [3]] [[0, 0, 0], [2, 1, 2, 0, 0], [0, 1, 3]] :=
    ⟨fun fs framing => by
      rw [mapM_frameMessage (by decide)] at framing
      rw [← Except.ok.inj framing]
      rfl, by decide⟩
  have delivery : Delivery
      (sentRecords markingTransport [[0, 0, 0], [2, 1, 2, 0, 0], [0, 1, 3]])
      [⟨2, [2, 0, 1, 3]⟩, ⟨0, [0, 0, 0, 0]⟩, ⟨0, [0, 0, 0, 0]⟩, ⟨1, [1, 2, 1, 2, 0, 0]⟩] := by
    refine ⟨by decide, fun arrived start => ?_⟩
    rw [← mem_inits] at start
    revert start
    revert arrived
    decide +kernel
  obtain ⟨stream, received, -, complete⟩ := delivers _ _ cut delivery
  exact ⟨stream, received, complete (by decide)⟩

end Codex.NoiseRelay
