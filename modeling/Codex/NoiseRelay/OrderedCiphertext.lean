import Codex.Foundation.Triple
import Codex.Foundation.Map
import Codex.Foundation.Text

/-!
# The reorder window of a relay stream

Records arrive through a relay that may reorder and duplicate them.
-/

namespace Codex.NoiseRelay

open List Option

/-! ## The reorder window -/

abbrev Bytes := List UInt8

structure RelayData where
  seq : Nat
  payload : Bytes
  deriving DecidableEq

inductive RelayError
  | reorderWindow
  | pendingCiphertext
  | sequenceExhausted
  | messageTooLong
  | recordTooLong
  | invalidLength
  | reassemblyBuffer
  | encryption (cause : Text)
  | decryption (cause : Text)
  deriving DecidableEq

def maxReorderDistance : Nat := 64
def maxPendingBytes : Nat := 1024 * 1024

def maxSeq : Nat := 2 ^ 32 - 1

structure OrderedCiphertextFrames where
  nextSeq : Nat := 0
  pending : Map Nat Bytes := ∅
  pendingBytes : Nat := 0

namespace OrderedCiphertextFrames

def keep (fs : OrderedCiphertextFrames) (seq : Nat) (payload : Bytes) : OrderedCiphertextFrames :=
  { fs with
    pending := fs.pending.insert seq payload
    pendingBytes := fs.pendingBytes + payload.length }

def drop (fs : OrderedCiphertextFrames) (seq : Nat) (payload : Bytes) : OrderedCiphertextFrames :=
  { fs with
    pending := fs.pending.erase seq
    pendingBytes := fs.pendingBytes - payload.length }

def advance : EStateM RelayError OrderedCiphertextFrames PUnit := do
  let fs ← getThe OrderedCiphertextFrames
  if fs.nextSeq < maxSeq then set { fs with nextSeq := fs.nextSeq + 1 }
  else throwThe RelayError .sequenceExhausted

def removeNext : EStateM RelayError OrderedCiphertextFrames (Option Bytes) := do
  let fs ← getThe OrderedCiphertextFrames
  match fs.pending.lookup fs.nextSeq with
  | none => pure none
  | some payload => do
      set (fs.drop fs.nextSeq payload)
      advance
      pure (some payload)

def push (seq : Nat) (payload : Bytes) :
    EStateM RelayError OrderedCiphertextFrames (List Bytes) := do
  let fs ← getThe OrderedCiphertextFrames
  if seq < fs.nextSeq ∨ (fs.pending.lookup seq).isSome then
    -- the first ciphertext of a number is kept, later copies are duplicates
    pure []
  else if fs.nextSeq < seq then
    if maxReorderDistance < seq - fs.nextSeq then throwThe RelayError .reorderWindow
    else if maxPendingBytes < fs.pendingBytes + payload.length then
      throwThe RelayError .pendingCiphertext
    else do
      set (fs.keep seq payload)
      pure []
  else do
    advance
    collect removeNext (fs.pending.keys.card + 1) [payload]

end OrderedCiphertextFrames

/-! ## Records of one sender -/

/-- No record is too far ahead of a missing one, in numbers or in bytes. -/
def WithinWindow (sent arrived : List RelayData) : Prop :=
  ∀ missing ∈ sent, missing ∉ arrived →
    (∀ data ∈ arrived, data.seq ≤ missing.seq + maxReorderDistance) ∧
      ∑ data ∈ arrived.toFinset.filter fun data : RelayData => missing.seq < data.seq,
        data.payload.length ≤ maxPendingBytes

instance (sent arrived : List RelayData) : Decidable (WithinWindow sent arrived) :=
  inferInstanceAs (Decidable (∀ missing ∈ sent, missing ∉ arrived → _ ∧ _))

structure Numbered (sent : List RelayData) : Prop where
  seq : ∀ (index : Nat) (data : RelayData), sent[index]? = some data → data.seq = index
  length_le : sent.length ≤ maxSeq

namespace OrderedCiphertextFrames

/-- The released ciphertexts are the start of the sent ones, and the others wait. -/
structure Merges (sent arrived : List RelayData) (released : List Bytes)
    (fs : OrderedCiphertextFrames) : Prop where
  merged : Merged id (sent.map RelayData.payload) 0 fs.nextSeq fs.pending released
  pendingBytes : fs.pendingBytes = fs.pending.total List.length
  arrived_iff : ∀ data ∈ sent, data ∈ arrived ↔
    data.seq < fs.nextSeq ∨ (fs.pending.lookup data.seq).isSome

structure Waits (sent arrived : List RelayData) (released : List Bytes)
    (fs : OrderedCiphertextFrames) : Prop extends Merges sent arrived released fs where
  next : fs.pending.lookup fs.nextSeq = none

variable {sent arrived : List RelayData} {data : RelayData} {released : List Bytes}
  {fs : OrderedCiphertextFrames} {seq : Nat} {payload : Bytes}

theorem waits_empty (sent : List RelayData) : Waits sent [] [] {} where
  merged := Merged.empty id _ 0
  pendingBytes := Map.total_empty.symm
  arrived_iff data _ := by simp
  next := by simp

end OrderedCiphertextFrames

namespace Numbered

variable {sent : List RelayData} {data other : RelayData}

theorem getElem? (nums : Numbered sent) (mem : data ∈ sent) : sent[data.seq]? = some data := by
  obtain ⟨idx, hit⟩ := mem_iff_getElem?.mp mem
  rwa [nums.seq idx data hit]

theorem seq_lt (nums : Numbered sent) (mem : data ∈ sent) : data.seq < sent.length :=
  (List.getElem?_eq_some_iff.mp (nums.getElem? mem)).1

theorem eq_of_seq_eq (nums : Numbered sent) (mem : data ∈ sent) (mem2 : other ∈ sent)
    (eq : data.seq = other.seq) : data = other := by
  have hit := nums.getElem? mem
  rw [eq, nums.getElem? mem2] at hit
  exact (some.inj hit).symm

theorem exists_seq (nums : Numbered sent) {seq : Nat} (ins : seq < sent.length) :
    ∃ data ∈ sent, data.seq = seq :=
  ⟨sent[seq], getElem_mem ins, nums.seq seq sent[seq] (getElem?_eq_getElem ins)⟩

end Numbered

namespace OrderedCiphertextFrames

variable {sent arrived : List RelayData} {data : RelayData} {released : List Bytes}
  {fs : OrderedCiphertextFrames} {seq : Nat} {payload : Bytes}

theorem Merges.pending_record (merges : Merges sent arrived released fs)
    (nums : Numbered sent) (hit : fs.pending.lookup seq = some payload) :
    fs.nextSeq ≤ seq ∧ RelayData.mk seq payload ∈ sent := by
  obtain ⟨late, known⟩ := merges.merged.pending seq payload hit
  rw [Nat.sub_zero, getElem?_map, map_eq_some_iff] at known
  obtain ⟨data, record, rfl⟩ := known
  obtain rfl := nums.seq seq data record
  exact ⟨late, mem_of_getElem? record⟩

theorem Waits.again (waits : Waits sent arrived released fs) (pre : data ∈ arrived) :
    Waits sent (arrived ++ [data]) released fs where
  merged := waits.merged
  pendingBytes := waits.pendingBytes
  arrived_iff other known := by
    rw [← waits.arrived_iff other known, mem_append, mem_singleton]
    exact ⟨fun either => either.elim id fun eq => eq ▸ pre, .inl⟩
  next := waits.next

theorem Waits.keep (waits : Waits sent arrived released fs) (nums : Numbered sent)
    (mem : data ∈ sent) (early : fs.nextSeq < data.seq)
    (absent : fs.pending.lookup data.seq = none) :
    Waits sent (arrived ++ [data]) released (fs.keep data.seq data.payload) where
  merged := waits.merged.insert early.le (by
    rw [Nat.sub_zero, getElem?_map, nums.getElem? mem]
    rfl)
  pendingBytes := by
    change fs.pendingBytes + data.payload.length = _
    rw [waits.pendingBytes, ← Map.total_insert absent]
    rfl
  arrived_iff other known := by
    rw [mem_append, mem_singleton, waits.arrived_iff other known]
    change _ ↔ other.seq < fs.nextSeq ∨
      (Finmap.lookup other.seq (Finmap.insert data.seq data.payload fs.pending)).isSome
    rw [Map.lookup_insert]
    split
    · rename_i eq
      simp [nums.eq_of_seq_eq known mem eq]
    rename_i different
    have other_ne : other ≠ data := fun eq => different (congrArg RelayData.seq eq)
    simp [other_ne]
  next := by
    change Finmap.lookup fs.nextSeq (Finmap.insert data.seq data.payload fs.pending) = none
    rw [Map.lookup_insert, if_neg early.ne, waits.next]

theorem Merges.pass (merges : Merges sent arrived released fs) (nums : Numbered sent)
    (mem : data ∈ sent) (want : data.seq = fs.nextSeq) {arrived' : List RelayData}
    (gains : ∀ other, other ∈ arrived' ↔ other ∈ arrived ∨ other = data) {bytes : Nat}
    (cnt : bytes = Map.total List.length (fs.pending.erase fs.nextSeq)) :
    Merges sent arrived' (released ++ [data.payload])
      ⟨fs.nextSeq + 1, fs.pending.erase fs.nextSeq, bytes⟩ where
  merged := merges.merged.pass (by
    rw [Nat.sub_zero, getElem?_map, ← want, nums.getElem? mem]
    rfl)
  pendingBytes := cnt
  arrived_iff other known := by
    rw [Map.lookup_erase, gains, merges.arrived_iff other known]
    split
    · rename_i eq
      have other_eq : other = data := nums.eq_of_seq_eq known mem (eq.trans want.symm)
      simp [other_eq, want]
    rename_i ne
    have other_ne : other ≠ data := fun eq => ne (eq ▸ want)
    have later : other.seq < fs.nextSeq + 1 ↔ other.seq < fs.nextSeq := by omega
    simp [other_ne, later]

theorem Waits.total_le (waits : Waits sent arrived released fs) (nums : Numbered sent) :
    fs.pending.total List.length ≤
      ∑ data ∈ arrived.toFinset.filter fun data : RelayData => fs.nextSeq < data.seq,
        data.payload.length := by
  let record (seq : Nat) : RelayData := ⟨seq, (fs.pending.lookup seq).getD []⟩
  have injective : Function.Injective record := fun _ _ eq => congrArg RelayData.seq eq
  refine Map.total_le_sum injective fun seq payload hit => ?_
  obtain ⟨late, known⟩ := waits.pending_record nums hit
  have record_eq : record seq = ⟨seq, payload⟩ := by simp [record, hit]
  have seq_ne : seq ≠ fs.nextSeq := by
    rintro rfl
    rw [waits.next] at hit
    cases hit
  have pre : RelayData.mk seq payload ∈ arrived :=
    (waits.arrived_iff _ known).mpr (.inr (by rw [hit]; rfl))
  rw [record_eq]
  refine ⟨Finset.mem_filter.mpr ⟨List.mem_toFinset.mpr pre, ?_⟩, rfl⟩
  change fs.nextSeq < seq
  omega

theorem advance_ok (fs : OrderedCiphertextFrames) (pre : fs.nextSeq < maxSeq)
    {post : PUnit → OrderedCiphertextFrames → Prop}
    {failed : RelayError → OrderedCiphertextFrames → Prop}
    (holds : post ⟨⟩ { fs with nextSeq := fs.nextSeq + 1 }) :
    Triple (· = fs) advance post failed := by
  refine Triple.read fun st eq => ?_
  rw [eq, if_pos pre]
  exact fun _ _ => holds

theorem removeNext_merges (nums : Numbered sent) (bound : Nat) :
    Triple (fun fs => Merges sent arrived released fs ∧ fs.pending.keys.card = bound)
      removeNext
      (fun res fs =>
        match res with
        | none => Waits sent arrived released fs
        | some payload => Merges sent arrived (released ++ [payload]) fs ∧
            fs.pending.keys.card < bound)
      fun _ _ => False := by
  refine Triple.read fun fs ⟨merges, cnt⟩ => ?_
  cases hit : fs.pending.lookup fs.nextSeq with
  | none => exact Triple.pure fun st eq => eq ▸ ⟨merges, hit⟩
  | some payload =>
    obtain ⟨-, known⟩ := merges.pending_record nums hit
    have pre : RelayData.mk fs.nextSeq payload ∈ arrived :=
      (merges.arrived_iff _ known).mpr (.inr (by rw [hit]; rfl))
    have ins : fs.nextSeq < maxSeq :=
      (nums.seq_lt known).trans_le nums.length_le
    have bytes : fs.pendingBytes - payload.length =
        Map.total List.length (fs.pending.erase fs.nextSeq) := by
      rw [merges.pendingBytes, ← Map.total_erase hit, Nat.add_sub_cancel]
    have gains : ∀ other, other ∈ arrived ↔ other ∈ arrived ∨ other = ⟨fs.nextSeq, payload⟩ :=
      fun other => ⟨.inl, fun either => either.elim id fun eq => eq ▸ pre⟩
    refine Triple.write (Triple.bind (advance_ok (fs.drop fs.nextSeq payload) ins ?_)
      fun _ => Triple.pure fun _ holds => holds)
    exact ⟨merges.pass nums known rfl gains bytes, cnt ▸ Map.card_keys_erase_lt hit⟩

theorem collect_removeNext_waits (nums : Numbered sent) (fuel : Nat) (xs : List Bytes) :
    Triple (fun fs => Merges sent arrived (released ++ xs) fs ∧ fs.pending.keys.card < fuel)
      (collect removeNext fuel xs)
      (fun ready => Waits sent arrived (released ++ ready)) fun _ _ => False := by
  refine @Triple.collect _ _ _ _ (fun xs => Merges sent arrived (released ++ xs)) _ _
    (fun fs => fs.pending.keys.card) (fun xs bound => ?_) fuel xs
  refine (removeNext_merges nums bound).weaken fun res fs reached => ?_
  cases res with
  | none => exact reached
  | some payload => exact ⟨append_assoc released xs [payload] ▸ reached.1, reached.2⟩

/-- A record that is not ahead of the window is accepted. -/
theorem push_waits (nums : Numbered sent) (mem : data ∈ sent)
    (window : WithinWindow sent (arrived ++ [data])) :
    Triple (Waits sent arrived released) (push data.seq data.payload)
      (fun ready => Waits sent (arrived ++ [data]) (released ++ ready)) fun _ _ => False := by
  refine Triple.read fun fs waits => ?_
  split
  · rename_i seen
    refine Triple.pure fun st eq => ?_
    rw [eq, append_nil]
    exact waits.again ((waits.arrived_iff data mem).mpr seen)
  rename_i unseen
  obtain ⟨late, absent⟩ := not_or.mp unseen
  rw [not_isSome_iff_eq_none] at absent
  split
  · rename_i early
    have kept := waits.keep nums mem early absent
    obtain ⟨missing, known, want⟩ :=
      nums.exists_seq (early.trans (nums.seq_lt mem))
    have notArrived : missing ∉ arrived ++ [data] := by
      rw [kept.arrived_iff missing known, want]
      exact not_or.mpr ⟨Nat.lt_irrefl _, not_isSome_iff_eq_none.mpr kept.next⟩
    obtain ⟨distance, bytes⟩ := window missing known notArrived
    have near := distance data (by simp)
    have total := kept.total_le nums
    rw [← kept.pendingBytes] at total
    change fs.pendingBytes + data.payload.length ≤ _ at total
    rw [want] at near bytes
    rw [if_neg (by omega), if_neg (Nat.not_lt.mpr (total.trans bytes))]
    refine Triple.write (Triple.pure fun st eq => ?_)
    rw [eq, append_nil]
    exact kept
  rename_i notEarly
  have want : data.seq = fs.nextSeq := by omega
  have ins : fs.nextSeq < maxSeq :=
    want ▸ (nums.seq_lt mem).trans_le nums.length_le
  have still : fs.pending.erase fs.nextSeq = fs.pending :=
    Map.erase_eq_self waits.next
  have gains : ∀ other, other ∈ arrived ++ [data] ↔ other ∈ arrived ∨ other = data := by simp
  have passed := waits.pass nums mem want gains (still ▸ waits.pendingBytes)
  rw [still] at passed
  refine Triple.bind (advance_ok fs ins ?_) fun _ =>
    collect_removeNext_waits nums _ [data.payload]
  exact ⟨passed, Nat.lt_succ_self _⟩

end OrderedCiphertextFrames

/-! ## Message framing -/

open Triple

def lengthPrefixBytes : Nat := 4
def maxNoiseJsonrpcMessageLen : Nat := 64 * 1024 * 1024
def noiseRecordPlaintextLen : Nat := 60 * 1024

def toBeBytes (number : Nat) : Bytes :=
  [UInt8.ofNat (number / 2 ^ 24), UInt8.ofNat (number / 2 ^ 16), UInt8.ofNat (number / 2 ^ 8),
    UInt8.ofNat number]

def fromBeBytes (bytes : Bytes) : Nat :=
  bytes.foldl (fun number byte => number * 2 ^ 8 + byte.toNat) 0

def messageLengthPrefix (messageLen : Nat) : Except RelayError Bytes :=
  if messageLen = 0 ∨ maxNoiseJsonrpcMessageLen < messageLen then .error .messageTooLong
  else .ok (toBeBytes messageLen)

def frameMessage (msg : Bytes) : Except RelayError Bytes := do
  let lengthPrefix ← messageLengthPrefix msg.length
  pure (lengthPrefix ++ msg)

structure MessageDecoder where
  buffered : Bytes := []

namespace MessageDecoder

def nextMessage : EStateM RelayError MessageDecoder (Option Bytes) := do
  let decoder ← getThe MessageDecoder
  if decoder.buffered.length < lengthPrefixBytes then pure none
  else
    let messageLen := fromBeBytes (decoder.buffered.take lengthPrefixBytes)
    -- a declared length is rejected before its payload arrives
    if messageLen = 0 ∨ maxNoiseJsonrpcMessageLen < messageLen then
      throwThe RelayError .invalidLength
    else if decoder.buffered.length < lengthPrefixBytes + messageLen then pure none
    else do
      let payload := decoder.buffered.drop lengthPrefixBytes
      set { decoder with buffered := payload.drop messageLen }
      pure (some (payload.take messageLen))

def push (plaintextRecord : Bytes) : EStateM RelayError MessageDecoder (List Bytes) := do
  if noiseRecordPlaintextLen < plaintextRecord.length then throwThe RelayError .recordTooLong
  else do
    let decoder ← getThe MessageDecoder
    let buffered := decoder.buffered ++ plaintextRecord
    set { decoder with buffered := buffered }
    let messages ← collect nextMessage (buffered.length + 1) []
    let decoder ← getThe MessageDecoder
    if lengthPrefixBytes + maxNoiseJsonrpcMessageLen < decoder.buffered.length then
      throwThe RelayError .reassemblyBuffer
    else pure messages

end MessageDecoder

theorem length_toBeBytes (num : Nat) : (toBeBytes num).length = lengthPrefixBytes := rfl

theorem fromBeBytes_toBeBytes {number : Nat} (small : number < 2 ^ 32) :
    fromBeBytes (toBeBytes number) = number := by
  simp only [fromBeBytes, toBeBytes, foldl_cons, foldl_nil, UInt8.toNat_ofNat']
  omega

def Sendable (msg : Bytes) : Prop :=
  1 ≤ msg.length ∧ msg.length ≤ maxNoiseJsonrpcMessageLen

instance (msg : Bytes) : Decidable (Sendable msg) :=
  inferInstanceAs (Decidable (_ ∧ _))

def framed (msg : Bytes) : Bytes := toBeBytes msg.length ++ msg

def framedStream (messages : List Bytes) : Bytes := messages.flatMap framed

theorem messageLengthPrefix_eq {len : Nat} (pos : 1 ≤ len) (le : len ≤ maxNoiseJsonrpcMessageLen) :
    messageLengthPrefix len = .ok (toBeBytes len) := by
  rw [messageLengthPrefix, if_neg (by omega)]

theorem frameMessage_eq {msg : Bytes} (sendable : Sendable msg) :
    frameMessage msg = .ok (framed msg) := by
  rw [frameMessage, messageLengthPrefix_eq sendable.1 sendable.2]
  rfl

theorem mapM_frameMessage {messages : List Bytes} (sendable : ∀ msg ∈ messages, Sendable msg) :
    messages.mapM frameMessage = .ok (messages.map framed) := by
  induction messages with
  | nil => rfl
  | cons msg messages ih =>
    obtain ⟨fst, others⟩ := forall_mem_cons.mp sendable
    rw [mapM_cons, frameMessage_eq fst, ih others]
    rfl

theorem length_framed (msg : Bytes) : (framed msg).length = lengthPrefixBytes + msg.length := by
  rw [framed, length_append, length_toBeBytes]

namespace MessageDecoder

/-- The first messages are returned, and the bytes after them held. -/
structure Assembles (messages : List Bytes) (fed : Bytes) (out : List Bytes)
    (decoder : MessageDecoder) : Prop where
  inOrder : out <+: messages
  bytes : framedStream out ++ decoder.buffered = fed

structure Stalls (messages : List Bytes) (fed : Bytes) (out : List Bytes)
    (decoder : MessageDecoder) : Prop extends Assembles messages fed out decoder where
  waits : ∀ msg rest, messages = out ++ msg :: rest →
    decoder.buffered.length < lengthPrefixBytes + msg.length

variable {messages out : List Bytes} {fed : Bytes} {decoder : MessageDecoder}

theorem stalls_empty (messages : List Bytes) : Stalls messages [] [] {} where
  inOrder := nil_prefix
  bytes := rfl
  waits msg tl _ := by
    change 0 < lengthPrefixBytes + msg.length
    exact Nat.add_pos_left (by decide) _

theorem Assembles.buffered_prefix (joins : Assembles messages fed out decoder)
    (inStream : fed <+: framedStream messages) {rest : List Bytes}
    (split : messages = out ++ rest) : decoder.buffered <+: framedStream rest := by
  rw [← joins.bytes, split, framedStream, framedStream, flatMap_append,
    prefix_append_right_inj] at inStream
  exact inStream

theorem Stalls.length_le (stalls : Stalls messages fed out decoder)
    (inStream : fed <+: framedStream messages) (sendable : ∀ msg ∈ messages, Sendable msg) :
    decoder.buffered.length ≤ lengthPrefixBytes + maxNoiseJsonrpcMessageLen := by
  obtain ⟨tl, split⟩ := stalls.inOrder
  cases tl with
  | nil =>
    have empty := stalls.buffered_prefix inStream split.symm
    rw [prefix_nil.mp empty]
    exact Nat.zero_le _
  | cons msg tl =>
    have short := stalls.waits msg tl split.symm
    have bounded := (sendable msg (by simp [← split])).2
    omega

theorem Stalls.complete (stalls : Stalls messages (framedStream messages) out decoder) :
    out = messages := by
  obtain ⟨tl, split⟩ := stalls.inOrder
  cases tl with
  | nil => rw [← split, append_nil]
  | cons msg tl =>
    have short := stalls.waits msg tl split.symm
    have lengths := congrArg List.length stalls.bytes
    rw [← split, framedStream, framedStream, flatMap_append, length_append,
      length_append, flatMap_cons, length_append, length_framed] at lengths
    omega

private theorem split_frame (msg tail : Bytes) :
    (framed msg ++ tail).take lengthPrefixBytes = toBeBytes msg.length ∧
      (framed msg ++ tail).drop lengthPrefixBytes = msg ++ tail := by
  rw [framed, append_assoc]
  exact ⟨rfl, rfl⟩

private theorem declared_length {msg tl buffered : Bytes} (sendable : Sendable msg)
    (start : buffered <+: framed msg ++ tl) (enough : lengthPrefixBytes ≤ buffered.length) :
    fromBeBytes (buffered.take lengthPrefixBytes) = msg.length := by
  obtain ⟨tail, split⟩ := start
  have fst : buffered.take lengthPrefixBytes = toBeBytes msg.length := by
    rw [← (split_frame msg tl).1, ← split, take_append_of_le_length enough]
  have bounded := sendable.2
  rw [fst, fromBeBytes_toBeBytes]
  exact bounded.trans_lt (by decide)

section

variable (sendable : ∀ msg ∈ messages, Sendable msg)
include sendable

theorem nextMessage_assembles (inStream : fed <+: framedStream messages) (bound : Nat) :
    Triple (fun decoder => Assembles messages fed out decoder ∧
        decoder.buffered.length = bound) nextMessage
      (fun res decoder =>
        match res with
        | none => Stalls messages fed out decoder
        | some msg => Assembles messages fed (out ++ [msg]) decoder ∧
            decoder.buffered.length < bound)
      fun _ _ => False := by
  refine read fun decoder ⟨joins, cnt⟩ => ?_
  obtain ⟨tl, split⟩ := joins.inOrder
  have start := joins.buffered_prefix inStream split.symm
  have stalls (waits : ∀ msg others, tl = msg :: others →
      decoder.buffered.length < lengthPrefixBytes + msg.length) :
      Stalls messages fed out decoder :=
    ⟨joins, fun msg others eq =>
      waits msg others (append_cancel_left (split.trans eq))⟩
  split
  · rename_i short
    refine Triple.pure fun st eq => eq ▸ stalls fun msg others _ => ?_
    omega
  rename_i long
  cases tl with
  | nil =>
    rw [prefix_nil.mp start] at long
    exact absurd (by decide) long
  | cons msg others =>
    have valid := sendable msg (by simp [← split])
    rw [framedStream, flatMap_cons] at start
    have declared := declared_length valid start (Nat.not_lt.mp long)
    dsimp only
    rw [declared, if_neg (by have := valid.1; have := valid.2; omega)]
    split
    · rename_i partly
      refine Triple.pure fun st eq => eq ▸ stalls fun _ _ eq => ?_
      obtain ⟨rfl, rfl⟩ := List.cons.inj eq
      exact partly
    rename_i whole
    have frame : framed msg <+: decoder.buffered :=
      prefix_of_prefix_length_le (prefix_append _ _) start (by
        rw [length_framed]
        exact Nat.not_lt.mp whole)
    obtain ⟨tail, held⟩ := frame
    rw [← held, (split_frame msg tail).2, take_left, drop_left]
    refine write (Triple.pure fun st eq => ?_)
    subst eq
    refine ⟨⟨⟨others, by rw [← split, append_assoc]; rfl⟩, ?_⟩, ?_⟩
    · rw [← joins.bytes, ← held, framedStream, framedStream, flatMap_append, append_assoc]
      simp
    rw [← cnt, ← held, length_append, length_framed]
    exact Nat.lt_add_of_pos_left (Nat.add_pos_left (by decide) _)

theorem collect_nextMessage_stalls
    (inStream : fed <+: framedStream messages) (fuel : Nat) (out xs : List Bytes) :
    Triple (fun decoder => Assembles messages fed (out ++ xs) decoder ∧
        decoder.buffered.length < fuel) (collect nextMessage fuel xs)
      (fun full => Stalls messages fed (out ++ full)) fun _ _ => False := by
  refine @Triple.collect _ _ _ _ (fun xs => Assembles messages fed (out ++ xs)) _ _
    (fun decoder => decoder.buffered.length) (fun xs bound => ?_) fuel xs
  refine (nextMessage_assembles sendable inStream bound).weaken fun res decoder reached => ?_
  cases res with
  | none => exact reached
  | some msg => exact ⟨append_assoc out xs [msg] ▸ reached.1, reached.2⟩

/-- The messages that a record completes continue the returned ones. -/
theorem push_stalls {record : Bytes} (le : record.length ≤ noiseRecordPlaintextLen)
    (inStream : fed ++ record <+: framedStream messages) :
    Triple (Stalls messages fed out) (push record)
      (fun full => Stalls messages (fed ++ record) (out ++ full))
      fun _ _ => False := by
  rw [push, if_neg (Nat.not_lt.mpr le)]
  refine read fun decoder stalls => write ?_
  have appended : Assembles messages (fed ++ record) (out ++ [])
      ⟨decoder.buffered ++ record⟩ :=
    ⟨by rw [append_nil]; exact stalls.inOrder,
      by rw [append_nil, ← stalls.bytes, append_assoc]⟩
  refine bind ((collect_nextMessage_stalls sendable inStream _ out []).narrow
    fun st eq => ?_) fun full => ?_
  · subst eq
    exact ⟨appended, Nat.lt_succ_self _⟩
  refine read fun decoder stalls => ?_
  rw [if_neg (Nat.not_lt.mpr (stalls.length_le inStream sendable))]
  exact Triple.pure fun st eq => eq ▸ stalls

end

private theorem nextMessage_bounded (bound : Nat) :
    Triple (fun decoder => decoder.buffered.length = bound) nextMessage
      (fun res decoder =>
        match res with
        | none => decoder.buffered.length < lengthPrefixBytes + maxNoiseJsonrpcMessageLen
        | some _ => decoder.buffered.length < bound)
      fun error _ => error = .invalidLength := by
  refine read fun decoder cnt => ?_
  split
  · rename_i short
    refine Triple.pure fun st eq => ?_
    subst eq
    exact Nat.lt_add_right _ short
  rename_i long
  dsimp only
  split
  · exact throw fun _ _ => rfl
  rename_i valid
  split
  · rename_i partly
    refine Triple.pure fun st eq => ?_
    subst eq
    have bounded := Nat.not_lt.mp (not_or.mp valid).2
    exact partly.trans_le (Nat.add_le_add_left bounded _)
  rename_i whole
  refine write (Triple.pure fun st eq => ?_)
  subst eq
  change (List.drop _ (List.drop _ decoder.buffered)).length < bound
  rw [length_drop, length_drop, ← cnt]
  have pos : 0 < lengthPrefixBytes := by decide
  omega

private theorem collect_nextMessage_bounded (fuel : Nat) (xs : List Bytes) :
    Triple (fun decoder => True ∧ decoder.buffered.length < fuel) (collect nextMessage fuel xs)
      (fun _ decoder =>
        decoder.buffered.length < lengthPrefixBytes + maxNoiseJsonrpcMessageLen)
      fun error _ => error = .invalidLength := by
  refine @Triple.collect _ MessageDecoder _ _ (fun _ _ => True) _ _
    (fun decoder => decoder.buffered.length) (fun _ bound => ?_) fuel xs
  refine (nextMessage_bounded bound).consequence (fun _ cnt => cnt.2)
    (fun res decoder reached => ?_) fun _ _ eq => eq
  cases res with
  | none => exact reached
  | some msg => exact ⟨trivial, reached⟩

theorem push_ne_reassemblyBuffer (record : Bytes) (decoder decoder' : MessageDecoder) :
    push record decoder ≠ .error .reassemblyBuffer decoder' := by
  have triple : Triple (fun _ => True) (push record) (fun _ _ => True)
      fun error _ => error ≠ .reassemblyBuffer := by
    unfold push
    split
    · exact throw fun _ _ => by simp
    refine read fun decoder _ => write ?_
    refine bind ((collect_nextMessage_bounded _ []).consequence
      (fun st eq => ⟨trivial, eq ▸ Nat.lt_succ_self _⟩) (fun _ _ le => le)
      fun error _ eq => by simp [eq]) fun full => ?_
    refine read fun decoder le => ?_
    rw [if_neg le.not_gt]
    exact Triple.pure fun _ _ => trivial
  intro failed
  have reached := triple decoder trivial
  rw [failed] at reached
  exact reached rfl

end MessageDecoder

/-! ## Arbitrary records -/

/-- The released ciphertexts, and the first accepted one of every number. -/
structure WindowLog where
  frames : OrderedCiphertextFrames := {}
  released : List Bytes := []
  accepted : Map Nat Bytes := ∅
  exhausted : Bool := false

def acceptFirst (data : RelayData) (accepted : Map Nat Bytes) : Map Nat Bytes :=
  if (accepted.lookup data.seq).isSome then accepted else accepted.insert data.seq data.payload

namespace WindowLog

def push (log : WindowLog) (data : RelayData) : WindowLog :=
  match OrderedCiphertextFrames.push data.seq data.payload log.frames with
  | .ok ready frames =>
    { log with
      frames
      released := log.released ++ ready
      accepted := acceptFirst data log.accepted }
  | .error error frames =>
    { log with frames, exhausted := log.exhausted || error = .sequenceExhausted }

def run (pushes : List RelayData) : WindowLog := pushes.foldl push {}

end WindowLog

namespace OrderedCiphertextFrames

structure Bounded (frames : OrderedCiphertextFrames) : Prop where
  window : ∀ seq payload, frames.pending.lookup seq = some payload →
    frames.nextSeq ≤ seq ∧ seq ≤ frames.nextSeq + maxReorderDistance
  counted : frames.pendingBytes = frames.pending.total List.length
  limited : frames.pendingBytes ≤ maxPendingBytes

/-- The first accepted ones before the next number are released, all others wait. -/
structure Releases (accepted : Map Nat Bytes) (released : List Bytes)
    (frames : OrderedCiphertextFrames) : Prop where
  length : released.length = frames.nextSeq
  first : ∀ seq payload, released[seq]? = some payload → accepted.lookup seq = some payload
  waiting : ∀ seq payload, frames.pending.lookup seq = some payload →
    accepted.lookup seq = some payload
  known : ∀ seq, (accepted.lookup seq).isSome → seq < frames.nextSeq ∨
    (frames.pending.lookup seq).isSome

variable {accepted : Map Nat Bytes} {released : List Bytes} {frames : OrderedCiphertextFrames}
  {data : RelayData} {seq : Nat} {payload : Bytes}

theorem bounded_empty : Bounded {} where
  window seq payload found := by simp at found
  counted := Map.total_empty.symm
  limited := Nat.zero_le _

theorem releases_empty : Releases ∅ [] {} where
  length := rfl
  first seq payload found := by simp at found
  waiting seq payload found := by simp at found
  known seq found := by simp at found

theorem Bounded.keep (bounded : Bounded frames) (late : frames.nextSeq ≤ seq)
    (near : seq ≤ frames.nextSeq + maxReorderDistance) (absent : frames.pending.lookup seq = none)
    (small : frames.pendingBytes + payload.length ≤ maxPendingBytes) :
    Bounded (frames.keep seq payload) where
  window y waiting found := by
    obtain ⟨rfl, -⟩ | ⟨-, found⟩ := Map.of_lookup_insert found
    · exact ⟨late, near⟩
    · exact bounded.window y waiting found
  counted := by
    change frames.pendingBytes + payload.length = _
    rw [bounded.counted, ← Map.total_insert absent]
    rfl
  limited := small

theorem Bounded.drop (bounded : Bounded frames) (found : frames.pending.lookup seq = some payload) :
    Bounded (frames.drop seq payload) where
  window y waiting found := bounded.window y waiting (Map.of_lookup_erase found).2
  counted := by
    change frames.pendingBytes - payload.length = _
    rw [bounded.counted, ← Map.total_erase found, Nat.add_sub_cancel]
    rfl
  limited := (Nat.sub_le _ _).trans bounded.limited

theorem Bounded.next (bounded : Bounded frames)
    (absent : frames.pending.lookup frames.nextSeq = none) :
    Bounded { frames with nextSeq := frames.nextSeq + 1 } where
  window seq payload found := by
    obtain ⟨late, near⟩ := bounded.window seq payload found
    have y : seq ≠ frames.nextSeq := by
      rintro rfl
      rw [absent] at found
      cases found
    change frames.nextSeq + 1 ≤ seq ∧ seq ≤ frames.nextSeq + 1 + maxReorderDistance
    omega
  counted := bounded.counted
  limited := bounded.limited

namespace Releases

section

variable (releases : Releases accepted released frames)
include releases

theorem lookup_eq_none (late : frames.nextSeq ≤ seq) (absent : frames.pending.lookup seq = none) :
    accepted.lookup seq = none := by
  by_contra some
  rcases releases.known seq (Option.isSome_iff_ne_none.mpr some) with early | waits
  · omega
  rw [absent] at waits
  cases waits

theorem again (seen : data.seq < frames.nextSeq ∨ (frames.pending.lookup data.seq).isSome) :
    acceptFirst data accepted = accepted := by
  refine if_pos ?_
  rcases seen with early | waits
  · have ins : data.seq < released.length := releases.length.symm ▸ early
    rw [releases.first data.seq _ (getElem?_eq_getElem ins)]
    rfl
  obtain ⟨payload, hit⟩ := Option.isSome_iff_exists.mp waits
  rw [releases.waiting data.seq payload hit]
  rfl

theorem acceptFirst_eq
    (late : frames.nextSeq ≤ data.seq) (absent : frames.pending.lookup data.seq = none) :
    acceptFirst data accepted = accepted.insert data.seq data.payload := by
  refine if_neg ?_
  rw [releases.lookup_eq_none late absent]
  exact Bool.false_ne_true

end

theorem keep (releases : Releases accepted released frames) (late : frames.nextSeq ≤ data.seq)
    (absent : frames.pending.lookup data.seq = none) :
    Releases (acceptFirst data accepted) released (frames.keep data.seq data.payload) := by
  rw [releases.acceptFirst_eq late absent]
  refine ⟨releases.length, fun seq payload hit => ?_, fun seq payload hit => ?_, fun seq hit => ?_⟩
  · have ins := (List.getElem?_eq_some_iff.mp hit).1
    rw [releases.length] at ins
    rw [Map.lookup_insert, if_neg (by omega)]
    exact releases.first seq payload hit
  · change Finmap.lookup seq (Finmap.insert data.seq data.payload frames.pending) = _ at hit
    rw [Map.lookup_insert] at hit ⊢
    split at hit
    · rename_i eq
      rw [if_pos eq, hit]
    rename_i y
    rw [if_neg y, releases.waiting seq payload hit]
  change _ ∨ (Finmap.lookup seq (Finmap.insert data.seq data.payload frames.pending)).isSome
  rw [Map.lookup_insert] at hit ⊢
  split
  · exact .inr rfl
  rename_i y
  rw [if_neg y] at hit
  exact releases.known seq hit

theorem pass {accepted' : Map Nat Bytes} (releases : Releases accepted released frames)
    (first : accepted'.lookup frames.nextSeq = some payload)
    (others : ∀ seq, seq ≠ frames.nextSeq → accepted'.lookup seq = accepted.lookup seq)
    {bytes : Nat} :
    Releases accepted' (released ++ [payload])
      ⟨frames.nextSeq + 1, frames.pending.erase frames.nextSeq, bytes⟩ where
  length := by rw [length_append, releases.length]; rfl
  first seq waiting found := by
    rw [getElem?_append] at found
    split at found
    · rename_i early
      rw [releases.length] at early
      rw [others seq early.ne, releases.first seq waiting found]
    rename_i late
    rw [releases.length] at late found
    obtain ⟨pos, eq⟩ := List.getElem?_eq_some_iff.mp found
    rw [length_singleton] at pos
    obtain rfl : seq = frames.nextSeq := by omega
    rw [first, ← eq]
    simp
  waiting seq waiting found := by
    obtain ⟨y, found⟩ := Map.of_lookup_erase found
    rw [others seq y, releases.waiting seq waiting found]
  known seq found := by
    rw [Map.lookup_erase]
    split
    · rename_i eq
      exact .inl (eq ▸ Nat.lt_succ_self _)
    rename_i y
    rw [others seq y] at found
    exact (releases.known seq found).imp_left Nat.lt_succ_of_lt

end Releases

variable {live : Prop}

structure Running (live : Prop) (accepted : Map Nat Bytes) (released : List Bytes)
    (frames : OrderedCiphertextFrames) : Prop extends Bounded frames where
  releases : live → Releases accepted released frames

structure Settled (live : Prop) (accepted : Map Nat Bytes) (released : List Bytes)
    (frames : OrderedCiphertextFrames) : Prop extends Running live accepted released frames where
  next : frames.pending.lookup frames.nextSeq = none

theorem advance_running (frames : OrderedCiphertextFrames)
    {post : PUnit → OrderedCiphertextFrames → Prop}
    {failed : RelayError → OrderedCiphertextFrames → Prop}
    (holds : post ⟨⟩ { frames with nextSeq := frames.nextSeq + 1 })
    (fails : failed .sequenceExhausted frames) : Triple (· = frames) advance post failed := by
  refine Triple.read fun st eq => ?_
  rw [eq]
  split
  · exact fun _ _ => holds
  · exact Triple.throw fun st eq => eq ▸ fails

theorem removeNext_running (bound : Nat) :
    Triple (fun frames => Running live accepted released frames ∧ frames.pending.keys.card = bound)
      removeNext
      (fun res frames =>
        match res with
        | none => Settled live accepted released frames
        | some payload => Running live accepted (released ++ [payload]) frames ∧
            frames.pending.keys.card < bound)
      fun error frames => error = .sequenceExhausted ∧ Bounded frames ∧
        frames.pending.lookup frames.nextSeq = none := by
  refine Triple.read fun frames ⟨running, cnt⟩ => ?_
  cases hit : frames.pending.lookup frames.nextSeq with
  | none => exact Triple.pure fun st eq => eq ▸ ⟨running, hit⟩
  | some payload =>
    have dropped := running.toBounded.drop hit
    have absent : (frames.drop frames.nextSeq payload).pending.lookup
        (frames.drop frames.nextSeq payload).nextSeq = none := by
      change Finmap.lookup frames.nextSeq (frames.pending.erase frames.nextSeq) = none
      rw [Map.lookup_erase, if_pos rfl]
    refine Triple.write (Triple.bind
      (advance_running (frames.drop frames.nextSeq payload) ?_ ⟨rfl, dropped, absent⟩)
      fun _ => Triple.pure fun _ holds => holds)
    refine ⟨⟨dropped.next absent, fun alive => ?_⟩, cnt ▸ Map.card_keys_erase_lt hit⟩
    have releases := running.releases alive
    exact releases.pass (releases.waiting _ _ hit) fun _ _ => rfl

theorem collect_running (fuel : Nat) (xs : List Bytes) :
    Triple (fun frames => Running live accepted (released ++ xs) frames ∧
        frames.pending.keys.card < fuel) (collect removeNext fuel xs)
      (fun ready => Settled live accepted (released ++ ready))
      fun error frames => error = .sequenceExhausted ∧ Bounded frames ∧
        frames.pending.lookup frames.nextSeq = none := by
  refine @Triple.collect _ _ _ _ (fun xs => Running live accepted (released ++ xs)) _ _
    (fun frames => frames.pending.keys.card) (fun xs bound => ?_) fuel xs
  refine (removeNext_running bound).weaken fun res frames reached => ?_
  cases res with
  | none => exact reached
  | some payload => exact ⟨append_assoc released xs [payload] ▸ reached.1, reached.2⟩

/-- Any record leaves a settled window settled. -/
theorem push_settled (data : RelayData) (pre : OrderedCiphertextFrames) :
    Triple (fun frames => frames = pre ∧ Settled live accepted released frames)
      (push data.seq data.payload)
      (fun ready => Settled live (acceptFirst data accepted) (released ++ ready))
      fun error frames => Bounded frames ∧ frames.pending.lookup frames.nextSeq = none ∧
        (error ≠ .sequenceExhausted → frames = pre) := by
  refine Triple.read fun frames ⟨isBefore, settled⟩ => ?_
  split
  · rename_i seen
    refine Triple.pure fun st eq => ?_
    rw [eq, append_nil]
    refine ⟨⟨settled.toBounded, fun alive => ?_⟩, settled.next⟩
    rw [(settled.releases alive).again seen]
    exact settled.releases alive
  rename_i unseen
  obtain ⟨late, absent⟩ := not_or.mp unseen
  rw [Option.not_isSome_iff_eq_none] at absent
  rw [Nat.not_lt] at late
  have same : ∀ error : RelayError, Bounded frames ∧
      frames.pending.lookup frames.nextSeq = none ∧
        (error ≠ .sequenceExhausted → frames = pre) := fun _ =>
    ⟨settled.toBounded, settled.next, fun _ => isBefore⟩
  split
  · rename_i early
    split
    · exact Triple.throw fun st eq => eq ▸ same _
    rename_i near
    split
    · exact Triple.throw fun st eq => eq ▸ same _
    rename_i small
    refine Triple.write (Triple.pure fun st eq => ?_)
    rw [eq, append_nil]
    refine ⟨⟨settled.toBounded.keep late (by omega) absent (by omega), fun alive =>
      (settled.releases alive).keep late absent⟩, ?_⟩
    change Finmap.lookup frames.nextSeq (Finmap.insert data.seq data.payload frames.pending) = none
    rw [Map.lookup_insert, if_neg early.ne, settled.next]
  rename_i notEarly
  have want : data.seq = frames.nextSeq := by omega
  have fails : ∀ (error : RelayError) after, error = .sequenceExhausted ∧ Bounded after ∧
      after.pending.lookup after.nextSeq = none →
        Bounded after ∧ after.pending.lookup after.nextSeq = none ∧
          (error ≠ .sequenceExhausted → after = pre) := fun error after ⟨eq, tl⟩ =>
    ⟨tl.1, tl.2, fun y => absurd eq y⟩
  refine Triple.bind (advance_running frames ?_ (same _)) fun _ =>
    (collect_running _ [data.payload]).weakenFailed fails
  refine ⟨⟨settled.toBounded.next settled.next, fun alive => ?_⟩, Nat.lt_succ_self _⟩
  have releases := settled.releases alive
  rw [releases.acceptFirst_eq late absent, want]
  have passed : Releases (accepted.insert frames.nextSeq data.payload)
      (released ++ [data.payload]) ⟨frames.nextSeq + 1,
        frames.pending.erase frames.nextSeq, frames.pendingBytes⟩ :=
    releases.pass (Finmap.lookup_insert _) fun seq y => by
      rw [Map.lookup_insert, if_neg y]
  rwa [Map.erase_eq_self settled.next] at passed

end OrderedCiphertextFrames

namespace WindowLog

open OrderedCiphertextFrames

theorem settled_run (pushes : List RelayData) :
    Settled ((run pushes).exhausted = false) (run pushes).accepted (run pushes).released
      (run pushes).frames := by
  induction pushes using reverseRecOn with
  | nil => exact ⟨⟨bounded_empty, fun _ => releases_empty⟩, by simp [run]⟩
  | append_singleton pushes data ih =>
    have reached := push_settled data (run pushes).frames (run pushes).frames
      ⟨rfl, ih⟩
    rw [run, foldl_append]
    change Settled ((push (run pushes) data).exhausted = false) (push (run pushes) data).accepted
      (push (run pushes) data).released (push (run pushes) data).frames
    rw [push]
    cases res : OrderedCiphertextFrames.push data.seq data.payload (run pushes).frames with
    | ok ready frames =>
      rw [res] at reached
      exact reached
    | error error frames =>
      rw [res] at reached
      obtain ⟨le, next, same⟩ := reached
      refine ⟨⟨le, fun alive => ?_⟩, next⟩
      obtain ⟨pre, y⟩ := Bool.or_eq_false_iff.mp alive
      rw [same (of_decide_eq_false y)]
      exact ih.releases pre

end WindowLog

/-- The waiting records are in the window and counted, and a rejected record changes nothing. -/
theorem window_sound (pushes : List RelayData) :
    (∀ seq payload, (WindowLog.run pushes).frames.pending.lookup seq = some payload →
        (WindowLog.run pushes).frames.nextSeq < seq ∧
          seq ≤ (WindowLog.run pushes).frames.nextSeq + maxReorderDistance) ∧
      (WindowLog.run pushes).frames.pendingBytes =
        (WindowLog.run pushes).frames.pending.total List.length ∧
      (WindowLog.run pushes).frames.pendingBytes ≤ maxPendingBytes ∧
      ((WindowLog.run pushes).exhausted = false →
        (WindowLog.run pushes).released.length = (WindowLog.run pushes).frames.nextSeq ∧
          ∀ seq < (WindowLog.run pushes).frames.nextSeq, (WindowLog.run pushes).released[seq]? =
              (WindowLog.run pushes).accepted.lookup seq) ∧
      ∀ seq payload error frames,
        OrderedCiphertextFrames.push seq payload (WindowLog.run pushes).frames =
            .error error frames →
          error = .reorderWindow ∨ error = .pendingCiphertext →
            frames = (WindowLog.run pushes).frames := by
  have settled := WindowLog.settled_run pushes
  refine ⟨fun seq payload hit => ?_, settled.counted, settled.limited, fun alive => ?_,
    fun seq payload error frames rejected known => ?_⟩
  · obtain ⟨late, near⟩ := settled.window seq payload hit
    refine ⟨lt_of_le_of_ne late ?_, near⟩
    rintro rfl
    rw [settled.next] at hit
    cases hit
  · have releases := settled.releases alive
    refine ⟨releases.length, fun seq early => ?_⟩
    rw [← releases.length] at early
    rw [getElem?_eq_getElem early, releases.first seq _ (getElem?_eq_getElem early)]
  have reached := OrderedCiphertextFrames.push_settled ⟨seq, payload⟩
    (WindowLog.run pushes).frames (WindowLog.run pushes).frames ⟨rfl, settled⟩
  rw [rejected] at reached
  refine reached.2.2 ?_
  rintro rfl
  rcases known with never | never <;> cases never

/-! ## Exhausted numbers -/

namespace WindowLog

open OrderedCiphertextFrames

def emptyRecords (count : Nat) : List RelayData := (List.range count).map fun seq => ⟨seq, []⟩

theorem run_concat (pushes : List RelayData) (data : RelayData) :
    run (pushes ++ [data]) = (run pushes).push data := by
  rw [run, foldl_append]
  rfl

variable {frames : OrderedCiphertextFrames} {payload : Bytes}

theorem advance_eq (ins : frames.nextSeq < maxSeq) :
    advance frames = .ok ⟨⟩ { frames with nextSeq := frames.nextSeq + 1 } := by
  change (if frames.nextSeq < maxSeq then _ else _ : EStateM _ _ _) frames = _
  rw [if_pos ins]
  rfl

theorem push_eq_collect
    (absent : frames.pending.lookup frames.nextSeq = none) (ins : frames.nextSeq < maxSeq)
    (payload : Bytes) :
    OrderedCiphertextFrames.push frames.nextSeq payload frames =
      collect removeNext (frames.pending.keys.card + 1) [payload]
        { frames with nextSeq := frames.nextSeq + 1 } := by
  change (if frames.nextSeq < frames.nextSeq ∨ _ then _
    else if frames.nextSeq < frames.nextSeq then _
    else _ : EStateM _ _ _) frames = _
  rw [if_neg (by simp [absent]), if_neg (Nat.lt_irrefl _)]
  change EStateM.bind advance _ frames = _
  rw [EStateM.bind, advance_eq ins]

theorem push_next {log : WindowLog} {next : Nat} (frames : log.frames = ⟨next, ∅, 0⟩)
    (ins : next < maxSeq) (payload : Bytes) :
    (log.push ⟨next, payload⟩).frames = ⟨next + 1, ∅, 0⟩ ∧
      (log.push ⟨next, payload⟩).released = log.released ++ [payload] := by
  have pushed : OrderedCiphertextFrames.push next payload log.frames =
      .ok [payload] ⟨next + 1, ∅, 0⟩ := by
    rw [frames]
    exact (@push_eq_collect ⟨next, ∅, 0⟩ rfl ins payload).trans rfl
  rw [WindowLog.push, pushed]
  exact ⟨rfl, rfl⟩

theorem emptyRecords_succ (count : Nat) :
    emptyRecords (count + 1) = emptyRecords count ++ [⟨count, []⟩] := by
  rw [emptyRecords, range_succ, map_append]
  rfl

theorem run_emptyRecords {count : Nat} (ins : count ≤ maxSeq) :
    (run (emptyRecords count)).frames = ⟨count, ∅, 0⟩ ∧
      (run (emptyRecords count)).released.length = count := by
  induction count with
  | zero => exact ⟨rfl, rfl⟩
  | succ count ih =>
    obtain ⟨frames, released⟩ := ih (by omega)
    obtain ⟨next, more⟩ := push_next frames (by omega) []
    rw [emptyRecords_succ, run_concat]
    refine ⟨next, ?_⟩
    rw [more, length_append, released]
    rfl

theorem push_early {seq : Nat} (absent : frames.pending.lookup seq = none)
    (early : frames.nextSeq < seq) (near : seq - frames.nextSeq ≤ maxReorderDistance)
    (small : frames.pendingBytes + payload.length ≤ maxPendingBytes) :
    OrderedCiphertextFrames.push seq payload frames = .ok [] (frames.keep seq payload) := by
  change (if seq < frames.nextSeq ∨ _ then _ else if frames.nextSeq < seq then
    if maxReorderDistance < seq - frames.nextSeq then _
      else if maxPendingBytes < frames.pendingBytes + payload.length then _ else _
    else _ : EStateM _ _ _) frames = _
  rw [if_neg (by simp [absent]; omega), if_pos early, if_neg (by omega), if_neg (by omega)]
  rfl

theorem collect_exhausted (hit : frames.pending.lookup frames.nextSeq = some payload)
    (last : frames.nextSeq = maxSeq) (fuel : Nat) (xs : List Bytes) :
    collect removeNext (fuel + 1) xs frames =
      .error .sequenceExhausted (frames.drop frames.nextSeq payload) := by
  have failed : advance (frames.drop frames.nextSeq payload) =
      .error .sequenceExhausted (frames.drop frames.nextSeq payload) := by
    change (if frames.nextSeq < maxSeq then _ else _ : EStateM _ _ _) _ = _
    rw [if_neg (by omega)]
    rfl
  have gone : removeNext frames =
      .error .sequenceExhausted (frames.drop frames.nextSeq payload) := by
    change (match frames.pending.lookup frames.nextSeq with
      | none => pure none
      | some payload => do
          set (frames.drop frames.nextSeq payload)
          advance
          pure (some payload) : EStateM _ _ _) frames = _
    rw [hit]
    change EStateM.bind advance _ (frames.drop frames.nextSeq payload) = _
    rw [EStateM.bind, failed]
  change EStateM.bind removeNext _ frames = _
  rw [EStateM.bind, gone]

/-- The record behind the next one waits. -/
def lastWaiting (count : Nat) : OrderedCiphertextFrames :=
  OrderedCiphertextFrames.keep ⟨count, ∅, 0⟩ (count + 1) [1]

/-- The numbers are exhausted, and the run of the last two records is discarded. -/
theorem window_discards_run : ∃ pushes : List RelayData, (∀ data ∈ pushes, data.seq ≤ maxSeq) ∧
      (run pushes).frames.nextSeq = maxSeq ∧ (run pushes).released.length ≠ maxSeq := by
  obtain ⟨count, last⟩ : ∃ count, maxSeq = count + 1 := ⟨maxSeq - 1, rfl⟩
  obtain ⟨frames, released⟩ := run_emptyRecords (show count ≤ maxSeq by omega)
  have kept : OrderedCiphertextFrames.push (count + 1) [1] (run (emptyRecords count)).frames =
      .ok [] (lastWaiting count) := by
    rw [frames]
    exact push_early rfl (Nat.lt_succ_self count) (by simp [maxReorderDistance])
      (by simp [maxPendingBytes])
  have hit : (lastWaiting count).pending.lookup
      (count + 1) = some [1] := Finmap.lookup_insert _
  have absent : (lastWaiting count).pending.lookup count =
      none := by
    refine (Finmap.lookup_insert_of_ne _ ?_).trans rfl
    omega
  have discarded := @push_eq_collect (lastWaiting count)
    absent (show count < maxSeq by omega) [2]
  rw [collect_exhausted hit last.symm] at discarded
  refine ⟨emptyRecords count ++ [⟨count + 1, [1]⟩] ++ [⟨count, [2]⟩], ?_, ?_⟩
  · intro data mem
    simp only [emptyRecords, mem_append, List.mem_map, mem_range, mem_singleton]
      at mem
    rcases mem with (⟨seq, below, rfl⟩ | rfl) | rfl
    · change seq ≤ maxSeq
      omega
    · exact last.ge
    change count ≤ maxSeq
    omega
  rw [run_concat, run_concat]
  have mid : (run (emptyRecords count)).push ⟨count + 1, [1]⟩ =
      { frames := lastWaiting count
        released := (run (emptyRecords count)).released ++ []
        accepted := acceptFirst ⟨count + 1, [1]⟩ (run (emptyRecords count)).accepted
        exhausted := (run (emptyRecords count)).exhausted } := by
    rw [WindowLog.push, kept]
  rw [mid, WindowLog.push]
  change OrderedCiphertextFrames.push count [2] _ = _ at discarded
  rw [discarded]
  refine ⟨last.symm, ?_⟩
  change ((run (emptyRecords count)).released ++ []).length ≠ maxSeq
  rw [append_nil, released]
  omega

end WindowLog

end Codex.NoiseRelay
