import Codex.Foundation.Map
import Codex.Foundation.Triple
import Codex.Foundation.Text
import Mathlib.Algebra.GroupWithZero.Nat

/-!
# Following the log of the server

The published events are the start of the log, the pending ones later.
-/

namespace Codex.ExecServer

inductive ExecOutputStream
  | stdout
  | stderr
  | pty
  deriving DecidableEq

structure ProcessOutputChunk where
  seq : Nat
  stream : ExecOutputStream
  chunk : List UInt8
  deriving DecidableEq

inductive ExecProcessEvent
  | output (chunk : ProcessOutputChunk)
  | exited (seq : Nat) (exitCode : Int) (sandboxDenied : Option Bool)
  | closed (seq : Nat)
  | failed (message : Text)
  deriving DecidableEq

namespace ExecProcessEvent

def seq : ExecProcessEvent → Option Nat
  | .output chunk => some chunk.seq
  | .exited seq _ _ | .closed seq => some seq
  | .failed _ => none

def isExited : ExecProcessEvent → Bool
  | .exited _ _ _ => true
  | _ => false

def isClosed : ExecProcessEvent → Bool
  | .closed _ => true
  | _ => false

def pendingProcessEventBytes : ExecProcessEvent → Nat
  | .output chunk => chunk.chunk.length
  | .failed message => (message.map Char.utf8Size).sum
  | .exited _ _ _ | .closed _ => 0

end ExecProcessEvent

structure ReadResponse where
  chunks : List ProcessOutputChunk
  nextSeq : Nat
  exited : Bool
  exitCode : Option Int
  closed : Bool
  failure : Option Text
  sandboxDenied : Bool

def maxPendingProcessEvents : Nat := 256
def maxPendingProcessEventBytes : Nat := 1024 * 1024

inductive ReorderError
  | unsequenced
  | tooManyEntries
  | eventTooLarge
  | tooManyBytes
  deriving DecidableEq

def maxSeq : Nat := 2 ^ 64 - 1

def saturatingSucc (seq : Nat) : Nat := min (seq + 1) maxSeq

structure OrderedSessionEvents where
  lastPublishedSeq : Nat := 0
  exitPublished : Bool := false
  closedPublished : Bool := false
  pending : Map Nat ExecProcessEvent := ∅
  pendingBytes : Nat := 0
  failure : Option Text := none

namespace OrderedSessionEvents

variable (events : OrderedSessionEvents)

/-- The pending events with numbers from `first` to `last`, in order. -/
def pendingRange (first last : Nat) : List (Nat × ExecProcessEvent) :=
  (List.range' first (last + 1 - first)).filterMap fun seq =>
    (events.pending.lookup seq).map fun event => (seq, event)

def insertPending (event : ExecProcessEvent) : Except ReorderError OrderedSessionEvents :=
  match event.seq with
  | none => .error .unsequenced
  | some seq =>
    if (events.pending.lookup seq).isSome then .ok events
    else
      let closesGap := seq == saturatingSucc events.lastPublishedSeq
      if !closesGap && maxPendingProcessEvents ≤ events.pending.keys.card then
        .error .tooManyEntries
      else if maxPendingProcessEventBytes < event.pendingProcessEventBytes then
        .error .eventTooLarge
      else if !closesGap && maxPendingProcessEventBytes <
          events.pendingBytes + event.pendingProcessEventBytes then
        .error .tooManyBytes
      else
        .ok { events with
          pending := events.pending.insert seq event
          pendingBytes := events.pendingBytes + event.pendingProcessEventBytes }

def missingCount (targetSeq : Nat) : Nat :=
  let eventCount := targetSeq - events.lastPublishedSeq
  let firstUnpublishedSeq := saturatingSucc events.lastPublishedSeq
  let retainedCount :=
    if firstUnpublishedSeq ≤ targetSeq then
      (events.pendingRange firstUnpublishedSeq targetSeq).length
    else 0
  eventCount - retainedCount

def firstMissingSeq (targetSeq : Nat) : Nat :=
  let expected := saturatingSucc events.lastPublishedSeq
  go expected ((events.pendingRange expected targetSeq).map (·.1))
where
  go (expected : Nat) : List Nat → Nat
    | [] => expected
    | seq :: rest => if seq ≠ expected then expected else go (saturatingSucc expected) rest

end OrderedSessionEvents

structure SessionState where
  orderedEvents : OrderedSessionEvents := {}
  published : List ExecProcessEvent := []
  wake : Nat := 0

namespace SessionState

def publishNext : Bool × SessionState → Option (Bool × SessionState)
  | (publishedClosed, sess) =>
    let events := sess.orderedEvents
    let nextSeq := saturatingSucc events.lastPublishedSeq
    (events.pending.lookup nextSeq).map fun event =>
      (publishedClosed || event.isClosed, { sess with
          orderedEvents :=
            { events with
              pending := events.pending.erase nextSeq
              pendingBytes := events.pendingBytes - event.pendingProcessEventBytes
              lastPublishedSeq := nextSeq
              exitPublished := events.exitPublished || event.isExited
              closedPublished := events.closedPublished || event.isClosed }
          published := sess.published ++ [event] })

def publishReady (sess : SessionState) : Bool × SessionState :=
  exhaust publishNext sess.orderedEvents.pending.keys.card (false, sess)

def noteChange (seq : Nat) (sess : SessionState) : SessionState :=
  { sess with wake := max sess.wake seq }

end SessionState

abbrev SessionM (ε : Type) := EStateM ε SessionState

section

variable {ε : Type}

def orderedEvents : SessionM ε OrderedSessionEvents := do
  let sess ← getThe SessionState
  return sess.orderedEvents

def insertPending (event : ExecProcessEvent) : SessionM ReorderError PUnit := fun sess =>
  match sess.orderedEvents.insertPending event with
  | .ok events => .ok ⟨⟩ { sess with orderedEvents := events }
  | .error error => .error error sess

def publishReady : SessionM ε Bool := fun sess =>
  .ok sess.publishReady.1 sess.publishReady.2

def publishOrderedEvent (event : ExecProcessEvent) : SessionM ReorderError Bool :=
  match event.seq with
  | none => do
      modifyThe SessionState fun sess =>
        { sess with published := sess.published ++ [event] }
      return false
  | some seq => do
      let events ← orderedEvents
      if events.failure.isSome || events.closedPublished || seq ≤ events.lastPublishedSeq then
        return false
      else
        insertPending event
        publishReady

end

inductive RecoverError
  | processFailed (message : Text)
  | closeConflict (targetSeq : Nat)
  | exceedsTarget (seq targetSeq : Nat)
  | missingExitCode
  | reorder (error : ReorderError)
  | gap (targetSeq : Nat)

structure RecoveryProgress where
  exitKnown : Bool
  publishedClosed : Bool

section

variable {ε : Type}

def markPendingExit (targetSeq : Nat) (sandboxDenied : Bool) : SessionM ε Bool := do
  let events ← orderedEvents
  match (events.pendingRange 0 targetSeq).find? (·.2.isExited) with
  | some (key, .exited seq exitCode pendingDenied) =>
    let marked := ExecProcessEvent.exited seq exitCode
      (some (pendingDenied.getD false || sandboxDenied))
    modifyThe SessionState fun sess =>
      { sess with
        orderedEvents :=
          { sess.orderedEvents with
            pending := sess.orderedEvents.pending.insert key marked } }
    return true
  | _ => return false

def closeConflicts (events : OrderedSessionEvents) (resp : ReadResponse) (targetSeq : Nat) : Bool :=
  resp.closed && ((events.pending.lookup targetSeq).any (!·.isClosed) ||
    resp.chunks.any (·.seq == targetSeq))

variable (resp : ReadResponse) (targetSeq : Nat)

def insertRecoveredExit (seq : Nat) : SessionM RecoverError PUnit :=
  match resp.exitCode with
  | none => throwThe RecoverError .missingExitCode
  | some exitCode =>
    mapError .reorder (insertPending (.exited seq exitCode (some resp.sandboxDenied)))

def recoverExitBefore (prog : RecoveryProgress) (chunk : ProcessOutputChunk) :
    SessionM RecoverError RecoveryProgress := do
  let events ← orderedEvents
  let nextSeq := saturatingSucc events.lastPublishedSeq
  if resp.exited && !prog.exitKnown && nextSeq < chunk.seq then
    insertRecoveredExit resp nextSeq
    let closed ← publishReady
    return { exitKnown := true, publishedClosed := prog.publishedClosed || closed }
  else return prog

def recoverOutput (prog : RecoveryProgress) (chunk : ProcessOutputChunk) :
    SessionM RecoverError RecoveryProgress := do
  let events ← orderedEvents
  if events.lastPublishedSeq < chunk.seq then
    mapError .reorder (insertPending (.output chunk))
    let closed ← publishReady
    return { prog with publishedClosed := prog.publishedClosed || closed }
  else return prog

def recoverChunk (prog : RecoveryProgress) (chunk : ProcessOutputChunk) :
    SessionM RecoverError RecoveryProgress :=
  if targetSeq < chunk.seq then throwThe RecoverError (.exceedsTarget chunk.seq targetSeq)
  else do
    let prog ← recoverExitBefore resp prog chunk
    recoverOutput prog chunk

def recoverClosed : SessionM RecoverError PUnit := do
  let events ← orderedEvents
  if resp.closed && !events.closedPublished &&
      !(events.pending.lookup targetSeq).any (·.isClosed) then
    mapError .reorder (insertPending (.closed targetSeq))
  else return ⟨⟩

def recoverExit (exitKnown : Bool) : SessionM RecoverError PUnit := do
  let events ← orderedEvents
  if resp.exited && !exitKnown then
    if events.missingCount targetSeq ≠ 1 then throwThe RecoverError (.gap targetSeq)
    else insertRecoveredExit resp (events.firstMissingSeq targetSeq)
  else if events.missingCount targetSeq ≠ 0 then throwThe RecoverError (.gap targetSeq)
  else return ⟨⟩

def recoverUnpublished : SessionM RecoverError Bool := do
  let exitPending ← markPendingExit targetSeq resp.sandboxDenied
  let events ← orderedEvents
  if closeConflicts events resp targetSeq then
    throwThe RecoverError (.closeConflict targetSeq)
  else
    let prog ← resp.chunks.foldlM (recoverChunk resp targetSeq)
      { exitKnown := events.exitPublished || exitPending, publishedClosed := false }
    recoverClosed resp targetSeq
    recoverExit resp targetSeq prog.exitKnown
    let closed ← publishReady
    modifyThe SessionState (·.noteChange targetSeq)
    return prog.publishedClosed || closed

def recoverEvents : SessionM RecoverError Bool :=
  match resp.failure with
  | some message => throwThe RecoverError (.processFailed message)
  | none => do
      let targetSeq := resp.nextSeq - 1
      let events ← orderedEvents
      if events.failure.isSome || events.closedPublished ||
          targetSeq ≤ events.lastPublishedSeq then
        return false
      else recoverUnpublished resp targetSeq

end

open ExecProcessEvent (isExited isClosed)
open List

structure ServerLog where
  events : List ExecProcessEvent
  numbered : ∀ (index : Nat) event, events[index]? = some event → event.seq = some (index + 1)
  exit_unique : ∀ index index' : Nat, (events[index]?).any isExited = true →
    (events[index']?).any isExited = true → index = index'
  closed_last : ∀ index : Nat, (events[index]?).any isClosed = true → index + 1 = events.length
  length_le : events.length ≤ maxSeq

namespace ServerLog

variable (log : ServerLog)

def event (seq : Nat) : Option ExecProcessEvent :=
  if seq = 0 then none else log.events[seq - 1]?

def output (seq : Nat) : Option ProcessOutputChunk :=
  match log.event seq with
  | some (.output chunk) => some chunk
  | _ => none

def exitCode (seq : Nat) : Option Int :=
  match log.event seq with
  | some (.exited _ exitCode _) => some exitCode
  | _ => none

/-- All output after `after` up to `target`, and the events up to `target`. -/
def read (after target : Nat) (sandboxDenied : Bool) : ReadResponse where
  chunks := (List.range' (after + 1) (target - after)).filterMap log.output
  nextSeq := target + 1
  exited := (List.range' 1 target).any fun seq => (log.exitCode seq).isSome
  exitCode := (List.range' 1 target).findSome? log.exitCode
  closed := (List.range' 1 target).any fun seq => (log.event seq).any (·.isClosed)
  failure := none
  sandboxDenied

variable {log : ServerLog} {seq : Nat}
  {event : ExecProcessEvent} {seq' : Nat} {chunk : ProcessOutputChunk}

theorem le_of_event (hit : log.event seq = some event) : 0 < seq ∧ seq ≤ log.events.length := by
  unfold ServerLog.event at hit
  split at hit
  · cases hit
  have ins := (List.getElem?_eq_some_iff.mp hit).1
  omega

theorem seq_of_event (hit : log.event seq = some event) : event.seq = some seq := by
  have bounds := le_of_event hit
  rw [ServerLog.event, if_neg (by omega)] at hit
  rw [log.numbered _ _ hit]
  congr 1
  omega

theorem exists_seq_of_mem (mem : event ∈ log.events) : ∃ seq, log.event seq = some event := by
  obtain ⟨idx, hit⟩ := mem_iff_getElem?.mp mem
  exact ⟨idx + 1, by rw [ServerLog.event, if_neg (by omega)]; exact hit⟩

theorem event_cases (pos : 0 < seq) (ins : seq ≤ log.events.length) :
    (∃ chunk, log.event seq = some (.output chunk) ∧ chunk.seq = seq) ∨
      (∃ code denied, log.event seq = some (.exited seq code denied)) ∨
      log.event seq = some (.closed seq) := by
  have hit : log.event seq = some (log.events.get ⟨seq - 1, by omega⟩) := by
    rw [event, if_neg (by omega)]
    exact getElem?_eq_getElem _
  have numbered := seq_of_event hit
  cases kind : log.events.get ⟨seq - 1, by omega⟩ with
  | output chunk =>
    rw [kind] at hit numbered
    exact .inl ⟨chunk, hit, Option.some.inj numbered⟩
  | exited num code denied =>
    rw [kind] at hit numbered
    obtain rfl := Option.some.inj numbered
    exact .inr (.inl ⟨code, denied, hit⟩)
  | closed num =>
    rw [kind] at hit numbered
    obtain rfl := Option.some.inj numbered
    exact .inr (.inr hit)
  | failed msg =>
    rw [kind] at numbered
    cases numbered

theorem exit_seq_unique {event' : ExecProcessEvent} (hit : log.event seq = some event)
    (exited : event.isExited = true) (hit' : log.event seq' = some event')
    (exited' : event'.isExited = true) : seq = seq' := by
  have bounds := le_of_event hit
  have bounds' := le_of_event hit'
  rw [ServerLog.event, if_neg (by omega)] at hit hit'
  have eq := log.exit_unique (seq - 1) (seq' - 1) (by rw [hit]; exact exited)
    (by rw [hit']; exact exited')
  omega

theorem seq_of_closed (hit : log.event seq = some event) (closed : event.isClosed = true) :
    seq = log.events.length := by
  have bounds := le_of_event hit
  rw [ServerLog.event, if_neg (by omega)] at hit
  have last := log.closed_last (seq - 1) (by rw [hit]; exact closed)
  omega

def IsExit (seq : Nat) : Prop :=
  ∃ exitCode denied, log.event seq = some (.exited seq exitCode denied)

theorem isExit_iff : log.IsExit seq ↔ (log.event seq).any (·.isExited) = true := by
  rw [Option.any_eq_true]
  constructor
  · rintro ⟨code, denied, hit⟩
    exact ⟨_, hit, rfl⟩
  rintro ⟨event, hit, exited⟩
  cases event with
  | exited num code denied =>
    cases seq_of_event hit
    exact ⟨code, denied, hit⟩
  | output | closed | failed => cases exited

def IsClosed (seq : Nat) : Prop := log.event seq = some (.closed seq)

theorem isClosed_iff : log.IsClosed seq ↔ (log.event seq).any (·.isClosed) = true := by
  rw [Option.any_eq_true]
  constructor
  · intro hit
    exact ⟨_, hit, rfl⟩
  rintro ⟨event, hit, closed⟩
  cases event with
  | closed num =>
    cases seq_of_event hit
    exact hit
  | output | exited | failed => cases closed

theorem IsExit.unique (exit : log.IsExit seq) (exit' : log.IsExit seq') : seq = seq' := by
  obtain ⟨_, _, hit⟩ := exit
  obtain ⟨_, _, hit'⟩ := exit'
  exact exit_seq_unique hit rfl hit' rfl

theorem exitCode_isSome_iff : (log.exitCode seq).isSome = true ↔ log.IsExit seq := by
  rw [isExit_iff, exitCode]
  split
  · rename_i hit
    rw [hit]
    simp [isExited]
  rename_i y
  cases hit : log.event seq with
  | none => simp
  | some event =>
    cases event with
    | exited number exitCode denied => exact absurd hit (y _ _ _)
    | output | closed | failed => simp [isExited]

variable {after target : Nat} {denied : Bool}

private theorem mem_range'_iff : seq ∈ List.range' 1 target ↔ 0 < seq ∧ seq ≤ target := by
  rw [mem_range'_1]
  omega

theorem exited_read :
    (log.read after target denied).exited = true ↔ ∃ seq ≤ target, log.IsExit seq := by
  simp only [read, any_eq_true, exitCode_isSome_iff, mem_range'_iff]
  constructor
  · rintro ⟨seq, ins, exit⟩
    exact ⟨seq, ins.2, exit⟩
  rintro ⟨seq, ins, code, denied, hit⟩
  exact ⟨seq, ⟨(le_of_event hit).1, ins⟩, code, denied, hit⟩

theorem exitCode_read {exitCode : Int} {denied' : Option Bool} (ins : seq ≤ target)
    (hit : log.event seq = some (.exited seq exitCode denied')) :
    (log.read after target denied).exitCode = some exitCode := by
  have code : log.exitCode seq = some exitCode := by rw [ServerLog.exitCode, hit]
  have mem : seq ∈ List.range' 1 target := mem_range'_iff.mpr ⟨(le_of_event hit).1, ins⟩
  cases fst : (List.range' 1 target).findSome? log.exitCode with
  | none =>
    have none := findSome?_eq_none_iff.mp fst seq mem
    cases none.symm.trans code
  | some noted =>
    obtain ⟨other, -, codeOther⟩ := exists_of_findSome?_eq_some fst
    have exitOther : log.IsExit other := exitCode_isSome_iff.mp (by rw [codeOther]; rfl)
    obtain rfl := exitOther.unique ⟨_, _, hit⟩
    exact fst.trans (codeOther.symm.trans code)

theorem closed_read :
    (log.read after target denied).closed = true ↔ ∃ seq ≤ target, log.IsClosed seq := by
  simp only [read, any_eq_true, ← isClosed_iff, mem_range'_iff]
  constructor
  · rintro ⟨seq, ins, closed⟩
    exact ⟨seq, ins.2, closed⟩
  rintro ⟨seq, ins, closed⟩
  exact ⟨seq, ⟨(le_of_event closed).1, ins⟩, closed⟩

theorem output_eq_some_iff :
    log.output seq = some chunk ↔ log.event seq = some (.output chunk) := by
  unfold output
  split
  · rename_i hit
    simp [hit]
  rename_i y
  simp only [reduceCtorEq, false_iff]
  exact y chunk

theorem mem_chunks_read : chunk ∈ (log.read after target denied).chunks ↔
      after < chunk.seq ∧ chunk.seq ≤ target ∧ log.event chunk.seq = some (.output chunk) := by
  simp only [read, mem_filterMap, mem_range'_1, output_eq_some_iff]
  constructor
  · rintro ⟨seq, ins, hit⟩
    obtain rfl : chunk.seq = seq := Option.some.inj (seq_of_event hit)
    exact ⟨by omega, by omega, hit⟩
  rintro ⟨late, ins, hit⟩
  exact ⟨chunk.seq, by omega, hit⟩

theorem chunks_read_sorted : (log.read after target denied).chunks.Pairwise (·.seq < ·.seq) := by
  refine pairwise_filterMap.mpr ((pairwise_lt_range' ..).imp ?_)
  intro first second pre chunk hit ck' hit'
  rw [output_eq_some_iff] at hit hit'
  have num : chunk.seq = first := Option.some.inj (seq_of_event hit)
  have number' : ck'.seq = second := Option.some.inj (seq_of_event hit')
  omega

end ServerLog

def ExecProcessEvent.eraseDenied : ExecProcessEvent → ExecProcessEvent
  | .exited seq exitCode _ => .exited seq exitCode none
  | event => event

def ExecProcessEvent.Same (event other : ExecProcessEvent) : Prop :=
  event.eraseDenied = other.eraseDenied

namespace ExecProcessEvent

variable {event other : ExecProcessEvent}

theorem Same.congr {α : Type} {view : ExecProcessEvent → α}
    (erased : ∀ event, view event.eraseDenied = view event) (eq : event.Same other) :
    view event = view other := by
  rw [← erased event, eq, erased]

theorem Same.isExited (eq : event.Same other) : event.isExited = other.isExited :=
  eq.congr fun event => by cases event <;> rfl

theorem Same.isClosed (eq : event.Same other) : event.isClosed = other.isClosed :=
  eq.congr fun event => by cases event <;> rfl

theorem Same.seq (eq : event.Same other) : event.seq = other.seq :=
  eq.congr fun event => by cases event <;> rfl

end ExecProcessEvent

def ReorderError.IsLimit (error : ReorderError) : Prop := error ≠ .unsequenced

open Option

open Map ReorderError

namespace SessionState

abbrev last (sess : SessionState) : Nat := sess.orderedEvents.lastPublishedSeq

abbrev pending (sess : SessionState) : Map Nat ExecProcessEvent := sess.orderedEvents.pending

structure Following (log : ServerLog) (sess : SessionState) : Prop where
  failure : sess.orderedEvents.failure = none
  merged : Merged ExecProcessEvent.eraseDenied (log.events.map ExecProcessEvent.eraseDenied) 1
    (sess.last + 1) sess.pending sess.published
  exit : sess.orderedEvents.exitPublished = true ↔
    ∃ seq ≤ sess.last, (log.event seq).any (·.isExited) = true
  closed : sess.orderedEvents.closedPublished = true ↔
    ∃ seq ≤ sess.last, (log.event seq).any (·.isClosed) = true

def Settled (sess : SessionState) : Prop := sess.pending.lookup (sess.last + 1) = none

def Known (sess : SessionState) (seq : Nat) : Prop :=
  seq ≤ sess.last ∨ sess.pending.lookup seq ≠ none

variable {log : ServerLog} {sess after : SessionState} {seq : Nat} {event : ExecProcessEvent}

theorem Following.last_le (next : Following log sess) : sess.last ≤ log.events.length := by
  have bound := next.merged.next_le
  rw [length_map] at bound
  omega

theorem Following.pending_same (next : Following log sess)
    (hit : sess.pending.lookup seq = some event) :
    sess.last < seq ∧ ∃ logged, log.event seq = some logged ∧ event.Same logged := by
  obtain ⟨late, known⟩ := next.merged.pending seq event hit
  rw [getElem?_map, map_eq_some_iff] at known
  obtain ⟨logged, hit, eq⟩ := known
  refine ⟨late, logged, ?_, eq.symm⟩
  rw [ServerLog.event, if_neg (by omega), hit]

theorem Settled.not_known (settled : sess.Settled) : ¬ sess.Known (sess.last + 1) := by
  rintro (pub | pending)
  · omega
  · exact pending settled

structure Drained (sess after : SessionState) : Prop where
  last_le : sess.last ≤ after.last
  published : ∀ seq, sess.last < seq → seq ≤ after.last → sess.pending.lookup seq ≠ none
  pending : ∀ seq, after.last < seq → after.pending.lookup seq = sess.pending.lookup seq

theorem Drained.known_iff (drained : Drained sess after) (seq : Nat) :
    after.Known seq ↔ sess.Known seq := by
  have grows := drained.last_le
  constructor
  · rintro (pub | pending)
    · by_cases early : seq ≤ sess.last
      · exact .inl early
      · exact .inr (drained.published seq (by omega) pub)
    by_cases early : seq ≤ after.last
    · by_cases old : seq ≤ sess.last
      · exact .inl old
      · exact .inr (drained.published seq (by omega) early)
    · exact .inr (drained.pending seq (by omega) ▸ pending)
  rintro (pub | pending)
  · exact .inl (by omega)
  by_cases early : seq ≤ after.last
  · exact .inl early
  · exact .inr (by rwa [drained.pending seq (by omega)])

theorem Drained.le_last (drained : Drained sess after) (settled : after.Settled) {tgt : Nat}
    (covered : ∀ seq, sess.last < seq → seq ≤ tgt → sess.pending.lookup seq ≠ none) :
    tgt ≤ after.last := by
  by_contra short
  have grows := drained.last_le
  have missing := drained.pending (after.last + 1) (by omega)
  exact covered (after.last + 1) (by omega) (by omega) (missing ▸ settled)

variable {flag flag' : Bool} {logged : ExecProcessEvent}

theorem publishNext_cases (ran : publishNext (flag, sess) = some (flag', after)) :
    ∃ event, sess.pending.lookup (saturatingSucc sess.last) = some event ∧
      after.last = saturatingSucc sess.last ∧
      after.pending = sess.pending.erase (saturatingSucc sess.last) ∧
      after.published = sess.published ++ [event] ∧
      after.orderedEvents.failure = sess.orderedEvents.failure ∧
      after.orderedEvents.exitPublished = (sess.orderedEvents.exitPublished || event.isExited) ∧
      after.orderedEvents.closedPublished =
        (sess.orderedEvents.closedPublished || event.isClosed) := by
  obtain ⟨event, hit, res⟩ := map_eq_some_iff.mp ran
  obtain ⟨-, rfl⟩ := Prod.mk.inj res
  exact ⟨event, hit, rfl, rfl, rfl, rfl, rfl, rfl⟩

theorem Drained.refl (sess : SessionState) : Drained sess sess :=
  ⟨le_refl _, fun _ late early => by omega, fun _ _ => rfl⟩

theorem Drained.trans {final : SessionState} (fst : Drained sess after)
    (snd : Drained after final) : Drained sess final := by
  have grows := snd.last_le
  refine ⟨fst.last_le.trans grows, fun seq late early => ?_, fun seq late => ?_⟩
  · by_cases published : seq ≤ after.last
    · exact fst.published seq late published
    rw [← fst.pending seq (by omega)]
    exact snd.published seq (by omega) early
  · rw [snd.pending seq late, fst.pending seq (by omega)]

private theorem published_kind_succ {kind : ExecProcessEvent → Bool} {last : Nat}
    (pre : flag = true ↔ ∃ seq ≤ last, (log.event seq).any kind = true)
    (hit : log.event (last + 1) = some logged) :
    (flag || kind logged) = true ↔ ∃ seq ≤ last + 1, (log.event seq).any kind = true := by
  rw [Bool.or_eq_true, pre]
  constructor
  · rintro (⟨seq, early, holds⟩ | next)
    · exact ⟨seq, by omega, holds⟩
    · exact ⟨last + 1, le_refl _, by rw [hit]; exact next⟩
  rintro ⟨seq, early, holds⟩
  by_cases isNext : seq = last + 1
  · subst isNext
    rw [hit] at holds
    exact .inr holds
  · exact .inl ⟨seq, by omega, holds⟩

theorem Following.publishNext (following : Following log sess)
    (ran : publishNext (flag, sess) = some (flag', after)) :
    Following log after ∧ Drained sess after := by
  obtain ⟨event, hit, last, pend, pub, err, exit, closed⟩ := publishNext_cases ran
  obtain ⟨late, logged, foundLogged, eq⟩ := following.pending_same hit
  have next : saturatingSucc sess.last = sess.last + 1 := by
    unfold saturatingSucc at late ⊢
    omega
  rw [next] at hit last pend foundLogged
  refine ⟨⟨err.trans following.failure, ?_, ?_, ?_⟩, by omega, ?_, ?_⟩
  · rw [last, pend, pub]
    exact following.merged.release hit
  · rw [exit, last, eq.isExited]
    exact published_kind_succ following.exit foundLogged
  · rw [closed, last, eq.isClosed]
    exact published_kind_succ following.closed foundLogged
  · intro seq after pre
    obtain rfl : seq = sess.last + 1 := by omega
    rw [hit]
    exact some_ne_none event
  intro seq after
  rw [pend, lookup_erase, if_neg (by omega)]

theorem Following.settled_of_publishNext (following : Following log sess)
    (stuck : SessionState.publishNext (flag, sess) = none) : sess.Settled := by
  have missing : sess.pending.lookup (saturatingSucc sess.last) = none :=
    map_eq_none_iff.mp stuck
  have bound := following.last_le
  have largest := log.length_le
  by_cases ins : sess.last < maxSeq
  · have next : saturatingSucc sess.last = sess.last + 1 := by
      unfold saturatingSucc
      omega
    rwa [next] at missing
  refine following.merged.lookup_eq_none ?_
  rw [length_map]
  omega

theorem Following.publishReady (next : Following log sess) :
    Following log sess.publishReady.2 ∧ Drained sess sess.publishReady.2 ∧
      sess.publishReady.2.Settled := by
  obtain ⟨follows, drained⟩ := @exhaust_relation _ SessionState.publishNext
    (fun pre after => Following log pre.2 → Following log after.2 ∧ Drained pre.2 after.2)
    (fun st here => ⟨here, .refl st.2⟩)
    (fun fst snd here =>
      ⟨(snd (fst here).1).1, (fst here).2.trans (snd (fst here).1).2⟩)
    (fun _ _ ran here => here.publishNext ran)
    sess.pending.keys.card (false, sess) next
  have stuck := @step_exhaust _ SessionState.publishNext (fun st => st.2.pending.keys.card)
    (fun pre after ran => by
      obtain ⟨event, hit, -, pend, -⟩ := publishNext_cases ran
      rw [pend]
      exact card_keys_erase_lt hit) _ (false, sess) (le_refl _)
  exact ⟨follows, drained, follows.settled_of_publishNext stuck⟩

structure Kept (sess : SessionState) (seq : Nat) (event : ExecProcessEvent)
    (after : SessionState) : Prop where
  last : after.last = sess.last
  published : after.published = sess.published
  failure : after.orderedEvents.failure = sess.orderedEvents.failure
  exit : after.orderedEvents.exitPublished = sess.orderedEvents.exitPublished
  closed : after.orderedEvents.closedPublished = sess.orderedEvents.closedPublished
  pending : after.pending = sess.pending ∧ sess.pending.lookup seq ≠ none ∨
    after.pending = sess.pending.insert seq event

theorem insertPending_spec (numbered : event.seq = some seq) :
    Triple (· = sess) (insertPending event) (fun _ after => Kept sess seq event after)
      (fun error _ => error.IsLimit) := by
  intro st here
  subst here
  unfold ExecServer.insertPending OrderedSessionEvents.insertPending
  rw [numbered]
  dsimp only
  by_cases pend : (st.pending.lookup seq).isSome = true
  · rw [if_pos pend]
    exact ⟨rfl, rfl, rfl, rfl, rfl, .inl ⟨rfl, isSome_iff_ne_none.mp pend⟩⟩
  rw [if_neg pend]
  split_ifs with full large heavy
  · exact noConfusion
  · exact noConfusion
  · exact noConfusion
  · exact ⟨rfl, rfl, rfl, rfl, rfl, .inr rfl⟩

section

variable (kept : Kept sess seq event after)
include kept

theorem Kept.following (next : Following log sess)
    (late : sess.last < seq) (hit : log.event seq = some logged) (eq : event.Same logged) :
    Following log after := by
  refine ⟨kept.failure.trans next.failure, ?_, ?_, ?_⟩
  · rw [kept.last, kept.published]
    rcases kept.pending with ⟨still, -⟩ | put
    · rw [still]
      exact next.merged
    rw [put]
    refine next.merged.insert late ?_
    rw [ServerLog.event, if_neg (by omega)] at hit
    rw [getElem?_map, hit]
    exact congrArg some eq.symm
  · rw [kept.exit, kept.last]
    exact next.exit
  rw [kept.closed, kept.last]
  exact next.closed

theorem Kept.lookup_self : after.pending.lookup seq ≠ none := by
  rcases kept.pending with ⟨still, here⟩ | put
  · rwa [still]
  rw [put, lookup_insert, if_pos rfl]
  exact some_ne_none event

theorem Kept.lookup_of_ne {other : Nat}
    (ne : other ≠ seq) : after.pending.lookup other = sess.pending.lookup other := by
  rcases kept.pending with ⟨still, -⟩ | put
  · rw [still]
  · rw [put, lookup_insert, if_neg ne]

theorem Kept.known_iff (other : Nat) : after.Known other ↔ sess.Known other ∨ other = seq := by
  unfold Known
  rw [kept.last]
  by_cases eq : other = seq
  · subst eq
    simp [kept.lookup_self]
  · simp [kept.lookup_of_ne eq, eq]

end

structure Accepted (log : ServerLog) (sess : SessionState) (seq : Nat) (after : SessionState) :
    Prop where
  following : Following log after
  settled : after.Settled
  last_le : sess.last ≤ after.last
  known_iff : ∀ other, after.Known other ↔ sess.Known other ∨ other = seq

theorem Accepted.le_last (taken : Accepted log sess seq after)
    (next : seq ≤ sess.last + 1) : seq ≤ after.last := by
  have grows := taken.last_le
  by_contra short
  refine taken.settled.not_known ((taken.known_iff _).mpr (.inr ?_))
  omega

theorem Kept.publishReady {ε : Type} {failed : ε → SessionState → Prop}
    (next : Following log sess) (late : sess.last < seq)
    (hit : log.event seq = some logged) (eq : event.Same logged) :
    Triple (Kept sess seq event) ExecServer.publishReady
      (fun _ after => Accepted log sess seq after) failed := by
  intro mid kept
  obtain ⟨follows, drained, settled⟩ :=
    (kept.following next late hit eq).publishReady
  refine ⟨follows, settled, kept.last ▸ drained.last_le, fun other => ?_⟩
  rw [drained.known_iff, kept.known_iff]

end SessionState

open SessionState

variable {log : ServerLog} {sess : SessionState} {ε : Type}

theorem Triple.orderedEvents {α : Type} {pre : SessionState → Prop}
    {next : OrderedSessionEvents → SessionM ε α} {post : α → SessionState → Prop}
    {failed : ε → SessionState → Prop}
    (tl : ∀ sess, pre sess → Triple (· = sess) (next sess.orderedEvents) post failed) :
    Triple pre (orderedEvents >>= next) post failed :=
  fun sess holds => tl sess holds sess rfl

structure Steady (log : ServerLog) (sess : SessionState) : Prop where
  following : Following log sess
  settled : sess.Settled

theorem publishOrderedEvent_steady {event : ExecProcessEvent} (mem : event ∈ log.events) :
    Triple (Steady log) (publishOrderedEvent event) (fun _ => Steady log)
      (fun error _ => error.IsLimit) := by
  obtain ⟨seq, hit⟩ := ServerLog.exists_seq_of_mem mem
  have numbered := ServerLog.seq_of_event hit
  unfold publishOrderedEvent
  rw [numbered]
  refine Triple.orderedEvents fun sess steady => ?_
  split
  · exact Triple.pure fun _ eq => eq ▸ steady
  rename_i unseen
  have late : sess.last < seq := by
    simp only [Bool.or_eq_true, decide_eq_true_eq, not_or] at unseen
    exact Nat.lt_of_not_le unseen.2
  refine Triple.bind (insertPending_spec numbered) fun _ => ?_
  exact (Kept.publishReady steady.following late hit rfl).weaken fun _ _ taken =>
    ⟨taken.following, taken.settled⟩

end Codex.ExecServer
