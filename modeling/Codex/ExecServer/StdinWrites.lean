import Codex.Foundation.Run
import Codex.Foundation.Text
import Mathlib.Data.Finset.Basic

/-!
# Retried writes to the input of a process

A write id is remembered with its send, until enough others have followed.
-/

namespace Codex.ExecServer.StdinWrites

open List

def retainedStdinWriteIdsPerProcess : Nat := 4096

structure AcceptedStdinWriteIds where
  ids : Finset Text := ∅
  order : List Text := []

/-- The loop that evicts the oldest ids. -/
def evict (limit : Nat) (ids : Finset Text) : List Text → AcceptedStdinWriteIds
  | [] => ⟨ids, []⟩
  | evicted :: order =>
    if (evicted :: order).length > limit then evict limit (ids.erase evicted) order
    else ⟨ids, evicted :: order⟩

def AcceptedStdinWriteIds.remember (limit : Nat) (accepted : AcceptedStdinWriteIds)
    (writeId : Text) : AcceptedStdinWriteIds :=
  if writeId ∈ accepted.ids then accepted
  else evict limit (insert writeId accepted.ids) (accepted.order ++ [writeId])

/-- The cache of a process and its writer channel. -/
structure Stdin where
  accepted : AcceptedStdinWriteIds := {}
  /-- The free places of the channel. -/
  permits : Nat
  closed : Bool := false
  /-- All that was ever sent on the channel. -/
  sent : List (Text × List UInt8) := []
  /-- How much of it the reader has taken out. -/
  received : Nat := 0

inductive WriteStatus
  | accepted
  | unknownProcess
  | stdinClosed
  | starting

/-- The calls of `exec_write`, and what the reader of the channel does. -/
inductive Request
  | execWrite (writeId : Text) (chunk : List UInt8)
  | receive
  | close

/-- Where a call is: at the start, before one of its awaits, or done. -/
inductive Place
  | execWrite (writeId : Text) (chunk : List UInt8)
  | check (writeId : Text) (chunk : List UInt8)
  | reserve (writeId : Text) (chunk : List UInt8)
  | send (writeId : Text) (chunk : List UInt8)
  | answered (writeId : Text) (status : WriteStatus)
  | receive
  | close
  | ended

/-- What the process map holds for the process of a call. -/
inductive ProcessEntry
  | absent
  | starting
  | running (tty pipeStdin : Bool)

/-- A call is cancelled, or goes on; at its start it looks its process up. -/
inductive Choice
  | cancel
  | go (entry : ProcessEntry)

def enter : Request → Place
  | .execWrite writeId chunk => .execWrite writeId chunk
  | .receive => .receive
  | .close => .close

namespace Stdin

variable (stdin : Stdin)

def release : Stdin := { stdin with permits := stdin.permits + 1 }

def lookUp (writeId : Text) (chunk : List UInt8) : ProcessEntry → Place
  | .absent => .answered writeId .unknownProcess
  | .starting => .answered writeId .starting
  | .running tty pipeStdin =>
    if !tty && !pipeStdin then .answered writeId .stdinClosed else .check writeId chunk

def next : Choice → Place → Stdin × Place
  | .cancel, .execWrite .. | .cancel, .check .. | .cancel, .reserve .. => (stdin, .ended)
  | .cancel, .send .. => (stdin.release, .ended)
  | .go entry, .execWrite writeId chunk =>
    (stdin, if writeId = [] then .ended else lookUp writeId chunk entry)
  | .go _, .check writeId chunk =>
    (stdin, if writeId ∈ stdin.accepted.ids then .answered writeId .accepted
      else .reserve writeId chunk)
  | .go _, .reserve writeId chunk =>
    if stdin.closed then (stdin, .ended)
    else if stdin.permits = 0 then (stdin, .reserve writeId chunk)
    else ({ stdin with permits := stdin.permits - 1 }, .send writeId chunk)
  | .go _, .send writeId chunk =>
    if writeId ∈ stdin.accepted.ids then (stdin.release, .answered writeId .accepted)
    else ({ stdin with
        accepted := stdin.accepted.remember retainedStdinWriteIdsPerProcess writeId
        sent := stdin.sent ++ [(writeId, chunk)] }, .answered writeId .accepted)
  | _, .receive =>
    if stdin.received < stdin.sent.length then
      ({ stdin.release with received := stdin.received + 1 }, .ended)
    else (stdin, .receive)
  | _, .close => ({ stdin with closed := true }, .ended)
  | _, .answered writeId status => (stdin, .answered writeId status)
  | _, .ended => (stdin, .ended)

end Stdin

def stdinWrites : Program Stdin Place Request Choice where
  enter
  next choice stdin place := stdin.next choice place

def Stdin.sentIds (stdin : Stdin) : List Text := stdin.sent.map Prod.fst

/-- Enough other ids are sent between two sends of one. -/
def Spaced (limit : Nat) (sent : List Text) : Prop :=
  ∀ front between back writeId, sent = front ++ writeId :: between ++ writeId :: back →
    ∃ others, others <+ between ∧ others.length = limit ∧ others.Nodup ∧ writeId ∉ others

/-- The cache holds the last ids sent, in their order. -/
structure Recent (limit : Nat) (accepted : AcceptedStdinWriteIds) (sent : List Text) : Prop where
  ids : accepted.ids = accepted.order.toFinset
  nodup : accepted.order.Nodup
  suffix : accepted.order <:+ sent
  length : accepted.order.length = min limit sent.length

structure Sound (pool : Pool Stdin Place) : Prop where
  recent : Recent retainedStdinWriteIdsPerProcess pool.shared.accepted pool.shared.sentIds
  spaced : Spaced retainedStdinWriteIdsPerProcess pool.shared.sentIds
  sent : ∀ writeId, .answered writeId .accepted ∈ pool.calls → writeId ∈ pool.shared.sentIds

variable {limit : Nat} {accepted : AcceptedStdinWriteIds} {sent : List Text} {writeId : Text}

theorem evict_eq {order : List Text} (nodup : order.Nodup) : evict limit order.toFinset order =
    ⟨(order.drop (order.length - limit)).toFinset, order.drop (order.length - limit)⟩ := by
  induction order with
  | nil => rw [evict, drop_nil]
  | cons evicted order ih =>
    obtain ⟨other, nodup⟩ := nodup_cons.mp nodup
    rw [evict]
    split
    next full =>
      have erased : (evicted :: order).toFinset.erase evicted = order.toFinset := by
        rw [toFinset_cons, Finset.erase_insert (by simpa using other)]
      have more : (evicted :: order).length - limit = order.length - limit + 1 :=
        Nat.succ_sub (Nat.lt_succ_iff.mp full)
      rw [erased, ih nodup, more, drop_succ_cons]
    next le => rw [Nat.sub_eq_zero_of_le (Nat.not_lt.mp le), drop_zero]

theorem Recent.remember (recent : Recent limit accepted sent) (fresh : writeId ∉ accepted.ids) :
    Recent limit (accepted.remember limit writeId) (sent ++ [writeId]) := by
  obtain ⟨ids, nodup, suffix, length⟩ := recent
  have absent : writeId ∉ accepted.order := by simpa [ids] using fresh
  have distinct : (accepted.order ++ [writeId]).Nodup :=
    (nodup_cons.mpr ⟨absent, nodup⟩).perm (perm_append_singleton ..).symm
  have all : insert writeId accepted.ids = (accepted.order ++ [writeId]).toFinset := by
    ext id
    rw [Finset.mem_insert, ids, mem_toFinset, mem_toFinset, mem_append, mem_singleton, or_comm]
  rw [AcceptedStdinWriteIds.remember, if_neg fresh, all, evict_eq distinct]
  refine ⟨rfl, distinct.sublist (drop_sublist ..), (drop_suffix ..).trans ?_, ?_⟩
  · obtain ⟨front, rfl⟩ := suffix
    exact ⟨front, (append_assoc ..).symm⟩
  · simp only [length_drop, length_append, length_singleton]
    omega

theorem Spaced.concat (spaced : Spaced limit sent) (recent : Recent limit accepted sent)
    (fresh : writeId ∉ accepted.ids) : Spaced limit (sent ++ [writeId]) := by
  intro front between back other split
  rcases eq_nil_or_concat back with rfl | ⟨back, last, rfl⟩
  · obtain ⟨rfl, same⟩ := append_inj' split rfl
    obtain rfl := singleton_inj.mp same
    have absent : writeId ∉ accepted.order := by simpa [recent.ids] using fresh
    -- the cache ends after the earlier send of the id
    have inside : accepted.order <:+ between := by
      rcases suffix_or_suffix_of_suffix recent.suffix (suffix_append front _) with short | long
      · refine (suffix_cons_iff.mp short).resolve_left fun whole => absent ?_
        rw [whole]
        exact mem_cons_self
      · exact (absent (long.subset mem_cons_self)).elim
    refine ⟨accepted.order, inside.sublist, ?_, recent.nodup, absent⟩
    have fewer := inside.length_le
    rw [recent.length] at fewer ⊢
    simp only [length_append, length_cons] at fewer ⊢
    omega
  · refine spaced front between back other ?_
    rw [concat_eq_append, ← cons_append, ← append_assoc] at split
    exact (append_inj' split rfl).1

variable {stdin : Stdin} {front back : List Place} {call : Place} (choice : Choice)

/-- The step keeps the cache and the log, and accepts no id that is not in the cache. -/
structure Keeps (stdin : Stdin) (call : Place) (after : Stdin × Place) : Prop where
  accepted : after.1.accepted = stdin.accepted
  sent : after.1.sent = stdin.sent
  answers : ∀ writeId, after.2 = .answered writeId .accepted →
    call = after.2 ∨ writeId ∈ stdin.accepted.ids

/-- The step sends a fresh id and remembers it. -/
structure Sends (stdin : Stdin) (writeId : Text) (chunk : List UInt8) (after : Stdin × Place) :
    Prop where
  fresh : writeId ∉ stdin.accepted.ids
  accepted : after.1.accepted = stdin.accepted.remember retainedStdinWriteIdsPerProcess writeId
  sent : after.1.sent = stdin.sent ++ [(writeId, chunk)]
  answer : after.2 = .answered writeId .accepted

theorem keeps_ended (stdin : Stdin) (call : Place) : Keeps stdin call (stdin, .ended) :=
  ⟨rfl, rfl, nofun⟩

theorem keeps_lookUp (stdin : Stdin) (call : Place) (writeId : Text) (chunk : List UInt8)
    (entry : ProcessEntry) : Keeps stdin call (stdin, Stdin.lookUp writeId chunk entry) := by
  refine ⟨rfl, rfl, fun other answer => ?_⟩
  cases entry with
  | absent | starting => cases answer
  | running tty pipeStdin =>
    simp only [Stdin.lookUp] at answer
    split at answer <;> cases answer

theorem next_cases (stdin : Stdin) (call : Place) :
    Keeps stdin call (stdin.next choice call) ∨
      ∃ writeId chunk, Sends stdin writeId chunk (stdin.next choice call) := by
  cases call with
  | answered writeId status =>
    left
    cases choice <;> exact ⟨rfl, rfl, fun _ _ => .inl rfl⟩
  | ended =>
    left
    cases choice <;> exact keeps_ended ..
  | close =>
    left
    cases choice <;> exact ⟨rfl, rfl, nofun⟩
  | receive =>
    left
    have step : stdin.next choice .receive = if stdin.received < stdin.sent.length then
        ({ stdin.release with received := stdin.received + 1 }, .ended)
      else (stdin, .receive) := by cases choice <;> rfl
    rw [step]
    split <;> exact ⟨rfl, rfl, nofun⟩
  | execWrite writeId chunk =>
    left
    cases choice with
    | cancel => exact keeps_ended ..
    | go entry =>
      rw [Stdin.next]
      split
      · exact keeps_ended ..
      · exact keeps_lookUp ..
  | check writeId chunk =>
    left
    cases choice with
    | cancel => exact keeps_ended ..
    | go entry =>
      rw [Stdin.next]
      split
      next known => exact ⟨rfl, rfl, fun _ answer => .inr (by cases answer; exact known)⟩
      next => exact ⟨rfl, rfl, nofun⟩
  | reserve writeId chunk =>
    left
    cases choice with
    | cancel => exact keeps_ended ..
    | go entry =>
      rw [Stdin.next]
      split
      · exact keeps_ended ..
      · split <;> exact ⟨rfl, rfl, nofun⟩
  | send writeId chunk =>
    cases choice with
    | cancel => exact .inl ⟨rfl, rfl, nofun⟩
    | go entry =>
      -- the second look at the cache decides whether the permit is used
      rw [Stdin.next]
      split
      next known =>
        exact .inl ⟨rfl, rfl, fun _ answer => .inr (by cases answer; exact known)⟩
      next fresh => exact .inr ⟨writeId, chunk, fresh, rfl, rfl, rfl⟩

theorem Sound.next (sound : Sound ⟨stdin, front ++ call :: back⟩) :
    Sound ⟨(stdin.next choice call).1, front ++ (stdin.next choice call).2 :: back⟩ := by
  obtain ⟨recent, spaced, sent⟩ := sound
  have known : ∀ writeId ∈ stdin.accepted.ids, writeId ∈ stdin.sentIds := by
    intro writeId mem
    rw [recent.ids, mem_toFinset] at mem
    exact recent.suffix.subset mem
  have others : ∀ {writeId place}, .answered writeId .accepted ∈ front ++ place :: back →
      .answered writeId .accepted = place ∨ writeId ∈ stdin.sentIds := by
    intro writeId place mem
    rcases mem_append.mp mem with earlier | later
    · exact .inr (sent writeId (mem_append_left _ earlier))
    · exact (mem_cons.mp later).imp_right fun later =>
        sent writeId (mem_append_right _ (mem_cons_of_mem _ later))
  rcases next_cases choice stdin call with keeps | ⟨writeId, chunk, sends⟩
  · have ids : (stdin.next choice call).1.sentIds = stdin.sentIds :=
      congrArg (map Prod.fst) keeps.sent
    refine ⟨by rwa [keeps.accepted, ids], by rwa [ids], fun writeId mem => ?_⟩
    rw [ids]
    rcases others mem with answer | before
    · rcases keeps.answers writeId answer.symm with same | cached
      · exact sent writeId (by rw [same, ← answer]; exact mem_append_right _ mem_cons_self)
      · exact known writeId cached
    · exact before
  · have ids : (stdin.next choice call).1.sentIds = stdin.sentIds ++ [writeId] := by
      rw [Stdin.sentIds, sends.sent, map_append]
      rfl
    refine ⟨?_, ?_, fun other mem => ?_⟩
    · rw [sends.accepted, ids]
      exact recent.remember sends.fresh
    · rw [ids]
      exact spaced.concat recent sends.fresh
    · rw [ids, mem_append, mem_singleton]
      rcases others mem with answer | before
      · rw [sends.answer] at answer
        cases answer
        exact .inr rfl
      · exact .inl before

theorem Sound.enter {pool : Pool Stdin Place} (sound : Sound pool) (req : Request) :
    Sound { pool with calls := pool.calls ++ [enter req] } := by
  obtain ⟨recent, spaced, sent⟩ := sound
  refine ⟨recent, spaced, fun writeId mem => sent writeId ?_⟩
  cases req <;> simpa [StdinWrites.enter] using mem

/-- A retried write is sent once while its id is kept, and only sent writes are accepted. -/
theorem stdinWrites_run (permits : Nat) (acts : List (Act Request Choice)) :
    Sound (Pool.run stdinWrites ⟨{ permits }, []⟩ acts) :=
  Pool.run_invariant (fun _ request sound => sound.enter request)
    (fun _ _ _ _ choice sound _ => sound.next choice)
    ⟨⟨rfl, nodup_nil, suffix_rfl, rfl⟩, by simp [Spaced, Stdin.sentIds], by simp⟩
    (Pool.along_of_forall fun _ _ _ => trivial)

end Codex.ExecServer.StdinWrites
