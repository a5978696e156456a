import Codex.Foundation.Run
import Mathlib.Data.Finset.Card

/-!
# The readiness flag

Readiness is published by a flag and then by a watch channel.
-/

namespace Codex.Readiness

open List

inductive ReadinessError
  | tokenLockFailed
  | flagAlreadyReady
  deriving DecidableEq

abbrev Token := Int32

/-- The fields of the flag, with the value, version and receiver count of its channel. -/
structure ReadinessFlag where
  ready : Bool := false
  nextId : Int32 := 1
  tokens : Finset Token := ∅
  value : Bool := false
  version : Nat := 0
  receivers : Nat := 0

inductive Request
  | isReady
  | subscribe
  | markReady (token : Token)
  | waitReady

/-- Where a call stands; `isReady` and what follows it know whether `wait_ready` asks. -/
inductive Place
  | isReady (wait : Bool)
  | tryLock (wait : Bool)
  | reload (wait : Bool)
  | readySend (wait : Bool)
  | answered (ready : Bool)
  | subscribe
  | subscribeLock
  | subscribed (result : Except ReadinessError Token)
  | markReady (token : Token)
  | markLock (token : Token)
  | markSend
  | marked (result : Except ReadinessError Bool)
  | watch
  | borrow (seen : Nat)
  | changed (seen : Nat)
  | waited
  deriving DecidableEq

def enter : Request → Place
  | .isReady => .isReady false
  | .subscribe => .subscribe
  | .markReady token => .markReady token
  | .waitReady => .isReady true

def answer (wait ready : Bool) : Place :=
  match wait, ready with
  | false, ready => .answered ready
  | true, true => .waited
  | true, false => .watch

namespace ReadinessFlag

variable (flag : ReadinessFlag)

def send : ReadinessFlag :=
  if flag.receivers = 0 then flag else { flag with value := true, version := flag.version + 1 }

/-- The loop of `subscribe`; it passes each token of the set at most once. -/
def nextToken : (fuel : Nat) → Int32 → Option (Token × Int32)
  | 0, _ => none
  | fuel + 1, id =>
    if id ≠ 0 ∧ id ∉ flag.tokens then some (id, id + 1) else nextToken fuel (id + 1)

/-- One step of a call; `locked` tells whether it gets the lock that it asks for. -/
def next (locked : Bool) : Place → ReadinessFlag × Place
  | .isReady wait => (flag, if flag.ready then answer wait true else .tryLock wait)
  | .tryLock wait =>
    if locked ∧ flag.tokens = ∅ then
      ({ flag with ready := true }, if flag.ready then answer wait true else .readySend wait)
    else (flag, .reload wait)
  | .reload wait => (flag, answer wait flag.ready)
  | .readySend wait => (flag.send, answer wait true)
  | .subscribe =>
    (flag, if flag.ready then .subscribed (.error .flagAlreadyReady) else .subscribeLock)
  | .subscribeLock =>
    if !locked then (flag, .subscribed (.error .tokenLockFailed))
    else if flag.ready then (flag, .subscribed (.error .flagAlreadyReady))
    else match flag.nextToken (flag.tokens.card + 2) flag.nextId with
      | none => (flag, .subscribeLock)
      | some (token, nextId) =>
        ({ flag with tokens := insert token flag.tokens, nextId }, .subscribed (.ok token))
  | .markReady token =>
    (flag, if flag.ready ∨ token = 0 then .marked (.ok false) else .markLock token)
  | .markLock token =>
    if !locked then (flag, .marked (.error .tokenLockFailed))
    else if token ∈ flag.tokens then ({ flag with ready := true, tokens := ∅ }, .markSend)
    else (flag, .marked (.ok false))
  | .markSend => (flag.send, .marked (.ok true))
  | .watch => ({ flag with receivers := flag.receivers + 1 }, .borrow flag.version)
  | .borrow seen =>
    if flag.value then ({ flag with receivers := flag.receivers - 1 }, .waited)
    else (flag, .changed seen)
  | .changed seen =>
    if flag.version = seen then (flag, .changed seen)
    else if flag.value then ({ flag with receivers := flag.receivers - 1 }, .waited)
    else (flag, .changed flag.version)
  | .answered ready => (flag, .answered ready)
  | .subscribed result => (flag, .subscribed result)
  | .marked result => (flag, .marked result)
  | .waited => (flag, .waited)

end ReadinessFlag

open ReadinessFlag

def readiness : Program ReadinessFlag Place Request Bool where
  enter
  next locked flag place := flag.next locked place

/-- The call has set the flag and not yet sent. -/
def Place.sends : Place → Bool
  | .markSend | .readySend _ => true
  | _ => false

def Place.receives : Place → Bool
  | .borrow _ | .changed _ => true
  | _ => false

/-- The call is a `mark_ready` that returns true. -/
def Place.marks (place : Place) : Bool :=
  place = .markSend ∨ place = .marked (.ok true)

abbrev Place.Plain (place : Place) : Prop :=
  place.sends = false ∧ place.receives = false ∧ place.marks = false

abbrev Calls := Pool ReadinessFlag Place

/-- The flag is set, and the call that set it has finished. -/
def Settled (pool : Calls) : Prop :=
  pool.shared.ready = true ∧ ∀ call ∈ pool.calls, call.sends = false

/-- A `wait_ready` call waits for a change of the channel. -/
def Blocked (pool : Calls) : Prop := .changed pool.shared.version ∈ pool.calls

/-- A send without a receiver finds no call between its check and its subscription. -/
def Heard (pool : Calls) (call : Place) (_ : Bool) : Prop :=
  call.sends = true → pool.shared.receivers = 0 → .watch ∉ pool.calls

instance (pool : Calls) (call : Place) (locked : Bool) : Decidable (Heard pool call locked) :=
  inferInstanceAs (Decidable (_ → _ → _))

variable {flag : ReadinessFlag} {front back : List Place} {call : Place}

/-- What holds after every run. -/
structure Sound (pool : Calls) : Prop where
  tokens : pool.shared.ready = true → pool.shared.tokens = ∅
  marks : pool.calls.countP Place.marks ≤ if pool.shared.ready then 1 else 0
  receivers : pool.shared.receivers = pool.calls.countP Place.receives
  version : pool.shared.version = 0 ↔ pool.shared.value = false
  changed : ∀ seen, .changed seen ∈ pool.calls → seen = 0
  borrow : ∀ seen, .borrow seen ∈ pool.calls → seen ≤ pool.shared.version

theorem plain_enter (req : Request) : (enter req).Plain ∧ enter req ≠ .watch := by
  cases req <;> exact ⟨⟨rfl, rfl, rfl⟩, by simp [enter]⟩

theorem Sound.enter {pool : Calls} (sound : Sound pool) (req : Request) :
    Sound { pool with calls := pool.calls ++ [enter req] } := by
  obtain ⟨tokens, marks, receivers, version, changed, borrow⟩ := sound
  obtain ⟨⟨-, deaf, unmarked⟩, -⟩ := plain_enter req
  refine ⟨tokens, by simpa [unmarked] using marks, by simpa [deaf] using receivers, version,
    fun seen mem => changed seen ?_, fun seen mem => borrow seen ?_⟩
  all_goals
    refine (mem_append.mp mem).resolve_right fun last => ?_
    rw [← mem_singleton.mp last] at deaf
    cases deaf

/-- Once the call that sets the flag has finished, an untold channel has no receiver to come. -/
def Informed (pool : Calls) : Prop :=
  Settled pool → pool.shared.value = false → .watch ∉ pool.calls ∧ pool.shared.receivers = 0

theorem plain_answer : ∀ wait ready, (answer wait ready).Plain := by decide

theorem send_eq : flag.send.ready = flag.ready ∧ flag.send.tokens = flag.tokens ∧
    flag.send.receivers = flag.receivers := by
  rw [send]
  split <;> exact ⟨rfl, rfl, rfl⟩

theorem ready_next (set : flag.ready = true) (locked : Bool) :
    (flag.next locked call).1.ready = true := by
  fun_cases ReadinessFlag.next flag locked call with
  | case2 | case13 => rfl
  | case5 | case15 => exact send_eq.1.trans set
  | _ => exact set

open Place Pool

section

variable (sound : Sound ⟨flag, front ++ call :: back⟩) (locked : Bool)
include sound

theorem tokens_next :
    let after := flag.next locked call
    (after.1.ready = true → after.1.tokens = ∅) ∧
      (after.2.marks = true → call.marks = true ∨ flag.ready = false ∧ after.1.ready = true) := by
  have tokens := sound.tokens
  fun_cases ReadinessFlag.next flag locked call with
  | case5 | case15 => grind [plain_answer, marks, send_eq]
  | case13 => grind [marks]
  | _ => grind [plain_answer, marks]

theorem marks_next :
    let after := flag.next locked call
    (front ++ after.2 :: back).countP Place.marks ≤ if after.1.ready then 1 else 0 := by
  have marks := sound.marks
  have sets := (tokens_next sound locked).2
  have stays : flag.ready = true → (flag.next locked call).1.ready = true :=
    (ready_next · locked)
  simp only [countP_append, countP_cons] at marks ⊢
  grind -linarith

theorem receivers_next :
    let after := flag.next locked call
    after.1.receivers = (front ++ after.2 :: back).countP receives := by
  have receivers := sound.receivers
  simp only [countP_append, countP_cons] at receivers ⊢
  fun_cases ReadinessFlag.next flag locked call with
  | case5 | case15 => grind [plain_answer, receives, send_eq]
  | case16 | case17 | case20 => grind [receives]
  | _ => grind [plain_answer, receives]

theorem version_next :
    let after := flag.next locked call
    (after.1.version = 0 ↔ after.1.value = false) ∧ flag.version ≤ after.1.version := by
  fun_cases ReadinessFlag.next flag locked call with
  | case5 | case15 => grind [send, sound.version]
  | _ => exact ⟨sound.version, Nat.le_refl _⟩

theorem seen_next :
    (∀ seen, (flag.next locked call).2 = .changed seen → seen = 0) ∧
      ∀ seen, (flag.next locked call).2 = .borrow seen → seen ≤ flag.version := by
  have version := sound.version
  have changed : ∀ seen, call = .changed seen → seen = 0 :=
    fun seen is => sound.changed seen (by simp [is])
  have borrow : ∀ seen, call = .borrow seen → seen ≤ flag.version :=
    fun seen is => sound.borrow seen (by simp [is])
  fun_cases ReadinessFlag.next flag locked call with
  | case16 | case18 | case19 | case21 => grind
  | _ => grind [plain_answer, receives]

theorem Sound.next :
    let after := flag.next locked call
    Sound ⟨after.1, front ++ after.2 :: back⟩ := by
  obtain ⟨version, grows⟩ := version_next sound locked
  have seen := seen_next sound locked
  have changed := sound.changed
  have borrow := sound.borrow
  refine ⟨(tokens_next sound locked).1, marks_next sound locked, receivers_next sound locked,
    version, ?_, ?_⟩ <;>
    simp only [mem_append, mem_cons] at changed borrow ⊢ <;> grind -linarith

theorem Informed.next (informed : Informed ⟨flag, front ++ call :: back⟩)
    (heard : Heard ⟨flag, front ++ call :: back⟩ call locked) :
    Informed ⟨(flag.next locked call).1, front ++ (flag.next locked call).2 :: back⟩ := by
  have receivers := sound.receivers
  intro settled untold
  simp only [Settled, mem_append, mem_cons] at settled
  have earlier : flag.ready = true → flag.value = false → call.sends = false → _ :=
    fun set untold silent => informed ⟨set, by grind⟩ untold
  obtain ⟨set, others⟩ := settled
  have silent := others (flag.next locked call).2 (.inr (.inl rfl))
  simp only [Heard, mem_append, mem_cons, countP_append, countP_cons] at earlier heard receivers ⊢
  have unset : ∀ wait ready, answer wait ready = .watch → ready = false := by decide
  have tokens := sound.tokens
  cases call <;> simp only [ReadinessFlag.next] at set silent untold ⊢ <;> (repeat' split) <;>
    grind -linarith [plain_answer, receives, sends, send]

end

theorem Informed.not_blocked {pool : Calls} (sound : Sound pool) (informed : Informed pool)
    (settled : Settled pool) : ¬ Blocked pool := by
  intro blocked
  have untold := sound.version.mp (sound.changed _ blocked)
  have none := sound.receivers.symm.trans (informed settled untold).2
  exact countP_eq_zero.mp none _ blocked rfl

section

variable (acts : List (Act Request Bool))

theorem sound_run : Sound (run readiness ⟨{}, []⟩ acts) :=
  run_invariant (fun _ req sound => sound.enter req)
    (fun _ _ _ _ locked sound _ => sound.next locked)
    ⟨by simp, by simp, rfl, by simp, by simp, by simp⟩ (along_of_forall fun _ _ _ => trivial)

theorem ready_run {pool : Calls} (set : pool.shared.ready = true) :
    (run readiness pool acts).shared.ready = true :=
  run_invariant (I := fun pool : Calls => pool.shared.ready = true) (fun _ _ set => set)
    (fun _ _ _ _ locked set _ => ready_next set locked) set
    (along_of_forall fun _ _ _ => trivial)

theorem informed_run (along : Along readiness Heard ⟨{}, []⟩ acts) :
    Informed (run readiness ⟨{}, []⟩ acts) := by
  suffices both : Sound (run readiness ⟨{}, []⟩ acts) ∧ _ from both.2
  refine run_invariant (I := fun pool => Sound pool ∧ Informed pool)
    (fun pool req ⟨sound, informed⟩ => ⟨sound.enter req, fun settled untold => ?_⟩)
    (fun _ _ _ _ locked ⟨sound, informed⟩ heard =>
      ⟨sound.next locked, informed.next sound locked heard⟩) ?_ along
  · obtain ⟨absent, none⟩ :=
      informed ⟨settled.1, fun call mem => settled.2 call (mem_append_left _ mem)⟩ untold
    exact ⟨by simpa [absent, readiness] using (plain_enter req).2.symm, none⟩
  · exact ⟨sound_run [], by simp [Informed, Settled]⟩

/-- The flag stays set, one `mark_ready` sets it, and no waiter misses a send that is heard. -/
theorem readiness_run :
    (Pool.run readiness ⟨{}, []⟩ acts).calls.count (.marked (.ok true)) ≤ 1 ∧
      (∀ (pool : Calls) more,
        pool.shared.ready = true → (Pool.run readiness pool more).shared.ready = true) ∧
      (Pool.Along readiness Heard ⟨{}, []⟩ acts →
        Settled (Pool.run readiness ⟨{}, []⟩ acts) →
          ¬ Blocked (Pool.run readiness ⟨{}, []⟩ acts)) := by
  have sound := sound_run acts
  refine ⟨?_, fun _ more => ready_run more,
    fun along => (informed_run acts along).not_blocked sound⟩
  have marked : count (.marked (.ok true)) (run readiness ⟨{}, []⟩ acts).calls ≤
      countP marks (run readiness ⟨{}, []⟩ acts).calls :=
    countP_mono_left fun call _ same => by simp [marks, eq_of_beq same]
  exact (marked.trans sound.marks).trans (by split <;> decide)

end

/-- The waiter subscribes before the flag is marked, and is woken. -/
def earlyWaiter : List (Act Request Bool) :=
  [.start .subscribe, .step 0 true, .step 0 true, .start .waitReady, .step 1 true, .step 1 true,
    .step 1 true, .step 1 true, .step 1 true, .start (.markReady 1), .step 2 true, .step 2 true,
    .step 2 true]

theorem readiness_run_earlyWaiter : ¬ Blocked (Pool.run readiness ⟨{}, []⟩ earlyWaiter) :=
  (readiness_run earlyWaiter).2.2 (by decide) ⟨by decide, by decide⟩

/-- A waiter checks the flag, the flag is marked, and then the waiter subscribes. -/
def lateWaiter : List (Act Request Bool) :=
  [.start .subscribe, .step 0 true, .step 0 true, .start .waitReady, .step 1 true, .step 1 true,
    .step 1 true, .start (.markReady 1), .step 2 true, .step 2 true, .step 2 true, .step 1 true,
    .step 1 true]

theorem lateWaiter_blocks :
    Settled (Pool.run readiness ⟨{}, []⟩ lateWaiter) ∧
      Blocked (Pool.run readiness ⟨{}, []⟩ lateWaiter) := by
  have calls : (run readiness ⟨{}, []⟩ lateWaiter).calls =
      [.subscribed (.ok 1), .changed 0, .marked (.ok true)] := by decide
  refine ⟨⟨by decide, ?_⟩, ?_⟩
  · rw [calls]
    decide
  · rw [Blocked, calls]
    decide

/-- The call has set the flag or found it set. -/
def Place.tells (place : Place) : Bool :=
  place.sends ∨ place = .answered true ∨ place = .marked (.ok true) ∨ place = .waited

theorem tells_next (locked : Bool)
    (told : flag.value = false ∧ call.tells = false) :
    let after := flag.next locked call
    after.1.ready = true ∨ after.1.value = false ∧ after.2.tells = false := by
  have answers : ∀ wait ready, (answer wait ready).tells = true → ready = true := by decide
  cases call <;> simp only [ReadinessFlag.next] <;> (repeat' split) <;>
    grind -linarith [tells, sends]

/-- No call reports the flag as set, and no waiter returns, before it is set. -/
theorem readiness_told (acts : List (Act Request Bool)) :
    (run readiness ⟨{}, []⟩ acts).shared.ready = true ∨
      (run readiness ⟨{}, []⟩ acts).calls.countP Place.tells = 0 := by
  suffices told : _ ∨ (run readiness ⟨{}, []⟩ acts).shared.value = false ∧ _ from
    told.imp_right And.right
  refine run_invariant (I := fun pool : Calls => pool.shared.ready = true ∨
      pool.shared.value = false ∧ pool.calls.countP tells = 0)
    (fun _ req => .imp_right fun told => ?_) (fun flag _ call _ locked told _ => ?_)
    (.inr ⟨rfl, rfl⟩) (along_of_forall fun _ _ _ => trivial)
  · cases req <;> simpa [readiness, enter, tells, sends] using told
  · have next : flag.value = false ∧ call.tells = false → _ := tells_next locked
    have set : flag.ready = true → (flag.next locked call).1.ready = true := (ready_next · locked)
    simp only [countP_append, countP_cons, readiness] at told next ⊢
    grind -linarith

def Place.token? : Place → Option Token
  | .subscribed (.ok token) => some token
  | _ => none

def given (pool : Calls) : List Token := pool.calls.filterMap token?

/-- Tokens given to calls are distinct, not zero, and kept until the flag is set. -/
def Tracked (pool : Calls) : Prop :=
  (0 :: given pool).Nodup ∧
    ∀ token ∈ given pool, pool.shared.ready = false → token ∈ pool.shared.tokens

theorem token_next (flag : ReadinessFlag) (call : Place) (locked : Bool) :
    let after := flag.next locked call
    (after.1.ready = true ∨ flag.ready = false ∧ flag.tokens ⊆ after.1.tokens) ∧
      (after.2.token? = call.token? ∨ flag.ready = false ∧ call.token? = none ∧
        ∃ token ∈ after.1.tokens, after.2.token? = some token ∧ token ≠ 0 ∧
          token ∉ flag.tokens) := by
  have answers : ∀ wait ready, (answer wait ready).token? = none := by decide
  have fresh fuel : ∀ id res, flag.nextToken fuel id = some res →
      res.1 ≠ 0 ∧ res.1 ∉ flag.tokens := by
    induction fuel <;> grind [nextToken]
  cases call <;> simp only [ReadinessFlag.next] <;> (repeat' split) <;>
    grind -linarith [token?, send]

/-- No two `subscribe` calls ever get one token, and none gets zero. -/
theorem subscribe_distinct (acts : List (Act Request Bool)) :
    (0 :: given (run readiness ⟨{}, []⟩ acts)).Nodup := by
  refine (run_invariant (I := Tracked) (fun _ req tracked => ?_)
    (fun flag _ call _ locked tracked _ => ?_) (by simp [Tracked, given])
    (along_of_forall fun _ _ _ => trivial)).1
  · have none : (enter req).token? = none := by cases req <;> rfl
    simpa [Tracked, given, readiness, none] using tracked
  · have next := token_next flag call locked
    simp only [Tracked, given, readiness, filterMap_append, filterMap_cons] at tracked next ⊢
    grind -linarith

end Codex.Readiness
