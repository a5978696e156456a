import Codex.Foundation.Run
import Mathlib.Data.List.Perm.Basic

/-!
# The residents of the agent control

A reservation takes a candidate out, examines it and may put it back.
-/

namespace Codex.Agent

open List

variable {T : Type} [DecidableEq T]

structure V2ResidencyState (T : Type) where
  residents : List T := []
  pendingSlots : Nat := 0
  deriving DecidableEq

def touchResident (residents : List T) (threadId : T) : List T :=
  residents.filter (· ≠ threadId) ++ [threadId]

/-- The scan of `pop_lru_candidate`, with the residents that remain. -/
def popLruCandidate (protectedId : Option T) : (scans : Nat) → List T → Option T × List T
  | 0, residents => (none, residents)
  | _ + 1, [] => (none, [])
  | scans + 1, candidate :: rest =>
    if some candidate = protectedId then
      popLruCandidate protectedId scans (rest ++ [candidate])
    else (some candidate, rest)

namespace V2ResidencyState

variable (state : V2ResidencyState T)

def tryReservePendingSlot (capacity : Nat) : Option (V2ResidencyState T) :=
  if state.residents.length + state.pendingSlots ≥ capacity then none
  else some { state with pendingSlots := state.pendingSlots + 1 }

def touch (threadId : T) : V2ResidencyState T :=
  { state with residents := touchResident state.residents threadId }

def remove (threadId : T) : V2ResidencyState T :=
  { state with residents := state.residents.filter (· ≠ threadId) }

def releasePendingSlot : V2ResidencyState T :=
  { state with pendingSlots := state.pendingSlots - 1 }

def commitSlot (threadId : T) : V2ResidencyState T :=
  state.releasePendingSlot.touch threadId

end V2ResidencyState

inductive Request (T : Type)
  | reserve (protectedId : Option T)
  | touch (threadId : T)
  | remove (threadId : T)

/-- Where a call stands; a reservation that got its slot holds it until commit or drop. -/
inductive Place (T : Type)
  | reserve (protectedId : Option T)
  | count (protectedId : Option T)
  | scan (protectedId : Option T) (left : Nat)
  | examine (protectedId : Option T) (left : Nat) (candidate : T)
  | slot
  | touch (threadId : T)
  | remove (threadId : T)
  | ended
  deriving DecidableEq

/-- What a candidate turns out to be, or what becomes of a slot. -/
inductive Choice (T : Type)
  | missing
  | kept
  | unloaded
  | commit (threadId : T)
  | drop

def enter : Request T → Place T
  | .reserve protectedId => .reserve protectedId
  | .touch threadId => .touch threadId
  | .remove threadId => .remove threadId

def next (capacity : Nat) (choice : Choice T) (state : V2ResidencyState T) :
    Place T → V2ResidencyState T × Place T
  | .reserve protectedId =>
    match state.tryReservePendingSlot capacity with
    | some reserved => (reserved, .slot)
    | none => (state, .count protectedId)
  | .count protectedId => (state, .scan protectedId state.residents.length)
  | .scan _ 0 => (state, .ended)
  | .scan protectedId (left + 1) =>
    match popLruCandidate protectedId state.residents.length state.residents with
    | (none, residents) => ({ state with residents }, .ended)
    | (some candidate, residents) =>
      ({ state with residents }, .examine protectedId left candidate)
  | .examine protectedId left candidate =>
    match choice with
    | .missing => (state, .scan protectedId left)
    | .kept => (state.touch candidate, .scan protectedId left)
    | .unloaded => (state, .reserve protectedId)
    | .commit _ | .drop => (state, .examine protectedId left candidate)
  | .slot =>
    match choice with
    | .commit threadId => (state.commitSlot threadId, .ended)
    | .drop => (state.releasePendingSlot, .ended)
    | .missing | .kept | .unloaded => (state, .slot)
  | .touch threadId => (state.touch threadId, .ended)
  | .remove threadId => (state.remove threadId, .ended)
  | .ended => (state, .ended)

def residency (capacity : Nat) :
    Program (V2ResidencyState T) (Place T) (Request T) (Choice T) where
  enter
  next := next capacity

def Place.examines : Place T → Bool
  | .examine .. => true
  | _ => false

/-- Residents are touched, and no slot is granted on the room of an examined candidate. -/
def Spare (capacity : Nat) (pool : Pool (V2ResidencyState T) (Place T)) (call : Place T)
    (_ : Choice T) : Prop :=
  let used := pool.shared.residents.length + pool.shared.pendingSlots
  match call with
  | .touch threadId => threadId ∈ pool.shared.residents
  | .reserve _ => used < capacity → used + pool.calls.countP Place.examines < capacity
  | _ => True

instance (capacity : Nat) (pool : Pool (V2ResidencyState T) (Place T)) (call : Place T)
    (choice : Choice T) : Decidable (Spare capacity pool call choice) := by
  cases call <;> dsimp only [Spare] <;> infer_instance

/-- What holds after every run. -/
structure Sound (pool : Pool (V2ResidencyState T) (Place T)) : Prop where
  nodup : pool.shared.residents.Nodup
  slots : pool.shared.pendingSlots = pool.calls.countP (· = .slot)

def Fits (capacity : Nat) (pool : Pool (V2ResidencyState T) (Place T)) : Prop :=
  pool.shared.residents.length + pool.shared.pendingSlots + pool.calls.countP Place.examines ≤
    capacity

variable (residents : List T) (threadId : T)

theorem nodup_touchResident (nodup : residents.Nodup) :
    (touchResident residents threadId).Nodup := by
  rw [touchResident, nodup_append]
  exact ⟨nodup.filter _, by simp, by simp⟩

theorem length_touchResident_le :
    (touchResident residents threadId).length ≤ residents.length + 1 := by
  simpa [touchResident] using length_filter_le ..

theorem length_touchResident_of_mem (mem : threadId ∈ residents) :
    (touchResident residents threadId).length ≤ residents.length := by
  rw [touchResident, length_append]
  exact length_filter_lt_length_iff_exists.mpr ⟨threadId, mem, by simp⟩

theorem popLruCandidate_perm (protectedId : Option T) (scans : Nat) :
    let popped := popLruCandidate protectedId scans residents
    (popped.1.toList ++ popped.2).Perm residents := by
  fun_induction popLruCandidate protectedId scans residents with
  | case1 | case2 | case4 => exact .refl _
  | case3 scans cand tl _ ih => exact ih.trans (perm_append_singleton cand tl)

theorem popped_cases (protectedId : Option T) (scans : Nat) {popped : Option T}
    {tl : List T} (res : popLruCandidate protectedId scans residents = (popped, tl)) :
    tl.length + popped.toList.length = residents.length ∧
      (residents.Nodup → tl.Nodup) := by
  have perm := popLruCandidate_perm residents protectedId scans
  rw [res] at perm
  refine ⟨?_, fun nodup => (nodup_append.mp (perm.nodup_iff.mpr nodup)).2.1⟩
  rw [← perm.length_eq, length_append, Nat.add_comm]

variable {capacity : Nat} {state : V2ResidencyState T} {front back : List (Place T)}
  {call : Place T} (choice : Choice T)

open V2ResidencyState

theorem Sound.next (sound : Sound ⟨state, front ++ call :: back⟩) :
    let after := next capacity choice state call
    Sound ⟨after.1, front ++ after.2 :: back⟩ := by
  obtain ⟨nodup, slots⟩ := sound
  simp only [countP_append, countP_cons] at slots
  constructor
  · fun_cases Agent.next capacity choice state call with
    | case1 _ _ granted => grind [tryReservePendingSlot]
    | case5 _ _ _ _ popped | case6 _ _ _ _ _ popped => exact (popped_cases _ _ _ popped).2 nodup
    | case8 | case12 | case17 => exact nodup_touchResident _ _ nodup
    | case18 => exact nodup.filter _
    | _ => exact nodup
  · simp only [countP_append, countP_cons]
    -- The slots change by a grant, a commit and a drop.
    fun_cases Agent.next capacity choice state call with
    | case1 _ _ granted => grind [tryReservePendingSlot]
    | case12 => grind [commitSlot, releasePendingSlot, touch]
    | case13 => grind [releasePendingSlot]
    | _ => exact slots

theorem Fits.next (sound : Sound ⟨state, front ++ call :: back⟩)
    (fits : Fits capacity ⟨state, front ++ call :: back⟩)
    (spare : Spare capacity ⟨state, front ++ call :: back⟩ call choice) :
    let after := next capacity choice state call
    Fits capacity ⟨after.1, front ++ after.2 :: back⟩ := by
  have slots := sound.slots
  simp only [Fits, Spare, countP_append, countP_cons] at fits slots spare ⊢
  fun_cases Agent.next capacity choice state call with
  | case1 _ _ granted => grind [tryReservePendingSlot, Place.examines]
  | case5 _ _ _ _ popped | case6 _ _ _ _ _ popped =>
    have shorter := (popped_cases _ _ _ popped).1
    grind [Place.examines]
  | case8 => grind [touch, length_touchResident_le, Place.examines]
  | case12 => grind [commitSlot, releasePendingSlot, touch, length_touchResident_le, Place.examines]
  | case13 => grind [releasePendingSlot, Place.examines]
  | case17 => grind [touch, length_touchResident_of_mem, Place.examines]
  | case18 => grind [remove, Place.examines]
  | _ => grind [Place.examines]

variable {pool : Pool (V2ResidencyState T) (Place T)} (req : Request T)

theorem Sound.enter (sound : Sound pool) :
    Sound { pool with calls := pool.calls ++ [enter req] } := by
  obtain ⟨nodup, slots⟩ := sound
  refine ⟨nodup, ?_⟩
  cases req <;> simpa [Agent.enter] using slots

omit [DecidableEq T] in
theorem Fits.enter (fits : Fits capacity pool) :
    Fits capacity { pool with calls := pool.calls ++ [enter req] } := by
  cases req <;> simpa [Fits, Agent.enter, Place.examines] using fits

variable (acts : List (Act (Request T) (Choice T)))

open Pool

theorem sound_run : Sound (run (residency capacity) ⟨{}, []⟩ acts) :=
  run_invariant (fun _ req sound => sound.enter req)
    (fun _ _ _ _ choice sound _ => sound.next choice) ⟨nodup_nil, rfl⟩
    (along_of_forall fun _ _ _ => trivial)

theorem fits_run (along : Along (residency capacity) (Spare capacity) ⟨{}, []⟩ acts) :
    Fits capacity (run (residency capacity) ⟨{}, []⟩ acts) :=
  (run_invariant (I := fun pool => Sound pool ∧ Fits capacity pool)
    (fun _ req holds => ⟨holds.1.enter req, holds.2.enter req⟩)
    (fun _ _ _ _ choice holds spare => ⟨holds.1.next choice, holds.2.next choice holds.1 spare⟩)
    ⟨⟨nodup_nil, rfl⟩, by simp [Fits]⟩ along).2

/-- Reserved slots are those that calls hold: none is lost, and none is given back twice. -/
theorem pendingSlots_run (capacity : Nat) :
    (Pool.run (residency capacity) ⟨{}, []⟩ acts).shared.pendingSlots =
      (Pool.run (residency capacity) ⟨{}, []⟩ acts).calls.countP (· = .slot) :=
  (sound_run acts).slots

/-- Residents are distinct, and within capacity unless a slot takes a candidate's room. -/
theorem residency_run (capacity : Nat) :
    (Pool.run (residency capacity) ⟨{}, []⟩ acts).shared.residents.Nodup ∧
      (Pool.Along (residency capacity) (Spare capacity) ⟨{}, []⟩ acts →
        let state := (Pool.run (residency capacity) ⟨{}, []⟩ acts).shared
        state.residents.length + state.pendingSlots ≤ capacity) :=
  ⟨(sound_run acts).nodup, fun along => Nat.le_of_add_right_le (fits_run acts along)⟩

/-- A resident is taken out, its room is reserved, and it is put back. -/
def putBack : List (Act (Request Nat) (Choice Nat)) :=
  [.start (.reserve none), .step 0 .drop, .step 0 (.commit 7), .start (.reserve none),
    .step 1 .drop, .step 1 .drop, .step 1 .drop, .start (.reserve none), .step 2 .drop,
    .step 1 .kept]

/-- A slot is reserved with room left for it, and committed. -/
theorem residency_run_commit :
    let state := (Pool.run (residency 1) ⟨{}, []⟩ (putBack.take 3)).shared
    state.residents = [7] ∧ state.residents.length + state.pendingSlots ≤ 1 :=
  ⟨by decide, (residency_run (putBack.take 3) 1).2 (by decide)⟩

theorem putBack_exceeds :
    let state := (Pool.run (residency 1) ⟨{}, []⟩ putBack).shared
    state = ⟨[7], 1⟩ ∧ 1 < state.residents.length + state.pendingSlots := by
  decide

end Codex.Agent
