import Mathlib.Data.List.Basic

/-!
# Pre- and postconditions

Rules for computations that update a state and may fail, and for loops.
-/

namespace Codex

universe u

variable {ε σ α β : Type u}

/-- A returned value satisfies `post` and a failure `failed`, with their states. -/
def Triple (pre : σ → Prop) (program : EStateM ε σ α) (post : α → σ → Prop)
    (failed : ε → σ → Prop) : Prop :=
  ∀ st, pre st →
    match program st with
    | .ok value next => post value next
    | .error failure next => failed failure next

def finalState : EStateM.Result ε σ α → σ
  | .ok _ st | .error _ st => st

def attempt {ε' : Type u} (program : EStateM ε σ α) : EStateM ε' σ (Except ε α) := fun st =>
  match program st with
  | .ok value next => .ok (.ok value) next
  | .error failure next => .ok (.error failure) next

def mapError {ε' : Type u} (translate : ε → ε') (program : EStateM ε σ α) : EStateM ε' σ α :=
  fun st =>
    match program st with
    | .ok value next => .ok value next
    | .error failure next => .error (translate failure) next

def zoom {τ : Type u} (view : σ → τ) (put : τ → σ → σ) (program : EStateM ε τ α) :
    EStateM ε σ α := fun st =>
  match program (view st) with
  | .ok value next => .ok value (put next st)
  | .error failure next => .error failure (put next st)

def liftExcept : Except ε α → EStateM ε σ α
  | .ok value => fun st => .ok value st
  | .error failure => fun st => .error failure st

theorem liftExcept_ok_bind (value : α) (next : α → EStateM ε σ β) :
    (liftExcept (.ok value) >>= next) = next value :=
  rfl

theorem forM_append {ι : Type*} (front back : List ι) (body : ι → EStateM ε σ PUnit) :
    (front ++ back).forM body = front.forM body >>= fun _ => back.forM body :=
  List.forM_append

namespace Triple

variable {pre pre' : σ → Prop} {post post' : α → σ → Prop} {failed failed' : ε → σ → Prop}
  {value : α} {failure : ε} {fst : EStateM ε σ α} {next : α → EStateM ε σ β}
  {st after : σ} {ε' : Type u} {program : EStateM ε σ α} {ι : Type*} {xs : List ι}
  {body : ι → EStateM ε σ PUnit}

theorem pure (holds : ∀ st, pre st → post value st) :
    Triple pre (Pure.pure value : EStateM ε σ α) post failed :=
  holds

theorem throw (holds : ∀ st, pre st → failed failure st) :
    Triple pre (throwThe ε failure : EStateM ε σ α) post failed :=
  holds

theorem modify {update : σ → σ} {post : PUnit → σ → Prop}
    (holds : ∀ st, pre st → post ⟨⟩ (update st)) :
    Triple pre (modifyThe σ update : EStateM ε σ PUnit) post failed :=
  holds

theorem bind {middle : α → σ → Prop} {post : β → σ → Prop} (head : Triple pre fst middle failed)
    (tail : ∀ value, Triple (middle value) (next value) post failed) :
    Triple pre (fst >>= next) post failed := by
  intro st holds
  have reached := head st holds
  change match EStateM.bind fst next st with
    | .ok value after => post value after
    | .error failure after => failed failure after
  unfold EStateM.bind
  cases res : fst st with
  | ok value after =>
    rw [res] at reached
    exact tail value after reached
  | error failure after =>
    rw [res] at reached
    exact reached

theorem bind_ok {post : β → σ → Prop} (ran : fst st = .ok value after)
    (tail : Triple (· = after) (next value) post failed) :
    Triple (· = st) (fst >>= next) post failed := by
  have head : Triple (· = st) fst (fun res reached => res = value ∧ reached = after)
      failed := by
    intro start eq
    rw [eq, ran]
    exact ⟨rfl, rfl⟩
  refine bind head fun res reached ⟨eq, sameState⟩ => ?_
  rw [eq]
  exact tail reached sameState

theorem bind_error {post : β → σ → Prop} (ran : fst st = .error failure after)
    (holds : failed failure after) : Triple (· = st) (fst >>= next) post failed := by
  have head : Triple (· = st) fst (fun _ _ => False) failed := by
    intro start eq
    rw [eq, ran]
    exact holds
  exact bind head fun _ _ never => never.elim

theorem read {next : σ → EStateM ε σ α}
    (triples : ∀ st, pre st → Triple (· = st) (next st) post failed) :
    Triple pre (getThe σ >>= next) post failed :=
  fun st holds => triples st holds st rfl

variable {next : PUnit → EStateM ε σ α}

theorem write {value : σ} (triple : Triple (· = value) (next ⟨⟩) post failed) :
    Triple pre (set value >>= next) post failed :=
  fun _ _ => triple value rfl

theorem update (middle : σ → Prop) {change : σ → σ} (holds : ∀ st, pre st → middle (change st))
    (triple : Triple middle (next ⟨⟩) post failed) :
    Triple pre (modifyThe σ change >>= next) post failed :=
  fun st start => triple (change st) (holds st start)

theorem attempt {failed' : ε' → σ → Prop} (triple : Triple pre program post failed) :
    Triple pre (Codex.attempt program)
      (fun res st =>
        match res with
        | .ok value => post value st
        | .error failure => failed failure st) failed' := by
  intro st holds
  have reached := triple st holds
  unfold Codex.attempt
  cases res : program st <;> rw [res] at reached <;> exact reached

theorem mapError {translate : ε → ε'} {failed : ε' → σ → Prop}
    (triple : Triple pre program post (fun failure => failed (translate failure))) :
    Triple pre (Codex.mapError translate program) post failed := by
  intro st holds
  have reached := triple st holds
  unfold Codex.mapError
  cases res : program st <;> rw [res] at reached <;> exact reached

theorem zoom {τ : Type u} {view : σ → τ} {put : τ → σ → σ} {program : EStateM ε τ α}
    (triple : ∀ st, pre st → Triple (· = view st) program
      (fun value part => post value (put part st))
      (fun failure part => failed failure (put part st))) :
    Triple pre (Codex.zoom view put program) post failed := by
  intro st holds
  have reached := triple st holds (view st) rfl
  unfold Codex.zoom
  cases res : program (view st) <;> rw [res] at reached <;> exact reached

theorem liftExcept {res : Except ε α} :
    Triple pre (Codex.liftExcept res) (fun value st => pre st ∧ res = .ok value)
      (fun failure st => pre st ∧ res = .error failure) := by
  intro st holds
  cases res with
  | ok | error => exact ⟨holds, rfl⟩

section

variable (triple : Triple pre program post failed)
include triple

theorem consequence (weaker : ∀ st, pre' st → pre st)
    (stronger : ∀ value st, post value st → post' value st)
    (failedStronger : ∀ failure st, failed failure st → failed' failure st) :
    Triple pre' program post' failed' := by
  intro st holds
  have reached := triple st (weaker st holds)
  cases res : program st with
  | ok value after =>
    rw [res] at reached
    exact stronger value after reached
  | error failure after =>
    rw [res] at reached
    exact failedStronger failure after reached

theorem weaken (stronger : ∀ value st, post value st → post' value st) :
    Triple pre program post' failed :=
  triple.consequence (fun _ holds => holds) stronger fun _ _ holds => holds

theorem narrow (weaker : ∀ st, pre' st → pre st) : Triple pre' program post failed :=
  triple.consequence weaker (fun _ _ holds => holds) fun _ _ holds => holds

theorem weakenFailed (stronger : ∀ failure st, failed failure st → failed' failure st) :
    Triple pre program post failed' :=
  triple.consequence (fun _ holds => holds) (fun _ _ holds => holds) stronger

theorem startAt (start : pre st) : Triple (· = st) program post failed :=
  triple.narrow fun _ eq => eq ▸ start

end

theorem assume {fact : Prop} (triple : fact → Triple pre program post failed) :
    Triple (fun st => pre st ∧ fact) program post failed :=
  fun st holds => triple holds.2 st holds.1

theorem choose {ι : Sort*} {pre : ι → σ → Prop}
    (triples : ∀ idx, Triple (pre idx) program post failed) :
    Triple (fun st => ∃ idx, pre idx st) program post failed :=
  fun st ⟨idx, holds⟩ => triples idx st holds

theorem finalState {holds : σ → Prop}
    (triple : Triple pre program (fun _ => holds) (fun _ => holds)) (start : pre st) :
    holds (Codex.finalState (program st)) := by
  have reached := triple st start
  cases res : program st <;> rw [res] at reached <;> exact reached

theorem forM_front (inv : List ι → σ → Prop)
    (rounds : ∀ front x back, xs = front ++ x :: back →
      Triple (inv front) (body x) (fun _ => inv (front ++ [x])) failed) :
    Triple (inv []) (xs.forM body) (fun _ => inv xs) failed := by
  suffices general : ∀ front back, xs = front ++ back →
      Triple (inv front) (back.forM body) (fun _ => inv xs) failed from
    general [] xs rfl
  intro front back
  induction back generalizing front with
  | nil =>
    intro split
    rw [split, List.append_nil]
    exact pure fun _ holds => holds
  | cons x back ih =>
    intro split
    refine bind (rounds front x back split) fun _ => ?_
    exact ih (front ++ [x]) (by rw [split, List.append_assoc]; rfl)

theorem forM {inv : σ → Prop} (rounds : ∀ x ∈ xs, Triple inv (body x) (fun _ => inv) failed) :
    Triple inv (xs.forM body) (fun _ => inv) failed :=
  forM_front (fun _ => inv) fun front x back split => rounds x (by simp [split])

theorem foldlM {ι : Type*} {xs : List ι} {body : β → ι → EStateM ε σ β} {value : β}
    {inv : List ι → β → σ → Prop}
    (rounds : ∀ front x back, xs = front ++ x :: back → ∀ value,
      Triple (inv front value) (body value x) (inv (front ++ [x])) failed) :
    Triple (inv [] value) (xs.foldlM body value) (inv xs) failed := by
  suffices general : ∀ front back value, xs = front ++ back →
      Triple (inv front value) (back.foldlM body value) (inv xs) failed from
    general [] xs value rfl
  intro front back
  induction back generalizing front with
  | nil =>
    intro value split
    rw [split, List.append_nil]
    exact pure fun _ holds => holds
  | cons x back ih =>
    intro value split
    refine bind (rounds front x back split value) fun next => ?_
    exact ih (front ++ [x]) next (by rw [split, List.append_assoc]; rfl)

theorem of_ok (triple : Triple pre program post failed) {next : σ} (start : pre st)
    (ran : program st = .ok value next) : post value next := by
  have reached := triple st start
  rwa [ran] at reached

end Triple

variable {σ : Type*}

/-- Repeat a partial step until it is impossible, at most `fuel` times. -/
def exhaust (step : σ → Option σ) : (fuel : Nat) → σ → σ
  | 0, state => state
  | fuel + 1, state =>
    match step state with
    | none => state
    | some next => exhaust step fuel next

theorem exhaust_relation {step : σ → Option σ} (relation : σ → σ → Prop)
    (refl : ∀ st, relation st st)
    (trans : ∀ {fst snd third}, relation fst snd → relation snd third → relation fst third)
    (rounds : ∀ pre after, step pre = some after → relation pre after) (fuel : Nat)
    (st : σ) : relation st (exhaust step fuel st) := by
  induction fuel generalizing st with
  | zero => exact refl st
  | succ fuel ih =>
    rw [exhaust]
    cases round : step st with
    | none => exact refl st
    | some next => exact trans (rounds st next round) (ih next)

theorem step_exhaust {step : σ → Option σ} (measure : σ → Nat)
    (decreases : ∀ pre after, step pre = some after → measure after < measure pre)
    {fuel : Nat} {st : σ} (enough : measure st ≤ fuel) : step (exhaust step fuel st) = none := by
  induction fuel generalizing st with
  | zero =>
    rw [exhaust]
    by_contra possible
    obtain ⟨next, round⟩ := Option.ne_none_iff_exists'.mp possible
    have smaller := decreases st next round
    omega
  | succ fuel ih =>
    rw [exhaust]
    cases round : step st with
    | none => exact round
    | some next =>
      have smaller := decreases st next round
      exact ih (by omega)

variable {ε τ α : Type u}

def collect (step : EStateM ε τ (Option α)) : (fuel : Nat) → List α → EStateM ε τ (List α)
  | 0, items => pure items
  | fuel + 1, items => do
      match ← step with
      | none => pure items
      | some item => collect step fuel (items ++ [item])

theorem Triple.collect {step : EStateM ε τ (Option α)} {inv stopped : List α → τ → Prop}
    {failed : ε → τ → Prop} (measure : τ → Nat)
    (rounds : ∀ xs bound, Triple (fun st => inv xs st ∧ measure st = bound) step
        (fun res st =>
          match res with
          | none => stopped xs st
          | some x => inv (xs ++ [x]) st ∧ measure st < bound) failed)
    {fuel : Nat} {xs : List α} :
    Triple (fun st => inv xs st ∧ measure st < fuel)
      (Codex.collect step fuel xs) stopped failed := by
  induction fuel generalizing xs with
  | zero => exact fun st ⟨_, never⟩ => absurd never (Nat.not_lt_zero _)
  | succ fuel ih =>
    intro st ⟨holds, enough⟩
    refine Triple.bind (rounds xs (measure st)) (fun res => ?_) st ⟨holds, rfl⟩
    cases res with
    | none => exact Triple.pure fun _ stops => stops
    | some x =>
      refine ih.narrow fun after reached => ⟨reached.1, ?_⟩
      have smaller := reached.2
      omega

end Codex
