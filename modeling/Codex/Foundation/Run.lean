import Mathlib.Data.List.Basic

/-!
# Fallible steps and their runs

Stateful code by functions into `Except`, and calls that interleave.
-/

namespace Codex

open List

universe u

variable {ε : Type*} {σ α β : Type u}
  {fst : Except ε α} {result : β} {convert : α → Except ε β} {input : α} {inputs : List α}
  {outputs : List β} {step : σ → α → Except ε σ} {initial final : σ}

theorem bind_eq_ok_iff {next : α → Except ε β} :
    (fst >>= next) = .ok result ↔ ∃ val, fst = .ok val ∧ next val = .ok result := by
  cases fst with
  | error | ok => simp [bind, Except.bind]

theorem map_eq_ok_iff {image : α → β} :
    (image <$> fst) = .ok result ↔ ∃ val, fst = .ok val ∧ image val = result := by
  cases fst with
  | error | ok => simp [Functor.map, Except.map]

theorem mapM_cons_eq_ok_iff : (input :: inputs).mapM convert = .ok outputs ↔
      ∃ out, convert input = .ok out ∧
        ∃ tl, inputs.mapM convert = .ok tl ∧ out :: tl = outputs := by
  simp [bind_eq_ok_iff, pure, Except.pure]

theorem mapM_append_eq_ok_iff {fst snd : List α} :
    (fst ++ snd).mapM convert = .ok outputs ↔ ∃ front, fst.mapM convert = .ok front ∧
        ∃ back, snd.mapM convert = .ok back ∧ front ++ back = outputs := by
  simp [bind_eq_ok_iff, pure, Except.pure]

theorem exists_of_mem_mapM (conv : inputs.mapM convert = .ok outputs) {output : β}
    (mem : output ∈ outputs) : ∃ input ∈ inputs, convert input = .ok output := by
  induction inputs generalizing outputs with
  | nil =>
    cases conv
    cases mem
  | cons input inputs ih =>
    obtain ⟨fst, here, tl, later, rfl⟩ := mapM_cons_eq_ok_iff.mp conv
    rcases mem_cons.mp mem with rfl | below
    · exact ⟨input, mem_cons_self, here⟩
    obtain ⟨origin, has, hit⟩ := ih later below
    exact ⟨origin, mem_cons_of_mem input has, hit⟩

theorem exists_ok_of_mapM (conv : inputs.mapM convert = .ok outputs)
    (mem : input ∈ inputs) : ∃ output, convert input = .ok output := by
  induction inputs generalizing outputs with
  | nil => cases mem
  | cons fst inputs ih =>
    obtain ⟨output, here, tl, later, rfl⟩ := mapM_cons_eq_ok_iff.mp conv
    rcases mem_cons.mp mem with rfl | below
    · exact ⟨output, here⟩
    · exact ih later below

theorem foldlM_invariant (inv : σ → Prop)
    (preserved : ∀ pre input after, inv pre → step pre input = .ok after →
      inv after) (holds : inv initial)
    (run : inputs.foldlM step initial = .ok final) : inv final := by
  induction inputs generalizing initial with
  | nil =>
    obtain rfl : initial = final := by simpa [pure, Except.pure] using run
    exact holds
  | cons input inputs ih =>
    rw [foldlM_cons, bind_eq_ok_iff] at run
    obtain ⟨middle, fst, tl⟩ := run
    exact ih (preserved _ _ _ holds fst) tl

/-- A reflexive, transitive relation across steps holds across runs. -/
theorem foldlM_relation (relation : σ → σ → Prop) (refl : ∀ st, relation st st)
    (trans : ∀ {fst snd third}, relation fst snd → relation snd third → relation fst third)
    (steps : ∀ pre input after, step pre input = .ok after → relation pre after)
    (run : inputs.foldlM step initial = .ok final) : relation initial final :=
  foldlM_invariant (relation initial)
    (fun pre input after holds step => trans holds (steps pre input after step))
    (refl initial) run

theorem foldlM_flatten (blocks : List (List α)) (initial : σ) :
    blocks.foldlM (fun st block => block.foldlM step st) initial =
      blocks.flatten.foldlM step initial := by
  induction blocks generalizing initial with
  | nil => rfl
  | cons block blocks ih =>
    rw [foldlM_cons, flatten_cons, foldlM_append]
    exact congrArg _ (funext fun st => ih st)

/-- Steps that each add known members to a list add those of all inputs. -/
theorem mem_of_foldlM {step : List β → α → Except ε (List β)} (adds : α → List β)
    {list final : List β} (run : inputs.foldlM step list = .ok final)
    (each : ∀ before input after, step before input = .ok after →
      ∀ mem, mem ∈ after ↔ mem ∈ before ∨ mem ∈ adds input)
    (mem : β) : mem ∈ final ↔ mem ∈ list ∨ ∃ input ∈ inputs, mem ∈ adds input := by
  induction inputs generalizing list with
  | nil =>
    obtain rfl : list = final := by simpa [pure, Except.pure] using run
    simp
  | cons input inputs ih =>
    rw [foldlM_cons, bind_eq_ok_iff] at run
    obtain ⟨middle, here, later⟩ := run
    rw [ih later, each _ _ _ here mem]
    simp [or_assoc]

/-- Steps that all succeed run to the end. -/
theorem exists_foldlM_ok (each : ∀ input ∈ inputs, ∀ before, ∃ after, step before input = .ok after)
    (initial : σ) : ∃ final, inputs.foldlM step initial = .ok final := by
  induction inputs generalizing initial with
  | nil => exact ⟨initial, rfl⟩
  | cons input inputs ih =>
    obtain ⟨middle, here⟩ := each input mem_cons_self initial
    obtain ⟨final, later⟩ := ih (fun other mem => each other (mem_cons_of_mem _ mem)) middle
    exact ⟨final, by rw [foldlM_cons, bind_eq_ok_iff]; exact ⟨middle, here, later⟩⟩

structure Program (σ κ ρ χ : Type) where
  enter : ρ → κ
  next : χ → σ → κ → σ × κ

structure Pool (σ κ : Type) where
  shared : σ
  calls : List κ := []

inductive Act (ρ χ : Type)
  | start (request : ρ)
  | step (index : Nat) (choice : χ)

namespace Pool

variable {σ κ ρ χ : Type} (prog : Program σ κ ρ χ)

def act (pool : Pool σ κ) : Act ρ χ → Pool σ κ
  | .start request => { pool with calls := pool.calls ++ [prog.enter request] }
  | .step index choice =>
    match pool.calls[index]? with
    | none => pool
    | some call =>
      let after := prog.next choice pool.shared call
      ⟨after.1, pool.calls.set index after.2⟩

def run (pool : Pool σ κ) (acts : List (Act ρ χ)) : Pool σ κ :=
  acts.foldl (act prog) pool

/-- Every step of a run meets a condition on the pool, the call and its choice. -/
def Along (meets : Pool σ κ → κ → χ → Prop) : Pool σ κ → List (Act ρ χ) → Prop
  | _, [] => True
  | pool, .start request :: rest => Along meets (pool.act prog (.start request)) rest
  | pool, .step index choice :: rest =>
    (∀ call ∈ pool.calls[index]?, meets pool call choice) ∧
      Along meets (pool.act prog (.step index choice)) rest

instance decidableAlong {meets : Pool σ κ → κ → χ → Prop}
    [∀ pool call choice, Decidable (meets pool call choice)] :
    ∀ pool (acts : List (Act ρ χ)), Decidable (Along prog meets pool acts)
  | _, [] => .isTrue trivial
  | pool, .start request :: rest => decidableAlong (pool.act prog (.start request)) rest
  | pool, .step index choice :: rest =>
    have : Decidable (Along prog meets _ rest) :=
      decidableAlong (pool.act prog (.step index choice)) rest
    decidable_of_iff ((∀ call ∈ pool.calls[index]?.toList, meets pool call choice) ∧
      Along prog meets (pool.act prog (.step index choice)) rest) (by simp [Along])

variable {prog} {pool : Pool σ κ} {acts : List (Act ρ χ)} {meets : Pool σ κ → κ → χ → Prop}

theorem along_of_forall (always : ∀ pool call choice, meets pool call choice) :
    Along prog meets pool acts := by
  induction acts generalizing pool with
  | nil => trivial
  | cons fst tl ih =>
    cases fst with
    | start req => exact ih
    | step idx choice => exact ⟨fun call _ => always pool call choice, ih⟩

/-- What every call entering and every step keeps, runs that meet the condition keep. -/
theorem run_invariant {I : Pool σ κ → Prop}
    (enters : ∀ pool req, I pool →
      I { pool with calls := pool.calls ++ [prog.enter req] })
    (steps : ∀ shared front call back choice, I ⟨shared, front ++ call :: back⟩ →
      meets ⟨shared, front ++ call :: back⟩ call choice →
      I ⟨(prog.next choice shared call).1,
        front ++ (prog.next choice shared call).2 :: back⟩)
    (holds : I pool) (along : Along prog meets pool acts) : I (run prog pool acts) := by
  induction acts generalizing pool with
  | nil => exact holds
  | cons fst tl ih =>
    cases fst with
    | start req => exact ih (enters pool req holds) along
    | step idx choice =>
      refine ih ?_ along.2
      rw [act]
      cases located : pool.calls[idx]? with
      | none => exact holds
      | some call =>
        obtain ⟨inside, rfl⟩ := List.getElem?_eq_some_iff.mp located
        -- the call that steps stands between those before and those after it
        have split : pool.calls = pool.calls.take idx ++
            pool.calls[idx] :: pool.calls.drop (idx + 1) := by simp
        have whole : pool = ⟨pool.shared, pool.calls.take idx ++
            pool.calls[idx] :: pool.calls.drop (idx + 1)⟩ := by rw [← split]
        dsimp only
        rw [set_eq_take_append_cons_drop, if_pos inside]
        refine steps _ _ _ _ choice ?_ ?_
        · rwa [← whole]
        · rw [← whole]
          exact along.1 _ located

end Pool

end Codex
