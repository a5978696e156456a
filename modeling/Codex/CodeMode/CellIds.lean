import Codex.Foundation.Map
import Codex.Foundation.Text

/-!
# Public cell ids

From the second host generation on, a cell id has a prefix with its number.
-/

namespace Codex.CodeMode

open List

def generationPrefix (generation : Nat) : Text := 'g' :: Nat.toDigits 10 generation ++ [':']

def publicCellId (generation : Nat) (cellId : Text) : Text :=
  if generation = 1 then cellId else generationPrefix generation ++ cellId

def stripGeneration (stale : Text) (generation : Nat) (cellId : Text) : Except Text Text :=
  match cellId.dropPrefix? (generationPrefix generation) with
  | some remote => .ok remote
  | none => .error stale

/-- The form of the ids that the driver takes for those of a later generation. -/
def Marked (cellId : Text) : Prop := cellId.head? = some 'g' ∧ ':' ∈ cellId

instance : DecidablePred Marked := fun _ => inferInstanceAs (Decidable (_ ∧ _))

namespace Driver

def remoteCellId (generation : Nat) (cellId : Text) : Except Text Text :=
  let stale := "cell " ++ cellId ++ " belongs to a stale code-mode host generation"
  if generation = 1 then if Marked cellId then .error stale else .ok cellId
  else stripGeneration stale generation cellId

end Driver

namespace Grpc

def remoteCellId (generation : Nat) (cellId : Text) : Except Text Text :=
  if generation = 1 then .ok cellId
  else stripGeneration "cell belongs to a stale code-mode host generation" generation cellId

end Grpc

inductive CellAdmissionError
  | missingSession
  | duplicateCell

/-- The records of the registry are the cells of each session, with their public ids. -/
def admitCell {S : Type} [DecidableEq S] (records : Map S (Map Text Text)) (session : S)
    (generation : Nat) (cellId : Text) : Except CellAdmissionError (Map S (Map Text Text) × Text) :=
  match records.lookup session with
  | none => .error .missingSession
  | some cells =>
    if cellId ∈ cells then .error .duplicateCell
    else
      let publicId := publicCellId generation cellId
      .ok (records.insert session (cells.insert cellId publicId), publicId)

def Accepted (cellId : Text) : Prop :=
  ∃ records : Map ℕ (Map Text Text), ∃ session generation admitted,
    admitCell records session generation cellId = .ok admitted

/-- What the public ids are for, over the ids that a host sends. -/
structure Identifies (remoteCellId : Nat → Text → Except Text Text)
    (sent : Text → Prop) : Prop where
  injective : ∀ g ≥ 1, ∀ h ≥ 1, ∀ v w, sent v → sent w →
    publicCellId g v = publicCellId h w → g = h ∧ v = w
  back : ∀ g ≥ 1, ∀ v, sent v → remoteCellId g (publicCellId g v) = .ok v
  stale : ∀ g ≥ 1, ∀ h ≥ 1, h ≠ g → ∀ w, sent w →
    ∃ error, remoteCellId g (publicCellId h w) = .error error

open Finmap Nat

theorem accepted (cellId : Text) : Accepted cellId := by
  refine ⟨singleton 0 ∅, 0, 1, ?_⟩
  simp [admitCell, lookup_singleton_eq, notMem_empty]

/-- The number of a generation can be read off a text that starts with its prefix. -/
theorem generationPrefix_append_inj {g h : Nat} {v w : Text}
    (eq : generationPrefix g ++ v = generationPrefix h ++ w) : g = h ∧ v = w := by
  have digits : ∀ number, ':' ∉ toDigits 10 number := fun number mem =>
    absurd (isDigit_of_mem_toDigits (by decide) (by decide) mem) (by decide)
  simp only [generationPrefix, cons_append, append_assoc, List.cons.injEq, true_and,
    nil_append] at eq
  have fst : ∀ number tl, (toDigits 10 number ++ ':' :: tl).takeWhile (· ≠ ':') =
      toDigits 10 number := fun number tl => by
    have kept : ∀ c ∈ toDigits 10 number, decide (c ≠ ':') = true := fun c mem =>
      decide_eq_true fun colon => digits number (colon ▸ mem)
    rw [takeWhile_append_of_pos kept]
    simp
  have number := congrArg (takeWhile (· ≠ ':')) eq
  rw [fst, fst] at number
  have numbers := congrArg (ofDigitChars 10 · 0) number
  simp only [ofDigitChars_ten_toDigits] at numbers
  subst numbers
  exact ⟨rfl, List.cons.inj (append_cancel_left eq) |>.2⟩

theorem marked_generationPrefix (gen : Nat) (cellId : Text) :
    Marked (generationPrefix gen ++ cellId) := by
  refine ⟨rfl, mem_append_left _ ?_⟩
  simp [generationPrefix]

theorem stripGeneration_eq_ok {stale cellId remote : Text} {gen : Nat} :
    stripGeneration stale gen cellId = .ok remote ↔
      cellId = generationPrefix gen ++ remote := by
  have dropped : cellId.dropPrefix? (generationPrefix gen) = some remote ↔
      cellId = generationPrefix gen ++ remote := by
    simp [dropPrefix?_eq_some_iff]
  rw [← dropped, stripGeneration]
  split <;> simp [*]

theorem exists_error_of_ne_ok {res : Except Text Text} (failed : ∀ remote, res ≠ .ok remote) :
    ∃ error, res = .error error := by
  cases res with
  | error error => exact ⟨error, rfl⟩
  | ok remote => exact absurd rfl (failed remote)

/-- The driver's ids identify generation and cell exactly when no marked id is sent, those of gRPC
never. -/
theorem publicCellId_identifies_iff (sent : Text → Prop) :
    (Identifies Driver.remoteCellId (fun id => sent id ∧ Accepted id) ↔
      ∀ id, sent id → ¬ Marked id) ∧
    ∀ id, sent id → ¬ Identifies Grpc.remoteCellId fun id => sent id ∧ Accepted id := by
  constructor
  · constructor
    · intro identifies id here marked
      have back := identifies.back 1 le_rfl id ⟨here, accepted id⟩
      simp [publicCellId, Driver.remoteCellId, marked] at back
    intro unmarked
    refine ⟨fun g _ h _ v w here there eq => ?_, fun g _ v here => ?_,
      fun g _ h _ apart w there => exists_error_of_ne_ok fun remote hit => ?_⟩
    · by_cases one : g = 1 <;> by_cases one' : h = 1 <;>
        simp only [publicCellId, one, one', if_true, if_false] at eq
      · exact ⟨one.trans one'.symm, eq⟩
      · exact absurd (eq ▸ marked_generationPrefix h w) (unmarked v here.1)
      · exact absurd (eq ▸ marked_generationPrefix g v) (unmarked w there.1)
      · exact generationPrefix_append_inj eq
    · by_cases one : g = 1
      · simp [publicCellId, Driver.remoteCellId, one, unmarked v here.1]
      · simp [publicCellId, Driver.remoteCellId, one, stripGeneration_eq_ok]
    by_cases one : g = 1
    · have later : h ≠ 1 := fun eq => apart (eq.trans one.symm)
      simp [publicCellId, Driver.remoteCellId, one, later, marked_generationPrefix] at hit
    simp only [Driver.remoteCellId, one, if_false, stripGeneration_eq_ok, publicCellId] at hit
    by_cases one' : h = 1
    · rw [if_pos one'] at hit
      exact unmarked w there.1 (hit ▸ marked_generationPrefix g remote)
    rw [if_neg one'] at hit
    exact apart (generationPrefix_append_inj hit).1
  intro id here identifies
  obtain ⟨error, failed⟩ :=
    identifies.stale 1 le_rfl 2 (by decide) (by decide) id ⟨here, accepted id⟩
  simp [Grpc.remoteCellId] at failed

theorem publicCellId_collides :
    let id := "g2:x"
    Accepted id ∧ Accepted ['x'] ∧ publicCellId 1 id = publicCellId 2 ['x'] ∧
      (∀ remote, Driver.remoteCellId 1 (publicCellId 1 id) ≠ .ok remote) ∧
      Grpc.remoteCellId 1 (publicCellId 2 ['x']) = .ok id := by
  exact ⟨accepted _, accepted _, by decide, nofun, rfl⟩

end Codex.CodeMode
