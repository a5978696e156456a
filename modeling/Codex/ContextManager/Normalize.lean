import Codex.Foundation.Lists
import Codex.Foundation.Splice
import Codex.Foundation.Text

/-!
# Normalising the history for a prompt

A prompt needs an output for every call and a call for every output.
-/

namespace Codex.ContextManager

inductive FunctionCallOutputBody (R : Type)
  | text (text : Text)
  | contentItems (items : List R)
  deriving DecidableEq

structure FunctionCallOutputPayload (R : Type) where
  body : FunctionCallOutputBody R
  success : Option Bool
  deriving DecidableEq

def FunctionCallOutputPayload.fromText {R : Type} (content : Text) : FunctionCallOutputPayload R :=
  ⟨.text content, none⟩

inductive ResponseItem (R : Type)
  | localShellCall (id callId : Option Text) (rest : R)
  | functionCall (id : Option Text) (callId : Text) (rest : R)
  | toolSearchCall (id callId : Option Text) (rest : R)
  | functionCallOutput (id callId name nameSpace : Option Text)
      (output : FunctionCallOutputPayload R) (passthrough : Option R)
  | customToolCall (id : Option Text) (callId : Text) (rest : R)
  | customToolCallOutput (id : Option Text) (callId : Text) (name : Option Text)
      (output : FunctionCallOutputPayload R) (passthrough : Option R)
  | toolSearchOutput (id callId : Option Text) (status execution : Text) (tools : List R)
      (passthrough : Option R)
  | other (rest : R)
  deriving DecidableEq

structure ResponseItemEnvelope (R : Type) where
  item : ResponseItem R
  metadata : Option R := none
  deriving DecidableEq

inductive OutputKind
  | function
  | toolSearch
  | customTool
  deriving DecidableEq

namespace ResponseItem

variable {R : Type}

def callKey? : ResponseItem R → Option (OutputKind × Text)
  | functionCall _ callId _ => some (.function, callId)
  | localShellCall _ callId _ => callId.map fun id => (.function, id)
  | toolSearchCall _ callId _ => callId.map fun id => (.toolSearch, id)
  | customToolCall _ callId _ => some (.customTool, callId)
  | functionCallOutput .. | customToolCallOutput .. | toolSearchOutput .. | other _ => none

def outputKey? : ResponseItem R → Option (OutputKind × Text)
  | functionCallOutput _ callId _ _ _ _ => callId.map fun id => (.function, id)
  | toolSearchOutput _ callId _ _ _ _ => callId.map fun id => (.toolSearch, id)
  | customToolCallOutput _ callId _ _ _ => some (.customTool, callId)
  | functionCall .. | localShellCall .. | toolSearchCall .. | customToolCall .. | other _ => none

def isServerExecuted : ResponseItem R → Bool
  | toolSearchOutput _ _ _ execution _ _ => execution == "server"
  | _ => false

end ResponseItem

open List Option

variable {R : Type}

open ResponseItem

def outputIds (kind : OutputKind) (items : List (ResponseItemEnvelope R)) : List Text :=
  items.filterMap fun envelope =>
    envelope.item.outputKey?.bind fun key => if key.1 = kind then some key.2 else none

def callIds (kind : OutputKind) (items : List (ResponseItemEnvelope R)) : List Text :=
  items.filterMap fun envelope =>
    envelope.item.callKey?.bind fun key => if key.1 = kind then some key.2 else none

section

-- the name-based identifier of a text
variable (uuid : Text → Text)

def syntheticOutputId (kind : Text) (itemId : Option Text) : Option Text :=
  (itemId.filter fun id => !id.isEmpty).map fun sourceId =>
    kind ++ "_" ++ uuid (kind ++ ":" ++ sourceId)

variable (id : Option Text)

def missingFunctionOutput (callId : Text) : ResponseItem R :=
  .functionCallOutput (syntheticOutputId uuid "fco" id) (some callId) none none
    (.fromText "aborted") none

def missingToolSearchOutput (callId : Text) : ResponseItem R :=
  .toolSearchOutput (syntheticOutputId uuid "tso" id) (some callId) "completed"
    "client" [] none

def missingCustomToolOutput (callId : Text) : ResponseItem R :=
  .customToolCallOutput (syntheticOutputId uuid "ctco" id) callId none
    (.fromText "aborted") none

def missingOutput (functionOutputIds toolSearchOutputIds customToolOutputIds : List Text)
    (envelope : ResponseItemEnvelope R) : Option (ResponseItemEnvelope R) :=
  match envelope.item with
  | .functionCall id callId _ =>
    if callId ∈ functionOutputIds then none
    else some { item := missingFunctionOutput uuid id callId }
  | .toolSearchCall id (some callId) _ =>
    if callId ∈ toolSearchOutputIds then none
    else some { item := missingToolSearchOutput uuid id callId }
  | .customToolCall id callId _ =>
    if callId ∈ customToolOutputIds then none
    else some { item := missingCustomToolOutput uuid id callId }
  -- a local shell call is answered by a function call output
  | .localShellCall id (some callId) _ =>
    if callId ∈ functionOutputIds then none
    else some { item := missingFunctionOutput uuid id callId }
  | _ => none

variable (items : List (ResponseItemEnvelope R))

def lacking : ResponseItemEnvelope R → Option (ResponseItemEnvelope R) :=
  missingOutput uuid (outputIds .function items) (outputIds .toolSearch items)
    (outputIds .customTool items)

def ensureCallOutputsPresent : List (ResponseItemEnvelope R) :=
  insertBehind (partners (lacking uuid items) items 0) items

def isOrphan (functionCallIds toolSearchCallIds customToolCallIds : List Text)
    (envelope : ResponseItemEnvelope R) : Bool :=
  match envelope.item with
  | .functionCallOutput _ (some callId) _ _ _ _ => callId ∉ functionCallIds
  | .customToolCallOutput _ callId _ _ _ => callId ∉ customToolCallIds
  | .toolSearchOutput _ (some callId) _ execution _ _ =>
    execution ≠ "server" && callId ∉ toolSearchCallIds
  | _ => false

def orphaned : ResponseItemEnvelope R → Bool :=
  isOrphan (callIds .function items) (callIds .toolSearch items) (callIds .customTool items)

def removeOrphanOutputs : List (ResponseItemEnvelope R) :=
  let orphanPositions := positions (orphaned items) items 0
  if orphanPositions.isEmpty then items else retainOutside orphanPositions 0 items

def pairCalls : List (ResponseItemEnvelope R) :=
  removeOrphanOutputs (ensureCallOutputsPresent uuid items)

end

variable {uuid : Text → Text} {items : List (ResponseItemEnvelope R)}
  {envelope output : ResponseItemEnvelope R} {kind : OutputKind} {id : Text}

theorem mem_filterMap_key {key : ResponseItemEnvelope R → Option (OutputKind × Text)} :
    id ∈ items.filterMap (fun envelope => (key envelope).bind fun key =>
      if key.1 = kind then some key.2 else none) ↔
        ∃ envelope ∈ items, key envelope = some (kind, id) := by
  rw [mem_filterMap]
  refine exists_congr fun envelope => and_congr_right fun _ => ?_
  cases key envelope with
  | none => simp
  | some hit => simp [Prod.ext_iff]

theorem mem_outputIds :
    id ∈ outputIds kind items ↔ ∃ output ∈ items, output.item.outputKey? = some (kind, id) :=
  mem_filterMap_key

theorem mem_callIds :
    id ∈ callIds kind items ↔ ∃ call ∈ items, call.item.callKey? = some (kind, id) :=
  mem_filterMap_key

inductive Answered (items : List (ResponseItemEnvelope R)) (key : OutputKind × Text) :
    Option (ResponseItemEnvelope R) → Prop
  | present {output : ResponseItemEnvelope R} (mem : output ∈ items)
      (answers : output.item.outputKey? = some key) : Answered items key none
  | missing {output : ResponseItemEnvelope R}
      (absent : ∀ other ∈ items, other.item.outputKey? ≠ some key)
      (answers : output.item.outputKey? = some key) (call : output.item.callKey? = none) :
      Answered items key (some output)

theorem answered_ite {output : ResponseItem R}
    (answers : output.outputKey? = some (kind, id)) (call : output.callKey? = none) :
    Answered items (kind, id)
      (if id ∈ outputIds kind items then none else some { item := output }) := by
  split
  · rename_i has
    obtain ⟨y, mem, eq⟩ := mem_outputIds.mp has
    exact .present mem eq
  rename_i absent
  exact .missing (fun y mem eq => absent (mem_outputIds.mpr ⟨y, mem, eq⟩))
    answers call

theorem answered_lacking {k : OutputKind × Text} (call : envelope.item.callKey? = some k) :
    Answered items k (lacking uuid items envelope) := by
  obtain ⟨x, metadata⟩ := envelope
  cases x with
  | functionCall | customToolCall =>
    cases call
    exact answered_ite rfl rfl
  | localShellCall itemId callId tl =>
    cases callId with
    | none => cases call
    | some callId =>
      cases call
      exact answered_ite rfl rfl
  | toolSearchCall itemId callId tl =>
    cases callId with
    | none => cases call
    | some callId =>
      cases call
      exact answered_ite rfl rfl
  | functionCallOutput | customToolCallOutput | toolSearchOutput | other => cases call

theorem lacking_of_not_call (call : envelope.item.callKey? = none) :
    lacking uuid items envelope = none := by
  obtain ⟨x, metadata⟩ := envelope
  cases x with
  | functionCall | customToolCall => cases call
  | localShellCall itemId callId tl =>
    cases callId with
    | none => rfl
    | some callId => cases call
  | toolSearchCall itemId callId tl =>
    cases callId with
    | none => rfl
    | some callId => cases call
  | functionCallOutput | customToolCallOutput | toolSearchOutput | other => rfl

theorem key_of_lacking (made : lacking uuid items envelope = some output) :
    ∃ k, envelope.item.callKey? = some k ∧ (∀ y ∈ items, y.item.outputKey? ≠ some k) ∧
      output.item.outputKey? = some k ∧ output.item.callKey? = none := by
  cases call : envelope.item.callKey? with
  | none =>
    rw [lacking_of_not_call call] at made
    cases made
  | some k =>
    have answered := @answered_lacking _ uuid items _ _ call
    rw [made] at answered
    cases answered with
    | missing absent answers none => exact ⟨k, rfl, absent, answers, none⟩

def Unmatched (items : List (ResponseItemEnvelope R)) (envelope : ResponseItemEnvelope R) : Prop :=
  ∃ key, envelope.item.outputKey? = some key ∧ envelope.item.isServerExecuted = false ∧
    ∀ call ∈ items, call.item.callKey? ≠ some key

theorem orphaned_iff : orphaned items envelope = true ↔ Unmatched items envelope := by
  rw [Unmatched]
  have absent : ∀ kind id, id ∉ callIds kind items ↔
      ∀ call ∈ items, call.item.callKey? ≠ some (kind, id) := by
    intro kind id
    rw [mem_callIds]
    simp
  obtain ⟨x, metadata⟩ := envelope
  cases x with
  | functionCallOutput itemId callId name nameSpace output passthrough =>
    cases callId with
    | none => simp [orphaned, isOrphan, outputKey?]
    | some callId => simp [orphaned, isOrphan, outputKey?, isServerExecuted, absent]
  | customToolCallOutput itemId callId name output passthrough =>
    simp [orphaned, isOrphan, outputKey?, isServerExecuted, absent]
  | toolSearchOutput itemId callId status execution tools passthrough =>
    cases callId with
    | none => simp [orphaned, isOrphan, outputKey?]
    | some callId => simp [orphaned, isOrphan, outputKey?, isServerExecuted, absent]
  | functionCall | customToolCall | localShellCall | toolSearchCall | other =>
    simp [orphaned, isOrphan, outputKey?]

theorem callKey?_of_outputKey? {x : ResponseItem R} {k : OutputKind × Text}
    (output : x.outputKey? = some k) : x.callKey? = none := by
  cases x with
  | functionCallOutput | customToolCallOutput | toolSearchOutput => rfl
  | functionCall | customToolCall | localShellCall | toolSearchCall | other => cases output

theorem ensureCallOutputsPresent_eq (uuid : Text → Text) (items : List (ResponseItemEnvelope R)) :
    ensureCallOutputsPresent uuid items =
      items.flatMap fun envelope => envelope :: (lacking uuid items envelope).toList :=
  insertBehind_partners (lacking uuid items) [] items

theorem removeOrphanOutputs_eq (items : List (ResponseItemEnvelope R)) :
    removeOrphanOutputs items = items.filter fun envelope => !orphaned items envelope := by
  have dropped := retainOutside_positions (orphaned items) items 0
  rw [removeOrphanOutputs]
  split
  · rename_i none
    rw [List.isEmpty_iff.mp none, retainOutside_nil] at dropped
    exact dropped
  · exact dropped

theorem exists_call_ensureCallOutputsPresent {key : OutputKind × Text} :
    (∃ call ∈ ensureCallOutputsPresent uuid items, call.item.callKey? = some key) ↔
      ∃ call ∈ items, call.item.callKey? = some key := by
  rw [ensureCallOutputsPresent_eq]
  constructor
  · rintro ⟨call, mem, eq⟩
    obtain ⟨origin, known, place⟩ := mem_flatMap.mp mem
    rcases mem_cons.mp place with rfl | made
    · exact ⟨call, known, eq⟩
    obtain ⟨-, -, -, -, none⟩ := key_of_lacking (mem_toList.mp made)
    cases none.symm.trans eq
  rintro ⟨call, mem, eq⟩
  exact ⟨call, mem_flatMap.mpr ⟨call, mem, mem_cons_self⟩, eq⟩

theorem orphaned_ensureCallOutputsPresent (uuid : Text → Text)
    (items : List (ResponseItemEnvelope R)) (envelope : ResponseItemEnvelope R) :
    orphaned (ensureCallOutputsPresent uuid items) envelope = orphaned items envelope := by
  rw [Bool.eq_iff_iff, orphaned_iff, orphaned_iff, Unmatched, Unmatched]
  refine exists_congr fun k => and_congr_right fun _ => and_congr_right fun _ => ?_
  have eq := @exists_call_ensureCallOutputsPresent R uuid items k
  simpa using not_congr eq

theorem not_orphaned_of_lacking (mem : envelope ∈ items)
    (made : lacking uuid items envelope = some output) : orphaned items output = false := by
  obtain ⟨k, call, -, answers, -⟩ := key_of_lacking made
  rw [Bool.eq_false_iff]
  intro orphan
  obtain ⟨y, eq, -, absent⟩ := orphaned_iff.mp orphan
  obtain rfl := some.inj (answers.symm.trans eq)
  exact absent envelope mem call

theorem lacking_of_orphaned (orphan : orphaned items envelope = true) :
    lacking uuid items envelope = none := by
  obtain ⟨k, eq, -⟩ := orphaned_iff.mp orphan
  exact lacking_of_not_call (callKey?_of_outputKey? eq)

theorem pairCalls_eq (uuid : Text → Text) (items : List (ResponseItemEnvelope R)) :
    pairCalls uuid items =
      (items.filter fun envelope => !orphaned items envelope).flatMap fun envelope =>
        envelope :: (lacking uuid items envelope).toList := by
  have kept : ∀ envelope ∈ items,
      ((envelope :: (lacking uuid items envelope).toList).filter fun y =>
        !orphaned items y) =
      if !orphaned items envelope then
        envelope :: (lacking uuid items envelope).toList else [] := by
    intro envelope mem
    cases orphan : orphaned items envelope with
    | true => simp [orphan, lacking_of_orphaned orphan]
    | false =>
      cases made : lacking uuid items envelope with
      | none => simp [orphan]
      | some output => simp [orphan, not_orphaned_of_lacking mem made]
  rw [pairCalls, removeOrphanOutputs_eq]
  simp only [orphaned_ensureCallOutputsPresent]
  rw [ensureCallOutputsPresent_eq, filter_flatMap, flatMap_filter]
  exact flatMap_congr kept

theorem mem_pairCalls :
    output ∈ pairCalls uuid items ↔ ∃ envelope ∈ items, orphaned items envelope = false ∧
      (output = envelope ∨ lacking uuid items envelope = some output) := by
  simp [pairCalls_eq, and_assoc]

/-- Every call has an output, and every output of a local tool its call. -/
structure Paired (items : List (ResponseItemEnvelope R)) : Prop where
  answered : ∀ call ∈ items, ∀ key, call.item.callKey? = some key →
    ∃ output ∈ items, output.item.outputKey? = some key
  called : ∀ output ∈ items, ∀ key, output.item.outputKey? = some key →
    output.item.isServerExecuted = false → ∃ call ∈ items, call.item.callKey? = some key

theorem not_orphaned_of_call {k : OutputKind × Text} (call : envelope.item.callKey? = some k) :
    orphaned items envelope = false := by
  rw [Bool.eq_false_iff]
  intro orphan
  obtain ⟨y, output, -⟩ := orphaned_iff.mp orphan
  cases (callKey?_of_outputKey? output).symm.trans call

theorem paired_pairCalls (uuid : Text → Text) (items : List (ResponseItemEnvelope R)) :
    Paired (pairCalls uuid items) where
  answered := by
    intro call mem key eq
    obtain ⟨envelope, known, kept, origin⟩ := mem_pairCalls.mp mem
    rcases origin with rfl | made
    · cases answer : lacking uuid items call with
      | some output =>
        obtain ⟨y, own, -, answers, -⟩ := key_of_lacking answer
        obtain rfl := some.inj (eq.symm.trans own)
        exact ⟨output, mem_pairCalls.mpr ⟨call, known, kept, Or.inr answer⟩, answers⟩
      | none =>
        have answered := @answered_lacking _ uuid items _ _ eq
        rw [answer] at answered
        obtain ⟨has, answers⟩ := answered
        rename_i output
        refine ⟨output, mem_pairCalls.mpr ⟨output, has, ?_, Or.inl rfl⟩, answers⟩
        rw [Bool.eq_false_iff]
        intro orphan
        obtain ⟨y, its, -, absent⟩ := orphaned_iff.mp orphan
        obtain rfl := some.inj (answers.symm.trans its)
        exact absent call known eq
    obtain ⟨-, -, -, -, none⟩ := key_of_lacking made
    cases none.symm.trans eq
  called := by
    intro output mem key eq client
    obtain ⟨envelope, known, kept, origin⟩ := mem_pairCalls.mp mem
    have called : ∃ call ∈ items, call.item.callKey? = some key := by
      rcases origin with rfl | made
      · by_contra none
        refine Bool.eq_false_iff.mp kept (orphaned_iff.mpr ⟨key, eq, client, ?_⟩)
        exact fun call has its => none ⟨call, has, its⟩
      obtain ⟨y, call, -, answers, -⟩ := key_of_lacking made
      obtain rfl := some.inj (eq.symm.trans answers)
      exact ⟨envelope, known, call⟩
    obtain ⟨call, has, its⟩ := called
    exact ⟨call, mem_pairCalls.mpr ⟨call, has, not_orphaned_of_call its, Or.inl rfl⟩, its⟩

theorem Paired.not_orphaned (paired : Paired items) (mem : envelope ∈ items) :
    orphaned items envelope = false := by
  rw [Bool.eq_false_iff]
  intro orphan
  obtain ⟨k, output, client, absent⟩ := orphaned_iff.mp orphan
  obtain ⟨call, has, its⟩ := paired.called envelope mem k output client
  exact absent call has its

theorem Paired.lacking_eq_none (paired : Paired items) (mem : envelope ∈ items) :
    lacking uuid items envelope = none := by
  cases made : lacking uuid items envelope with
  | none => rfl
  | some output =>
    obtain ⟨k, call, absent, -⟩ := key_of_lacking made
    obtain ⟨y, has, answers⟩ := paired.answered envelope mem k call
    exact absurd answers (absent y has)

theorem Paired.pairCalls_eq_self (paired : Paired items) : pairCalls uuid items = items := by
  have kept : (items.filter fun envelope => !orphaned items envelope) = items := by
    refine filter_eq_self.mpr fun envelope mem => ?_
    rw [paired.not_orphaned mem]
    rfl
  have alone : ∀ envelope ∈ items,
      envelope :: (lacking uuid items envelope).toList = [envelope] := by
    intro envelope mem
    rw [paired.lacking_eq_none mem]
    rfl
  rw [pairCalls_eq, kept, flatMap_congr alone, flatMap_singleton']

/-- After the two passes calls and outputs are paired. -/
theorem pairCalls_pairs (uuid : Text → Text) (items : List (ResponseItemEnvelope R)) :
    Paired (pairCalls uuid items) ∧ (∃ (keep : ResponseItemEnvelope R → Bool)
          (answer : ResponseItemEnvelope R → Option (ResponseItemEnvelope R)),
        (∀ envelope, keep envelope = false ↔ Unmatched items envelope) ∧
        (∀ call output, answer call = some output → ∃ key, call.item.callKey? = some key ∧
          (∀ other ∈ items, other.item.outputKey? ≠ some key) ∧
          output.item.outputKey? = some key) ∧
        pairCalls uuid items = (items.filter keep).flatMap fun envelope =>
          envelope :: (answer envelope).toList) ∧
      pairCalls uuid (pairCalls uuid items) = pairCalls uuid items := by
  have paired := paired_pairCalls uuid items
  refine ⟨paired, ⟨fun envelope => !orphaned items envelope, lacking uuid items, ?_, ?_,
    pairCalls_eq uuid items⟩, paired.pairCalls_eq_self⟩
  · intro envelope
    rw [← orphaned_iff, Bool.not_eq_false']
  intro call output made
  obtain ⟨key, its, absent, answers, -⟩ := key_of_lacking made
  exact ⟨key, its, absent, answers⟩

end Codex.ContextManager
