import Mathlib.Algebra.GroupWithZero.Nat
import Mathlib.Data.Char
import Mathlib.Data.List.Dedup
import Mathlib.Data.List.Sort
import Codex.Foundation.Search
import Codex.Foundation.Text

/-!
# The tools that the model sees

Each raw identity has one tool with acceptable parts of its own.
-/

namespace Codex.Mcp

structure ToolInfo (R : Type) where
  serverName : Text
  callableName : Text
  callableNamespace : Text
  connectorId : Option Text
  toolName : Text
  rest : R
deriving DecidableEq

structure ToolName where
  name : Text
  (namespace? : Option Text)
deriving DecidableEq

def defaultFunctionNamespace : Text := "functions"

def ToolName.isDefaultNamespace (tool : ToolName) : Bool :=
  match tool.namespace? with
  | none => true
  | some space => space.isEmpty || space == defaultFunctionNamespace

def codeModeNameForToolName (tool : ToolName) : Text :=
  if tool.isDefaultNamespace then tool.name
  else
    match tool.namespace? with
    | some space =>
      if space.getLast? = some '_' ∨ tool.name.head? = some '_' then space ++ tool.name
      else space ++ ("__" ++ tool.name)
    | none => tool.name

section

def isNameChar (c : Char) : Bool := c.isAlphanum || c == '_'

def sanitizeResponsesApiToolName (name : Text) : Text :=
  let sanitized := name.map fun c => if isNameChar c then c else '_'
  if sanitized.isEmpty then "_" else sanitized

def legacyMcpToolNamePrefix : Text := "mcp__"

def callableNamespaceWithPrefix (space : Text) (prefixMcpToolNames : Bool) : Text :=
  if !prefixMcpToolNames || legacyMcpToolNamePrefix.isPrefixOf space then space
  else legacyMcpToolNamePrefix ++ space

end

def mcpToolNameDelimiter : Text := "__"

def maxToolNameLength : ℕ := 128

def callableNameHashLen : ℕ := 12

structure Sha1 where
  hex : Text → Text
  length_hex : ∀ text, (hex text).length = 40
  digits : ∀ text, ∀ c ∈ hex text, c.isAlphanum = true

section

variable (sha1 : Sha1)

def callableNameHashSuffix (raw : Text) : Text :=
  '_' :: (sha1.hex raw).take callableNameHashLen

def appendHashSuffix (value raw : Text) : Text :=
  value ++ callableNameHashSuffix sha1 raw

def appendNamespaceHashSuffix (space raw : Text) : Text :=
  match space.dropSuffix? mcpToolNameDelimiter with
  | some shorter =>
    shorter ++ callableNameHashSuffix sha1 raw ++ mcpToolNameDelimiter
  | none => appendHashSuffix sha1 space raw

def truncateName (value : Text) (maxLen : ℕ) : Text := value.take maxLen

def fitCallablePartsWithHash (space toolName raw : Text) (reservedLen : ℕ) : Text × Text :=
  let hashed := callableNameHashSuffix sha1 raw
  let maxToolLen := maxToolNameLength - (space.length + reservedLen)
  if hashed.length ≤ maxToolLen then
    (space, truncateName toolName (maxToolLen - hashed.length) ++ hashed)
  else
    (truncateName space (maxToolNameLength - (hashed.length + reservedLen)), hashed)

def hashInput (raw : Text) (attempt : ℕ) : Text :=
  if attempt = 0 then raw
  else raw ++ '\x00' :: Nat.toDigits 10 attempt

def modelName (parts : Text × Text) : Text := parts.1 ++ parts.2

def uniqueCallableParts (fuel : ℕ) (space toolName raw : Text) (usedNames : List Text)
    (reservedLen : ℕ) : Option ((Text × Text) × List Text) :=
  if (modelName (space, toolName)).length + reservedLen ≤ maxToolNameLength ∧
      modelName (space, toolName) ∉ usedNames then
    some ((space, toolName), modelName (space, toolName) :: usedNames)
  else
    (Fresh.seek usedNames modelName (fun attempt =>
      fitCallablePartsWithHash sha1 space toolName (hashInput raw attempt) reservedLen)
      fuel 0).map fun parts => (parts, modelName parts :: usedNames)

end

structure CallableToolCandidate (R : Type) where
  tool : ToolInfo R
  rawNamespaceIdentity : Text
  rawToolIdentity : Text
  callableNamespace : Text
  callableName : Text

section

variable {R : Type}

def ToolInfo.canonicalToolName (tool : ToolInfo R) : ToolName :=
  ⟨tool.callableName, some tool.callableNamespace⟩

def rawNamespaceIdentity (tool : ToolInfo R) : Text :=
  tool.serverName ++ '\x00' :: (tool.callableNamespace ++ '\x00' :: tool.connectorId.getD [])

def rawToolIdentity (tool : ToolInfo R) : Text :=
  rawNamespaceIdentity tool ++ '\x00' :: (tool.callableName ++ '\x00' :: tool.toolName)

variable (sha1 : Sha1) (prefixMcpToolNames : Bool) (nonPrefixedMcpToolServers : List Text)

def callableToolCandidate (tool : ToolInfo R) : CallableToolCandidate R where
  tool := tool
  rawNamespaceIdentity := rawNamespaceIdentity tool
  rawToolIdentity := rawToolIdentity tool
  callableNamespace := callableNamespaceWithPrefix
    (sanitizeResponsesApiToolName tool.callableNamespace)
    (prefixMcpToolNames && !nonPrefixedMcpToolServers.contains tool.serverName)
  callableName := sanitizeResponsesApiToolName tool.callableName

def distinctTools : List (ToolInfo R) → (seenRawNames : List Text) → List (ToolInfo R)
  | [], _ => []
  | tool :: tools, seenRawNames =>
    if rawToolIdentity tool ∈ seenRawNames then distinctTools tools seenRawNames
    else tool :: distinctTools tools (rawToolIdentity tool :: seenRawNames)

def identityCount {β : Type} [DecidableEq β] (candidates : List (CallableToolCandidate R))
    (base : CallableToolCandidate R → β) (identity : CallableToolCandidate R → Text) (key : β) :
    ℕ :=
  ((candidates.filter fun cand => base cand = key).map identity).dedup.length

def disambiguateNamespace (candidates : List (CallableToolCandidate R))
    (cand : CallableToolCandidate R) : CallableToolCandidate R :=
  if 1 < identityCount candidates (·.callableNamespace) (·.rawNamespaceIdentity)
      cand.callableNamespace then
    { cand with
      callableNamespace := appendNamespaceHashSuffix sha1 cand.callableNamespace
        cand.rawNamespaceIdentity }
  else cand

def disambiguateTool (candidates : List (CallableToolCandidate R))
    (cand : CallableToolCandidate R) : CallableToolCandidate R :=
  if 1 < identityCount candidates (fun other => (other.callableNamespace, other.callableName))
      (·.rawToolIdentity) (cand.callableNamespace, cand.callableName) then
    { cand with
      callableName := appendHashSuffix sha1 cand.callableName cand.rawToolIdentity }
  else cand

def nameCandidates (fuel : ℕ) : List (CallableToolCandidate R) → (usedNames : List Text) →
    Option (List (ToolInfo R))
  | [], _ => some []
  | cand :: candidates, usedNames =>
    (uniqueCallableParts sha1 fuel cand.callableNamespace cand.callableName
      cand.rawToolIdentity usedNames mcpToolNameDelimiter.length).bind fun named =>
        (nameCandidates fuel candidates named.2).map fun modelTools =>
          { cand.tool with
            callableNamespace := named.1.1
            callableName := named.1.2 } :: modelTools

def sortedCandidates (tools : List (ToolInfo R)) : List (CallableToolCandidate R) :=
  let candidates := (distinctTools tools []).map
    (callableToolCandidate prefixMcpToolNames nonPrefixedMcpToolServers)
  let candidates := candidates.map (disambiguateNamespace sha1 candidates)
  let candidates := candidates.map (disambiguateTool sha1 candidates)
  candidates.insertionSort fun left right => left.rawToolIdentity ≤ right.rawToolIdentity

def normalizeToolsForModelWithPrefix (fuel : ℕ) (tools : List (ToolInfo R)) :
    Option (List (ToolInfo R)) :=
  nameCandidates sha1 fuel
    (sortedCandidates sha1 prefixMcpToolNames nonPrefixedMcpToolServers tools) []

end

open List

def Plain (text : Text) : Prop := ∀ c ∈ text, isNameChar c = true

theorem plain_append {fst snd : Text} (plain : Plain fst) (plain' : Plain snd) :
    Plain (fst ++ snd) := by
  intro c mem
  rcases mem_append.mp mem with ins | ins
  · exact plain c ins
  · exact plain' c ins

theorem Plain.take {txt : Text} (plain : Plain txt) (length : ℕ) : Plain (txt.take length) :=
  fun c mem => plain c (mem_of_mem_take mem)

theorem plain_sanitizeResponsesApiToolName (name : Text) :
    Plain (sanitizeResponsesApiToolName name) := by
  rw [sanitizeResponsesApiToolName]
  split_ifs with empty
  · intro c mem
    obtain rfl := mem_singleton.mp mem
    rfl
  intro c mem
  obtain ⟨raw, -, rfl⟩ := List.mem_map.mp mem
  split_ifs with kept
  · exact kept
  · rfl

theorem sanitizeResponsesApiToolName_ne_nil (name : Text) :
    sanitizeResponsesApiToolName name ≠ [] := by
  rw [sanitizeResponsesApiToolName]
  split_ifs with empty
  · exact cons_ne_nil _ _
  · exact fun nil => empty (List.isEmpty_iff.mpr nil)

theorem plain_callableNamespaceWithPrefix {space : Text} (plain : Plain space)
    (ne : space ≠ []) (prefixMcpToolNames : Bool) :
    Plain (callableNamespaceWithPrefix space prefixMcpToolNames) ∧
      callableNamespaceWithPrefix space prefixMcpToolNames ≠ [] := by
  rw [callableNamespaceWithPrefix]
  split_ifs
  · exact ⟨plain, ne⟩
  have legacy : ∀ c ∈ legacyMcpToolNamePrefix, isNameChar c = true :=
    List.all_eq_true.mp (by decide)
  exact ⟨plain_append legacy plain, append_ne_nil_of_right_ne_nil _ ne⟩

open Fresh Function

section

variable (sha1 : Sha1)

theorem plain_callableNameHashSuffix (rawIdentity : Text) :
    Plain (callableNameHashSuffix sha1 rawIdentity) := by
  intro c mem
  rcases mem_cons.mp mem with rfl | digit
  · rfl
  exact Bool.or_eq_true_iff.mpr
    (.inl (sha1.digits rawIdentity c (mem_of_mem_take digit)))

theorem length_callableNameHashSuffix (rawIdentity : Text) :
    (callableNameHashSuffix sha1 rawIdentity).length = 13 := by
  rw [callableNameHashSuffix, length_cons, length_take, sha1.length_hex]
  rfl

variable {sha1}

theorem plain_appendNamespaceHashSuffix {space : Text} (plain : Plain space)
    (rawIdentity : Text) : Plain (appendNamespaceHashSuffix sha1 space rawIdentity) := by
  rw [appendNamespaceHashSuffix]
  cases ends : space.dropSuffix? mcpToolNameDelimiter with
  | none => exact plain_append plain (plain_callableNameHashSuffix sha1 rawIdentity)
  | some shorter =>
    obtain ⟨tail, rfl, eq⟩ := dropSuffix?_eq_some_iff.mp ends
    have delim : Plain mcpToolNameDelimiter := by
      rw [← eq_of_beq eq]
      exact fun c mem => plain c (mem_append_right _ mem)
    refine plain_append (plain_append ?_ (plain_callableNameHashSuffix sha1 rawIdentity)) delim
    exact fun c mem => plain c (mem_append_left _ mem)

theorem appendHashSuffix_ne_nil (val rawIdentity : Text) :
    appendHashSuffix sha1 val rawIdentity ≠ [] :=
  append_ne_nil_of_right_ne_nil val (cons_ne_nil _ _)

theorem appendNamespaceHashSuffix_ne_nil (space rawIdentity : Text) :
    appendNamespaceHashSuffix sha1 space rawIdentity ≠ [] := by
  rw [appendNamespaceHashSuffix]
  cases space.dropSuffix? mcpToolNameDelimiter with
  | none => exact appendHashSuffix_ne_nil space rawIdentity
  | some shorter => exact append_ne_nil_of_right_ne_nil _ (cons_ne_nil _ _)

/-- Both parts are plain, and together within the length limit. -/
structure Acceptable (parts : Text × Text) : Prop where
  space_ne_nil : parts.1 ≠ []
  name_ne_nil : parts.2 ≠ []
  space_plain : Plain parts.1
  name_plain : Plain parts.2
  length_le : parts.1.length + mcpToolNameDelimiter.length + parts.2.length ≤ maxToolNameLength

variable {space toolName : Text}

theorem acceptable_fitCallablePartsWithHash (spaceNe : space ≠ []) (plain : Plain space)
    (plain' : Plain toolName) (rawIdentity : Text) :
    Acceptable (fitCallablePartsWithHash sha1 space toolName rawIdentity
      mcpToolNameDelimiter.length) := by
  have hashed := plain_callableNameHashSuffix sha1 rawIdentity
  have length := length_callableNameHashSuffix sha1 rawIdentity
  have delim : mcpToolNameDelimiter.length = 2 := rfl
  have limit : maxToolNameLength = 128 := rfl
  simp only [fitCallablePartsWithHash]
  split_ifs with room
  · refine ⟨spaceNe, ?_, plain, plain_append (plain'.take _) hashed, ?_⟩
    · exact append_ne_nil_of_right_ne_nil _ (cons_ne_nil _ _)
    simp only [length_append, truncateName, length_take]
    omega
  refine ⟨?_, cons_ne_nil _ _, plain.take _, hashed, ?_⟩
  · rw [truncateName, ne_eq, take_eq_nil_iff, not_or]
    exact ⟨by omega, spaceNe⟩
  simp only [truncateName, length_take]
  omega

variable (sha1) in
theorem exists_modelName_fitCallablePartsWithHash (space toolName rawIdentity : Text)
    (reservedLen : ℕ) :
    ∃ front, modelName (fitCallablePartsWithHash sha1 space toolName rawIdentity reservedLen) =
      front ++ callableNameHashSuffix sha1 rawIdentity := by
  simp only [fitCallablePartsWithHash, modelName]
  split_ifs
  · exact ⟨_, (append_assoc _ _ _).symm⟩
  · exact ⟨_, rfl⟩

theorem hashInput_injective (rawIdentity : Text) : Injective (hashInput rawIdentity) := by
  have longer : ∀ attempt ≠ 0, rawIdentity ≠ hashInput rawIdentity attempt := by
    intro attempt later eq
    rw [hashInput, if_neg later] at eq
    have lengths := congrArg List.length eq
    rw [length_append, length_cons] at lengths
    omega
  intro fst snd eq
  by_cases zero : fst = 0
  · by_cases zero' : snd = 0
    · rw [zero, zero']
    refine absurd ?_ (longer snd zero')
    rwa [zero] at eq
  by_cases zero' : snd = 0
  · refine absurd ?_ (longer fst zero)
    rw [zero'] at eq
    exact eq.symm
  rw [hashInput, hashInput, if_neg zero, if_neg zero', append_cancel_left_eq, List.cons.injEq] at eq
  have numbers := congrArg (Nat.ofDigitChars 10 · 0) eq.2
  simpa only [Nat.ofDigitChars_ten_toDigits] using numbers

variable {rawIdentity : Text} {used : List Text}

def attemptInputs (rawIdentity : Text) (attempts : ℕ) : Set Text :=
  {text | ∃ attempt ≤ attempts, text = hashInput rawIdentity attempt}

theorem attemptInputs_mono (rawIdentity : Text) {fewer attempts : ℕ} (le : fewer ≤ attempts) :
    attemptInputs rawIdentity fewer ⊆ attemptInputs rawIdentity attempts := by
  rintro txt ⟨attempt, ins, rfl⟩
  exact ⟨attempt, ins.trans le, rfl⟩

theorem modelName_attempt_injOn {attempts : ℕ}
    (ne : Set.InjOn (callableNameHashSuffix sha1) (attemptInputs rawIdentity attempts))
    {fst second : ℕ} (ins : fst ≤ attempts) (ins' : second ≤ attempts)
    (eq : modelName (fitCallablePartsWithHash sha1 space toolName (hashInput rawIdentity fst)
        mcpToolNameDelimiter.length) =
      modelName (fitCallablePartsWithHash sha1 space toolName (hashInput rawIdentity second)
        mcpToolNameDelimiter.length)) : fst = second := by
  obtain ⟨front, ends⟩ := exists_modelName_fitCallablePartsWithHash sha1 space toolName
    (hashInput rawIdentity fst) mcpToolNameDelimiter.length
  obtain ⟨front', ends'⟩ := exists_modelName_fitCallablePartsWithHash sha1 space toolName
    (hashInput rawIdentity second) mcpToolNameDelimiter.length
  rw [ends, ends'] at eq
  have hashes := (append_inj' eq (by
    rw [length_callableNameHashSuffix, length_callableNameHashSuffix])).2
  exact hashInput_injective rawIdentity
    (ne ⟨fst, ins, rfl⟩ ⟨second, ins', rfl⟩ hashes)

theorem exists_uniqueCallableParts (spaceNe : space ≠ []) (nameNe : toolName ≠ [])
    (plain : Plain space) (plain' : Plain toolName)
    (ne : Set.InjOn (callableNameHashSuffix sha1) (attemptInputs rawIdentity used.length)) :
    ∃ parts, Acceptable parts ∧ modelName parts ∉ used ∧ ∀ fuel, used.length < fuel →
      uniqueCallableParts sha1 fuel space toolName rawIdentity used
        mcpToolNameDelimiter.length = some (parts, modelName parts :: used) := by
  by_cases direct : (modelName (space, toolName)).length + mcpToolNameDelimiter.length ≤
      maxToolNameLength ∧ modelName (space, toolName) ∉ used
  · refine ⟨(space, toolName), ⟨spaceNe, nameNe, plain, plain', ?_⟩, direct.2, fun fuel _ => ?_⟩
    · have short := direct.1
      rw [modelName, length_append] at short
      omega
    · rw [uniqueCallableParts, if_pos direct]
  obtain ⟨parts, hit⟩ : ∃ parts, seek used modelName
      (fun attempt => fitCallablePartsWithHash sha1 space toolName
        (hashInput rawIdentity attempt) mcpToolNameDelimiter.length)
      (used.length + 1) 0 = some parts := by
    apply exists_seek
    intro fst ins snd ins' eq
    exact modelName_attempt_injOn ne ins ins' eq
  obtain ⟨⟨attempt, rfl⟩, fresh⟩ := seek_sound hit
  refine ⟨_, acceptable_fitCallablePartsWithHash spaceNe plain plain' _, fresh, ?_⟩
  intro fuel enough
  rw [uniqueCallableParts, if_neg direct, seek_of_le hit enough, Option.map_some]

end

section

variable {R : Type} {sha1 : Sha1} {prefixMcpToolNames : Bool}
  {nonPrefixedMcpToolServers : List Text}

structure Callable (candidate : CallableToolCandidate R) : Prop where
  space_ne_nil : candidate.callableNamespace ≠ []
  name_ne_nil : candidate.callableName ≠ []
  space_plain : Plain candidate.callableNamespace
  name_plain : Plain candidate.callableName
  identity_eq : candidate.rawToolIdentity = rawToolIdentity candidate.tool

theorem callable_callableToolCandidate (tool : ToolInfo R) :
    Callable (callableToolCandidate prefixMcpToolNames nonPrefixedMcpToolServers tool) := by
  have space := plain_callableNamespaceWithPrefix
    (plain_sanitizeResponsesApiToolName tool.callableNamespace)
    (sanitizeResponsesApiToolName_ne_nil tool.callableNamespace)
    (prefixMcpToolNames && !nonPrefixedMcpToolServers.contains tool.serverName)
  exact ⟨space.2, sanitizeResponsesApiToolName_ne_nil _, space.1,
    plain_sanitizeResponsesApiToolName _, rfl⟩

section

variable (cands : List (CallableToolCandidate R)) {candidate : CallableToolCandidate R}

theorem tool_disambiguateNamespace :
    (disambiguateNamespace sha1 cands candidate).tool = candidate.tool := by
  rw [disambiguateNamespace]
  split_ifs <;> rfl

theorem tool_disambiguateTool : (disambiguateTool sha1 cands candidate).tool = candidate.tool := by
  rw [disambiguateTool]
  split_ifs <;> rfl

theorem Callable.disambiguateNamespace (callable : Callable candidate) :
    Callable (Mcp.disambiguateNamespace sha1 cands candidate) := by
  rw [Mcp.disambiguateNamespace]
  split_ifs
  · exact { callable with
      space_ne_nil := appendNamespaceHashSuffix_ne_nil _ _
      space_plain := plain_appendNamespaceHashSuffix callable.space_plain _ }
  · exact callable

theorem Callable.disambiguateTool (callable : Callable candidate) :
    Callable (Mcp.disambiguateTool sha1 cands candidate) := by
  rw [Mcp.disambiguateTool]
  split_ifs
  · exact { callable with
      name_ne_nil := appendHashSuffix_ne_nil _ _
      name_plain := plain_append callable.name_plain (plain_callableNameHashSuffix sha1 _) }
  · exact callable

end

variable {candidate : CallableToolCandidate R} {tools : List (ToolInfo R)} {tool : ToolInfo R}
  {seenRawNames : List Text}

theorem callable_of_mem_sortedCandidates
    (mem : candidate ∈ sortedCandidates sha1 prefixMcpToolNames nonPrefixedMcpToolServers
      tools) : Callable candidate := by
  simp only [sortedCandidates, mem_insertionSort, mem_map] at mem
  obtain ⟨snd, ⟨fst, ⟨tool, -, rfl⟩, rfl⟩, rfl⟩ := mem
  exact ((callable_callableToolCandidate tool).disambiguateNamespace _).disambiguateTool _

theorem map_tool_sortedCandidates (tools : List (ToolInfo R)) :
    ((sortedCandidates sha1 prefixMcpToolNames nonPrefixedMcpToolServers tools).map
      (·.tool)).Perm (distinctTools tools []) := by
  refine ((perm_insertionSort _ _).map _).trans ?_
  simp only [map_map, comp_def, tool_disambiguateTool, tool_disambiguateNamespace,
    callableToolCandidate, map_id_fun', id_eq]
  exact List.Perm.refl _

theorem distinctTools_sublist (tools : List (ToolInfo R)) (seenRawNames : List Text) :
    (distinctTools tools seenRawNames).Sublist tools := by
  induction tools generalizing seenRawNames with
  | nil => exact List.Sublist.refl _
  | cons tool tools ih =>
    rw [distinctTools]
    split_ifs
    · exact (ih _).cons tool
    · exact (ih _).cons_cons tool

theorem nodup_distinctTools (tools : List (ToolInfo R)) (seenRawNames : List Text) :
    ((distinctTools tools seenRawNames).map rawToolIdentity).Nodup ∧
      ∀ tool ∈ distinctTools tools seenRawNames, rawToolIdentity tool ∉ seenRawNames := by
  induction tools generalizing seenRawNames with
  | nil => exact ⟨nodup_nil, fun tool mem => absurd mem not_mem_nil⟩
  | cons tool tools ih =>
    rw [distinctTools]
    split_ifs with seen
    · exact ih seenRawNames
    obtain ⟨nodup, fresh⟩ := ih (rawToolIdentity tool :: seenRawNames)
    refine ⟨nodup_cons.mpr ⟨?_, nodup⟩, ?_⟩
    · rintro mem
      obtain ⟨y, ins, eq⟩ := List.mem_map.mp mem
      exact fresh y ins (eq ▸ mem_cons_self)
    intro y mem
    rcases mem_cons.mp mem with rfl | ins
    · exact seen
    · exact fun old => fresh y ins (mem_cons_of_mem _ old)

theorem exists_mem_distinctTools (mem : tool ∈ tools)
    (fresh : rawToolIdentity tool ∉ seenRawNames) :
    ∃ kept ∈ distinctTools tools seenRawNames, rawToolIdentity kept = rawToolIdentity tool := by
  induction tools generalizing seenRawNames with
  | nil => cases mem
  | cons fst tools ih =>
    rw [distinctTools]
    split_ifs with seen
    · rcases mem_cons.mp mem with rfl | ins
      · exact absurd seen fresh
      · exact ih ins fresh
    by_cases eq : rawToolIdentity fst = rawToolIdentity tool
    · exact ⟨fst, mem_cons_self, eq⟩
    rcases mem_cons.mp mem with rfl | ins
    · exact absurd rfl eq
    obtain ⟨kept, ins, equal⟩ := ih ins (fun old =>
      (mem_cons.mp old).elim (fun equal => eq equal.symm) fresh)
    exact ⟨kept, mem_cons_of_mem fst ins, equal⟩

theorem distinctTools_of_nodup (nodup : (tools.map rawToolIdentity).Nodup)
    (fresh : ∀ tool ∈ tools, rawToolIdentity tool ∉ seenRawNames) :
    distinctTools tools seenRawNames = tools := by
  induction tools generalizing seenRawNames with
  | nil => rfl
  | cons tool tools ih =>
    obtain ⟨alone, later⟩ := nodup_cons.mp nodup
    rw [distinctTools, if_neg (fresh tool mem_cons_self), ih later]
    intro y mem old
    rcases mem_cons.mp old with eq | seen
    · exact alone (List.mem_map.mpr ⟨y, mem, eq⟩)
    · exact fresh y (mem_cons_of_mem tool mem) seen

def rawParts (tool : ToolInfo R) : List Text :=
  [tool.serverName, tool.callableNamespace, tool.connectorId.getD [], tool.callableName,
    tool.toolName]

theorem rawToolIdentity_inj {other : ToolInfo R} (plain : ∀ part ∈ rawParts tool, '\x00' ∉ part)
    (plain' : ∀ part ∈ rawParts other, '\x00' ∉ part) :
    rawToolIdentity tool = rawToolIdentity other ↔ rawParts tool = rawParts other := by
  have joined : ∀ tool : ToolInfo R,
      (rawParts tool).flatMap ('\x00' :: ·) = '\x00' :: rawToolIdentity tool := by
    intro tool
    simp [rawParts, rawToolIdentity, rawNamespaceIdentity, append_assoc]
  constructor
  · intro eq
    apply Text.eq_of_flatMap_separator plain plain'
    rw [joined, joined, eq]
  intro eq
  have texts := congrArg (List.flatMap ('\x00' :: ·)) eq
  rw [joined, joined] at texts
  exact (List.cons.inj texts).2

end

variable {R : Type} {sha1 : Sha1} {prefixMcpToolNames : Bool}
  {nonPrefixedMcpToolServers : List Text}

def ToolInfo.parts (tool : ToolInfo R) : Text × Text :=
  (tool.callableNamespace, tool.callableName)

def Renamed (tool result : ToolInfo R) : Prop :=
  result = { tool with
    callableNamespace := result.callableNamespace
    callableName := result.callableName }

def hashedIdentities (tools : List (ToolInfo R)) : Set Text :=
  {text | ∃ tool ∈ tools, text ∈ attemptInputs (rawToolIdentity tool) tools.length}

theorem exists_nameCandidates {cands : List (CallableToolCandidate R)}
    {used : List Text} (callable : ∀ cand ∈ cands, Callable cand)
    (ne : ∀ cand ∈ cands, Set.InjOn (callableNameHashSuffix sha1)
      (attemptInputs cand.rawToolIdentity (cands.length + used.length))) :
    ∃ res : List (ToolInfo R), (∀ fuel, cands.length + used.length ≤ fuel →
        nameCandidates sha1 fuel cands used = some res) ∧
      List.Forall₂ Renamed (cands.map (·.tool)) res ∧
      (∀ tool ∈ res, Acceptable tool.parts ∧ modelName tool.parts ∉ used) ∧
      (res.map fun tool => modelName tool.parts).Nodup := by
  induction cands generalizing used with
  | nil =>
    refine ⟨[], fun _ _ => rfl, .nil, ?_, nodup_nil⟩
    exact fun tool mem => absurd mem not_mem_nil
  | cons cand cands ih =>
    have here := callable cand mem_cons_self
    have hashes := (ne cand mem_cons_self).mono
      (attemptInputs_mono _ (Nat.le_add_left used.length _))
    obtain ⟨parts, acceptable, fresh, named⟩ :=
      exists_uniqueCallableParts here.space_ne_nil here.name_ne_nil here.space_plain
        here.name_plain hashes
    -- The name taken here makes up for the candidate that is done.
    have total : (cand :: cands).length + used.length =
        cands.length + (modelName parts :: used).length := by
      rw [length_cons, length_cons]
      omega
    rw [total] at ne
    obtain ⟨res, later, renamed, taken, nodup⟩ :=
      ih (fun other mem => callable other (mem_cons_of_mem _ mem))
        (fun other mem => ne other (mem_cons_of_mem _ mem))
    refine ⟨{ cand.tool with callableNamespace := parts.1, callableName := parts.2 } ::
      res, ?_, .cons rfl renamed, ?_, ?_⟩
    · intro fuel enough
      rw [total] at enough
      have room : used.length < fuel := by
        rw [length_cons] at enough
        omega
      rw [nameCandidates, named fuel room, Option.bind_some, later fuel enough, Option.map_some]
    · intro tool mem
      rcases mem_cons.mp mem with rfl | ins
      · exact ⟨acceptable, fresh⟩
      obtain ⟨good, unused⟩ := taken tool ins
      exact ⟨good, fun old => unused (mem_cons_of_mem _ old)⟩
    refine nodup_cons.mpr ⟨?_, nodup⟩
    intro mem
    obtain ⟨tool, ins, eq⟩ := List.mem_map.mp mem
    exact (taken tool ins).2 (eq ▸ mem_cons_self)

section

variable {tools other : List (ToolInfo R)} {cands cands' : List (CallableToolCandidate R)}

theorem identityCount_of_perm {β : Type} [DecidableEq β] (eq : cands.Perm cands')
    (base : CallableToolCandidate R → β) (identity : CallableToolCandidate R → Text) :
    identityCount cands base identity = identityCount cands' base identity :=
  funext fun _ => (((eq.filter _).map identity).dedup).length_eq

theorem disambiguateNamespace_of_perm (eq : cands.Perm cands') :
    disambiguateNamespace sha1 cands = disambiguateNamespace sha1 cands' := by
  funext cand
  rw [disambiguateNamespace, disambiguateNamespace, identityCount_of_perm eq]

theorem disambiguateTool_of_perm (eq : cands.Perm cands') :
    disambiguateTool sha1 cands = disambiguateTool sha1 cands' := by
  funext cand
  rw [disambiguateTool, disambiguateTool, identityCount_of_perm eq]

theorem nodup_rawToolIdentity_sortedCandidates (tools : List (ToolInfo R)) :
    ((sortedCandidates sha1 prefixMcpToolNames nonPrefixedMcpToolServers tools).map
      (·.rawToolIdentity)).Nodup := by
  have identities : (sortedCandidates sha1 prefixMcpToolNames nonPrefixedMcpToolServers tools).map
      (·.rawToolIdentity) =
        ((sortedCandidates sha1 prefixMcpToolNames nonPrefixedMcpToolServers tools).map
          (·.tool)).map rawToolIdentity := by
    rw [map_map]
    exact map_congr_left fun cand mem =>
      (callable_of_mem_sortedCandidates mem).identity_eq
  rw [identities, (((map_tool_sortedCandidates tools).map rawToolIdentity)).nodup_iff]
  exact (nodup_distinctTools tools []).1

theorem sortedCandidates_of_perm (nodup : (tools.map rawToolIdentity).Nodup)
    (eq : tools.Perm other) :
    sortedCandidates sha1 prefixMcpToolNames nonPrefixedMcpToolServers tools =
      sortedCandidates sha1 prefixMcpToolNames nonPrefixedMcpToolServers other := by
  have distinct' : (other.map rawToolIdentity).Nodup := (eq.map rawToolIdentity).nodup_iff.mp
    nodup
  have perm : (sortedCandidates sha1 prefixMcpToolNames nonPrefixedMcpToolServers tools).Perm
      (sortedCandidates sha1 prefixMcpToolNames nonPrefixedMcpToolServers other) := by
    simp only [sortedCandidates]
    rw [distinctTools_of_nodup nodup fun _ _ => not_mem_nil,
      distinctTools_of_nodup distinct' fun _ _ => not_mem_nil]
    have fst := eq.map (callableToolCandidate prefixMcpToolNames nonPrefixedMcpToolServers)
    have snd := fst.map (disambiguateNamespace sha1 (tools.map
      (callableToolCandidate prefixMcpToolNames nonPrefixedMcpToolServers)))
    rw [← disambiguateNamespace_of_perm fst, ← disambiguateTool_of_perm snd]
    exact (perm_insertionSort _ _).trans
      ((snd.map _).trans (perm_insertionSort _ _).symm)
  refine List.Perm.eq_of_pairwise ?_ (pairwise_insertionSort _ _)
    (pairwise_insertionSort _ _) perm
  intro left right mem mem' pre after
  exact inj_on_of_nodup_map (nodup_rawToolIdentity_sortedCandidates other)
    (perm.mem_iff.mp mem) mem' (le_antisymm pre after)

end

def JoinedDirectly (tool : ToolInfo R) : Prop :=
  tool.canonicalToolName.isDefaultNamespace = false ∧
    (tool.callableNamespace.getLast? = some '_' ∨ tool.callableName.head? = some '_')

def JoinedAlike (tool other : ToolInfo R) : Prop :=
  (JoinedDirectly tool ∧ JoinedDirectly other) ∨ (¬ JoinedDirectly tool ∧ ¬ JoinedDirectly other ∧
      tool.callableNamespace = other.callableNamespace)

def codeModeName (tool : ToolInfo R) : Text :=
  codeModeNameForToolName tool.canonicalToolName

theorem codeModeName_of_joinedDirectly {tool : ToolInfo R} (direct : JoinedDirectly tool) :
    codeModeName tool = modelName tool.parts := by
  have named : tool.canonicalToolName.isDefaultNamespace ≠ true :=
    fun default => absurd (direct.1.symm.trans default) Bool.false_ne_true
  rw [codeModeName, codeModeNameForToolName, if_neg named]
  exact if_pos direct.2

theorem codeModeName_of_not_joinedDirectly {tool : ToolInfo R} (apart : ¬ JoinedDirectly tool) :
    codeModeName tool =
      if tool.canonicalToolName.isDefaultNamespace then tool.callableName
      else tool.callableNamespace ++ ("__" ++ tool.callableName) := by
  rw [codeModeName, codeModeNameForToolName]
  split_ifs with default
  · rfl
  · exact if_neg fun underscore => apart ⟨Bool.not_eq_true _ ▸ default, underscore⟩

open ToolInfo

theorem codeModeName_ne {tool other : ToolInfo R}
    (ne : modelName tool.parts ≠ modelName other.parts) (alike : JoinedAlike tool other) :
    codeModeName tool ≠ codeModeName other := by
  rcases alike with ⟨direct, direct'⟩ | ⟨apart, apart', space⟩
  · rwa [codeModeName_of_joinedDirectly direct, codeModeName_of_joinedDirectly direct']
  intro eq
  have default : tool.canonicalToolName.isDefaultNamespace =
      other.canonicalToolName.isDefaultNamespace := by
    rw [canonicalToolName, canonicalToolName, ToolName.isDefaultNamespace,
      ToolName.isDefaultNamespace, space]
  rw [codeModeName_of_not_joinedDirectly apart, codeModeName_of_not_joinedDirectly apart',
    default, space] at eq
  have name : tool.callableName = other.callableName := by
    split_ifs at eq
    · exact eq
    · exact append_cancel_left (append_cancel_left eq)
  exact ne (by rw [parts, parts, space, name])

/-- The result has one renamed tool for each raw identity. -/
def OnePerIdentity (tools result : List (ToolInfo R)) : Prop :=
  ∃ kept, kept ⊆ tools ∧ (kept.map rawParts).Nodup ∧
    (∀ tool ∈ tools, rawParts tool ∈ kept.map rawParts) ∧ List.Forall₂ Renamed kept result

section

variable {tools : List (ToolInfo R)}
  (plain : ∀ tool ∈ tools, ∀ part ∈ rawParts tool, '\x00' ∉ part)
include plain

theorem rawParts_eq_of_mem {tool other : ToolInfo R} (mem : tool ∈ tools) (mem' : other ∈ tools) :
    rawToolIdentity tool = rawToolIdentity other ↔ rawParts tool = rawParts other :=
  rawToolIdentity_inj (plain tool mem) (plain other mem')

theorem nodup_map_rawParts {kept : List (ToolInfo R)} (ins : kept ⊆ tools) :
    (kept.map rawParts).Nodup ↔ (kept.map rawToolIdentity).Nodup := by
  rw [List.Nodup, List.Nodup, pairwise_map, pairwise_map]
  constructor
  · refine fun nodup => nodup.imp_of_mem ?_
    exact fun mem mem' => mt (rawParts_eq_of_mem plain (ins mem) (ins mem')).mp
  refine fun nodup => nodup.imp_of_mem ?_
  exact fun mem mem' => mt (rawParts_eq_of_mem plain (ins mem) (ins mem')).mpr

theorem onePerIdentity_of_renamed {result : List (ToolInfo R)}
    (renamed : List.Forall₂ Renamed ((sortedCandidates sha1 prefixMcpToolNames
      nonPrefixedMcpToolServers tools).map (·.tool)) result) : OnePerIdentity tools result := by
  have eq : ((sortedCandidates sha1 prefixMcpToolNames nonPrefixedMcpToolServers tools).map
      (·.tool)).Perm (distinctTools tools []) := map_tool_sortedCandidates tools
  refine ⟨_, fun tool mem => (distinctTools_sublist tools []).subset (eq.subset mem), ?_, ?_,
    renamed⟩
  · rw [(eq.map rawParts).nodup_iff,
      nodup_map_rawParts plain (distinctTools_sublist tools []).subset]
    exact (nodup_distinctTools tools []).1
  intro tool mem
  obtain ⟨kept, ins, identity⟩ := exists_mem_distinctTools mem not_mem_nil
  have parts := (rawParts_eq_of_mem plain ((distinctTools_sublist tools []).subset ins)
    mem).mp identity
  rw [(eq.map rawParts).mem_iff, ← parts]
  exact mem_map_of_mem ins

end

theorem injOn_of_mem_sortedCandidates {tools : List (ToolInfo R)}
    (ne : Set.InjOn (fun txt => (sha1.hex txt).take callableNameHashLen)
      (hashedIdentities tools)) {cand : CallableToolCandidate R}
    (mem : cand ∈ sortedCandidates sha1 prefixMcpToolNames nonPrefixedMcpToolServers tools)
    {attempts : ℕ} (le : attempts ≤ tools.length) :
    Set.InjOn (callableNameHashSuffix sha1) (attemptInputs cand.rawToolIdentity attempts) := by
  have kept : cand.tool ∈ distinctTools tools [] :=
    (map_tool_sortedCandidates tools).subset (mem_map_of_mem mem)
  have occurs : attemptInputs cand.rawToolIdentity attempts ⊆ hashedIdentities tools := by
    intro txt input
    rw [(callable_of_mem_sortedCandidates mem).identity_eq] at input
    exact ⟨cand.tool, (distinctTools_sublist tools []).subset kept,
      attemptInputs_mono _ le input⟩
  intro txt input txt' input' eq
  exact ne (occurs input) (occurs input') (List.cons.inj eq).2

/-- Every raw identity gets one tool with acceptable parts of its own, in whatever order. -/
theorem normalizeToolsForModelWithPrefix_distinct (sha1 : Sha1) (prefixMcpToolNames : Bool)
    (nonPrefixedMcpToolServers : List Text) (tools : List (ToolInfo R))
    (plain : ∀ tool ∈ tools, ∀ part ∈ rawParts tool, '\x00' ∉ part)
    (ne : Set.InjOn (fun text => (sha1.hex text).take callableNameHashLen)
      (hashedIdentities tools)) :
    ∃ result, (∀ fuel, tools.length ≤ fuel →
        normalizeToolsForModelWithPrefix sha1 prefixMcpToolNames nonPrefixedMcpToolServers fuel
          tools = some result) ∧
      OnePerIdentity tools result ∧
      (∀ tool ∈ result, Acceptable tool.parts) ∧
      (result.Pairwise fun tool other => tool.parts ≠ other.parts) ∧
      (result.Pairwise fun tool other =>
        JoinedAlike tool other → codeModeName tool ≠ codeModeName other) ∧
      ((tools.map rawParts).Nodup → ∀ other, tools.Perm other → ∀ fuel, tools.length ≤ fuel →
        normalizeToolsForModelWithPrefix sha1 prefixMcpToolNames nonPrefixedMcpToolServers fuel
          other = some result) := by
  have fewer : (sortedCandidates sha1 prefixMcpToolNames nonPrefixedMcpToolServers tools).length +
      ([] : List Text).length ≤ tools.length := by
    have kept : ((sortedCandidates sha1 prefixMcpToolNames nonPrefixedMcpToolServers tools).map
        (·.tool)).length = _ := (map_tool_sortedCandidates tools).length_eq
    rw [length_map] at kept
    rw [kept]
    exact (distinctTools_sublist tools []).length_le
  obtain ⟨result, named, renamed, taken, distinct⟩ :=
    @exists_nameCandidates R sha1
      (sortedCandidates sha1 prefixMcpToolNames nonPrefixedMcpToolServers tools) []
      (fun _ mem => callable_of_mem_sortedCandidates mem)
      (fun _ mem => injOn_of_mem_sortedCandidates ne mem fewer)
  have apart : result.Pairwise fun tool other => modelName tool.parts ≠ modelName other.parts :=
    pairwise_map.mp distinct
  refine ⟨result, fun fuel enough => named fuel (fewer.trans enough),
    onePerIdentity_of_renamed plain renamed, fun tool mem => (taken tool mem).1,
    apart.imp fun ne eq => ne (congrArg modelName eq),
    apart.imp fun ne alike => codeModeName_ne ne alike, ?_⟩
  intro unrepeated other eq fuel enough
  rw [nodup_map_rawParts plain (List.Subset.refl tools)] at unrepeated
  rw [normalizeToolsForModelWithPrefix, ← sortedCandidates_of_perm unrepeated eq]
  exact named fuel (fewer.trans enough)

def mixedDigits (text : Text) : Text :=
  let number := text.foldl (fun sum c => (sum * 1000003 + c.toNat) % 16 ^ 40) 1
  (List.range 40).map fun pos => Nat.digitChar (number / 16 ^ pos % 16)

theorem isAlphanum_mixedDigits (txt : Text) : ∀ c ∈ mixedDigits txt, c.isAlphanum = true := by
  have digits : ∀ digit < 16, (Nat.digitChar digit).isAlphanum = true := by decide
  intro c mem
  obtain ⟨pos, -, rfl⟩ := List.mem_map.mp mem
  exact digits _ (Nat.mod_lt _ (by decide))

def mixedSha1 : Sha1 where
  hex := mixedDigits
  length_hex text := by rw [mixedDigits, length_map, length_range]
  digits := isAlphanum_mixedDigits

def serverTool (space name : String) : ToolInfo Unit where
  serverName := "server"
  callableName := name.toList
  callableNamespace := space.toList
  connectorId := none
  toolName := name.toList
  rest := ()

def dashedTools : List (ToolInfo Unit) :=
  [serverTool "docs" "get-page", serverTool "docs" "get.page"]

theorem injOn_dashedTools : Set.InjOn (fun txt => (mixedSha1.hex txt).take callableNameHashLen)
    (hashedIdentities dashedTools) := by
  have finite : ∀ tool ∈ dashedTools, ∀ attempt < 3, ∀ other ∈ dashedTools, ∀ attempt' < 3,
      (mixedDigits (hashInput (rawToolIdentity tool) attempt)).take 12 =
          (mixedDigits (hashInput (rawToolIdentity other) attempt')).take 12 →
        hashInput (rawToolIdentity tool) attempt = hashInput (rawToolIdentity other) attempt' := by
    decide +kernel
  rintro _ ⟨tool, mem, attempt, le, rfl⟩ _ ⟨other, mem', attempt', le', rfl⟩ eq
  exact finite tool mem attempt (Nat.lt_succ_of_le le) other mem' attempt'
    (Nat.lt_succ_of_le le') eq

theorem normalizeToolsForModelWithPrefix_dashed :
    ∃ result, normalizeToolsForModelWithPrefix mixedSha1 true [] 2 dashedTools = some result ∧
      OnePerIdentity dashedTools result ∧ (∀ tool ∈ result, Acceptable tool.parts) ∧
      (result.Pairwise fun tool other => tool.parts ≠ other.parts) ∧
      normalizeToolsForModelWithPrefix mixedSha1 true [] 2 dashedTools.reverse = some result := by
  obtain ⟨result, named, one, taken, apart, -, reordered⟩ :=
    normalizeToolsForModelWithPrefix_distinct mixedSha1 true [] dashedTools (by decide)
      injOn_dashedTools
  exact ⟨result, named 2 le_rfl, one, taken, apart,
    reordered (by decide) _ (reverse_perm _).symm 2 le_rfl⟩

/-- Two tools with different parts that have one name in code mode. -/
theorem codeModeName_shared : ∃ result, normalizeToolsForModelWithPrefix mixedSha1 false [] 2
        [serverTool "a" "b__c", serverTool "a__b" "c"] = some result ∧
      result.map ToolInfo.parts = [("a".toList, "b__c".toList), ("a__b".toList, "c".toList)] ∧
      result.map codeModeName = ["a__b__c".toList, "a__b__c".toList] := by
  refine ⟨[serverTool "a" "b__c", serverTool "a__b" "c"], ?_, ?_, ?_⟩ <;> decide +kernel

end Codex.Mcp
