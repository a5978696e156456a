import Codex.ApplyPatch.StreamingParser

/-!
# What one patch line can do

A successful line leaves the hunks alone, opens one or extends the last.
-/

namespace Codex.ApplyPatch

open List

def Hunk.opened : Hunk → Hunk
  | .addFile path _ => .addFile path []
  | .deleteFile path => .deleteFile path
  | .updateFile path _ _ => .updateFile path none []

def headerText : StreamingParserMode → Text → Text
  | .updateFile _, line => Text.trimEnd line
  | _, line => Text.trim line

inductive Header
  | environment (environmentId : Text)
  | endPatch
  | openHunk (hunk : Hunk) (mode : StreamingParserMode)

variable (mode : StreamingParserMode)

def Header.read (lineNo : Nat) (header : Text) : Option Header :=
  match mode, header.dropPrefix? environmentIdMarker with
  | .startedPatch, some environmentId => some (.environment environmentId)
  | _, _ =>
    if header = endPatchMarker then some .endPatch
    else match header.dropPrefix? addFileMarker with
    | some path => some (.openHunk (.addFile path []) .addFile)
    | none => match header.dropPrefix? deleteFileMarker with
    | some path => some (.openHunk (.deleteFile path) .deleteFile)
    | none => match header.dropPrefix? updateFileMarker with
    | some path => some (.openHunk (.updateFile path none []) (.updateFile lineNo))
    | none => none

inductive UpdateAction
  | skip
  | moveTo (path : Text)
  | startChunk (changeContext : Option Text)
  | markEndOfFile
  | context (line : Text)
  | added (line : Text)
  | removed (line : Text)

/-- Whether the last chunk is at the end of the file and whether it is blank. -/
def chunkSummary (chunks : List UpdateFileChunk) : Option (Bool × Bool) :=
  chunks.getLast?.map fun chunk => (chunk.isEndOfFile, chunk.isBlank)

def UpdateAction.ofContent : Text → Option UpdateAction
  | [] => some (.context [])
  | ' ' :: line => some (.context line)
  | '+' :: line => some (.added line)
  | '-' :: line => some (.removed line)
  | _ => none

/-- `content` is the meaning of a line whose trimmed text is no marker. -/
def UpdateAction.readMarker (movePath : Option Text) (summary : Option (Bool × Bool))
    (updateLine : Text) (body : Option UpdateAction) : Option UpdateAction :=
  let isContextMarker :=
    updateLine == emptyChangeContextMarker || changeContextMarker.isPrefixOf updateLine
  if summary.any (·.1) && updateLine.isEmpty then some .skip
  else if summary.any (·.1) && !isContextMarker then none
  else match summary, movePath, updateLine.dropPrefix? moveToMarker with
  | none, none, some moveToPath => some (.moveTo moveToPath)
  | _, _, _ =>
  if isContextMarker && summary.any (·.2) then none
  else if updateLine = emptyChangeContextMarker then some (.startChunk none)
  else match updateLine.dropPrefix? changeContextMarker with
  | some changeContext => some (.startChunk (some changeContext))
  | none =>
  if updateLine = eofMarker then
    if summary.any (·.2) then none else some .markEndOfFile
  else body

def UpdateAction.read (movePath : Option Text) (summary : Option (Bool × Bool)) (line : Text) :
    Option UpdateAction :=
  readMarker movePath summary (Text.trimEnd line) (ofContent line)

def UpdateAction.apply : UpdateAction → Option Text → List UpdateFileChunk →
    Option Text × List UpdateFileChunk
  | .skip, movePath, chunks => (movePath, chunks)
  | .moveTo path, _, chunks => (some path, chunks)
  | .startChunk changeContext, movePath, chunks => (movePath, chunks ++ [{ changeContext }])
  | .markEndOfFile, movePath, chunks => (movePath, StreamingPatchParser.markEndOfFile chunks)
  | .context line, movePath, chunks =>
    (movePath, StreamingPatchParser.editLastChunk (·.pushContextLine line) chunks)
  | .added line, movePath, chunks =>
    (movePath, StreamingPatchParser.editLastChunk (·.pushNewLine line) chunks)
  | .removed line, movePath, chunks =>
    (movePath, StreamingPatchParser.editLastChunk (·.pushOldLine line) chunks)

open Except Text

theorem read_of_processUpdateLine {lineNo : Nat} {movePath : Option Text}
    {chunks : List UpdateFileChunk} {line : Text} {res : Option Text × List UpdateFileChunk}
    (past : StreamingPatchParser.processUpdateLine lineNo movePath chunks line = .ok res) :
    ∃ act, UpdateAction.read movePath (chunkSummary chunks) line = some act ∧
      res = act.apply movePath chunks := by
  have anchored : (chunkSummary chunks).any (·.1) = chunks.getLast?.any (·.isEndOfFile) := by
    cases final : chunks.getLast? <;> simp [chunkSummary, final]
  have blank : (chunkSummary chunks).any (·.2) = chunks.getLast?.any (·.isBlank) := by
    cases final : chunks.getLast? <;> simp [chunkSummary, final]
  have noChunk : chunkSummary chunks = none ↔ chunks = [] := by simp [chunkSummary]
  simp only [UpdateAction.read, UpdateAction.readMarker, anchored, blank]
  simp only [StreamingPatchParser.processUpdateLine] at past
  split at past
  · rename_i skipped
    exact ⟨.skip, by rw [if_pos skipped], (ok.inj past).symm⟩
  rename_i notSkipped
  rw [if_neg notSkipped]
  split at past
  · cases past
  rename_i more
  rw [if_neg more]
  split at past
  · rename_i moveToPath moved
    exact ⟨.moveTo moveToPath, by simp [chunkSummary, moved], (ok.inj past).symm⟩
  rename_i chunks movePath _ _ _ notMoved
  have fallsThrough : ∀ otherwise, (match chunkSummary chunks, movePath,
      List.dropPrefix? (trimEnd line) moveToMarker with
      | none, none, some moveToPath => some (UpdateAction.moveTo moveToPath)
      | _, _, _ => otherwise) = otherwise := by
    intro otherwise
    split
    · rename_i none moved
      exact (notMoved _ (noChunk.mp none) rfl moved).elim
    · rfl
  rw [fallsThrough]
  split at past
  · cases past
  rename_i notUnexpected
  rw [if_neg notUnexpected]
  split at past
  · rename_i bare
    exact ⟨.startChunk none, by rw [if_pos bare], (ok.inj past).symm⟩
  rename_i notBare
  rw [if_neg notBare]
  cases ctx : List.dropPrefix? (trimEnd line) changeContextMarker with
  | some changeContext =>
    rw [ctx] at past
    exact ⟨.startChunk (some changeContext), rfl, (ok.inj past).symm⟩
  | none =>
    rw [ctx] at past
    dsimp only at past ⊢
    split at past
    · rename_i eof
      split at past
      · cases past
      rename_i filled
      exact ⟨.markEndOfFile, by simp [eof, filled], (ok.inj past).symm⟩
    rename_i notEof
    simp only [if_neg notEof]
    split at past
    · exact ⟨.context [], rfl, (ok.inj past).symm⟩
    · exact ⟨.context _, rfl, (ok.inj past).symm⟩
    · exact ⟨.added _, rfl, (ok.inj past).symm⟩
    · exact ⟨.removed _, rfl, (ok.inj past).symm⟩
    · split at past <;> cases past

inductive LineAction
  | beginPatch
  | header (header : Header)
  | addLine (line : Text)
  | update (act : UpdateAction)
  | blank

def LineAction.readContent (last : Option Hunk) (line : Text) : Option LineAction :=
  match mode, last with
  | .addFile, some (.addFile _ _) =>
    match line with
    | '+' :: lineToAdd => some (.addLine lineToAdd)
    | _ => none
  | .updateFile _, some (.updateFile _ movePath chunks) =>
    (UpdateAction.read movePath (chunkSummary chunks) line).map .update
  | _, _ => none

def LineAction.read (last : Option Hunk) (lineNo : Nat) (line : Text) : Option LineAction :=
  match mode with
  | .notStarted => if Text.trim line = beginPatchMarker then some .beginPatch else none
  | .endedPatch => if Text.trim line = [] then some .blank else none
  | mode =>
    match Header.read mode lineNo (headerText mode line) with
    | some recognised => some (.header recognised)
    | none => readContent mode last line

def Hunk.addLine (lineToAdd : Text) : Hunk → Hunk
  | .addFile path texts => .addFile path (texts ++ lineToAdd ++ ['\n'])
  | hunk => hunk

def Hunk.update (act : UpdateAction) : Hunk → Hunk
  | .updateFile path movePath chunks =>
    .updateFile path (act.apply movePath chunks).1 (act.apply movePath chunks).2
  | hunk => hunk

def editLastHunk (edit : Hunk → Hunk) (hunks : List Hunk) : List Hunk :=
  hunks.dropLast ++ (hunks.getLast?.map edit).toList

@[simp]
theorem editLastHunk_concat (edit : Hunk → Hunk) (front : List Hunk) (last : Hunk) :
    editLastHunk edit (front ++ [last]) = front ++ [edit last] := by
  simp [editLastHunk]

def LineAction.apply : LineAction → StreamingParserState → StreamingParserState
  | .beginPatch, state => { state with mode := .startedPatch }
  | .header (.environment environmentId), state =>
    { state with environmentId := some (Text.trim environmentId) }
  | .header .endPatch, state => { state with mode := .endedPatch }
  | .header (.openHunk hunk mode), state => { state with mode, hunks := state.hunks ++ [hunk] }
  | .addLine line, state => { state with hunks := editLastHunk (·.addLine line) state.hunks }
  | .update act, state => { state with hunks := editLastHunk (·.update act) state.hunks }
  | .blank, state => state

def StreamingParserState.LastUpdateFilled (state : StreamingParserState) : Prop :=
  ∀ path movePath chunks, state.hunks.getLast? = some (.updateFile path movePath chunks) →
    match chunks.getLast? with
    | none => ∀ hunkLine, state.mode ≠ .updateFile hunkLine
    | some chunk => chunk.isBlank = false

def LineAction.Allowed : LineAction → StreamingParserState → Prop
  | .header (.environment environmentId), state =>
    state.environmentId = none ∧ Text.trim environmentId ≠ []
  | .header .endPatch, state | .header (.openHunk _ _), state => state.LastUpdateFilled
  | _, _ => True

structure LineStep (lineNo : Nat) (line : Text) (act : LineAction)
    (pre after : StreamingParserState) : Prop where
  read : LineAction.read pre.mode pre.hunks.getLast? lineNo line = some act
  allowed : act.Allowed pre
  result : after = act.apply pre

open LineAction

namespace StreamingPatchParser

variable {self : StreamingPatchParser} {line : Text} {next : StreamingPatchParser}
  {trimmed : Text}

theorem lastUpdateFilled_of_ensured (ensured : self.ensureUpdateHunkIsNotEmpty line = .ok ()) :
    self.state.LastUpdateFilled := by
  intro path movePath chunks last
  simp only [ensureUpdateHunkIsNotEmpty, last] at ensured
  split at ensured
  · cases ensured
  · rename_i none otherMode
    rw [none]
    exact fun hunkLine mode => otherMode hunkLine mode
  rename_i chunk final
  rw [final]
  split at ensured
  · split at ensured <;> cases ensured
  rename_i filled
  simpa using filled

theorem openHunk_ok {hunk : Hunk} {mode : StreamingParserMode}
    (opened : self.openHunk trimmed hunk mode = .ok next) :
    self.state.LastUpdateFilled ∧ next = { self with
      state := { self.state with mode, hunks := self.state.hunks ++ [hunk] } } := by
  simp only [openHunk, bind_eq_ok_iff] at opened
  obtain ⟨_, ensured, res⟩ := opened
  exact ⟨lastUpdateFilled_of_ensured ensured, (ok.inj res).symm⟩

theorem endPatch_ok (ended : self.endPatch trimmed = .ok next) : self.state.LastUpdateFilled ∧
      next = { self with state := { self.state with mode := .endedPatch } } := by
  simp only [endPatch, bind_eq_ok_iff] at ended
  obtain ⟨_, ensured, res⟩ := ended
  exact ⟨lastUpdateFilled_of_ensured ensured, (ok.inj res).symm⟩

theorem setEnvironmentId_ok {environmentId : Text}
    (noted : self.setEnvironmentId environmentId = .ok next) :
    self.state.environmentId = none ∧ trim environmentId ≠ [] ∧
      next = { self with
        state := { self.state with environmentId := some (trim environmentId) } } := by
  unfold setEnvironmentId at noted
  split at noted
  · cases noted
  rename_i fresh
  split at noted
  · cases noted
  rename_i named
  exact ⟨by simpa using fresh, named, (ok.inj noted).symm⟩

theorem handleHunkHeaders_eq (self : StreamingPatchParser) (hdr : Text) :
    self.handleHunkHeadersAndEndPatch hdr =
      match Header.read self.state.mode self.lineNumber hdr with
      | none => .ok none
      | some (.environment envId) => some <$> self.setEnvironmentId envId
      | some .endPatch => some <$> self.endPatch hdr
      | some (.openHunk hunk mode) => some <$> self.openHunk hdr hunk mode := by
  unfold handleHunkHeadersAndEndPatch Header.read
  repeat' split
  all_goals simp_all

private theorem header_of_handled {txt : Text}
    (handled : self.handleHunkHeadersAndEndPatch txt = .ok (some next)) :
    ∃ hdr, Header.read self.state.mode self.lineNumber txt = some hdr ∧
      (header hdr).Allowed self.state ∧
      next = { self with state := (header hdr).apply self.state } := by
  rw [handleHunkHeaders_eq] at handled
  split at handled
  · cases handled
  · rename_i hdr
    obtain ⟨_, noted, rfl⟩ := by simpa only [map_eq_ok_iff, Option.some.injEq] using handled
    obtain ⟨fresh, named, rfl⟩ := setEnvironmentId_ok noted
    exact ⟨_, hdr, ⟨fresh, named⟩, rfl⟩
  · rename_i hdr
    obtain ⟨_, ended, rfl⟩ := by simpa only [map_eq_ok_iff, Option.some.injEq] using handled
    obtain ⟨filled, rfl⟩ := endPatch_ok ended
    exact ⟨_, hdr, filled, rfl⟩
  rename_i hdr
  obtain ⟨_, opened, rfl⟩ := by simpa only [map_eq_ok_iff, Option.some.injEq] using handled
  obtain ⟨filled, rfl⟩ := openHunk_ok opened
  exact ⟨_, hdr, filled, rfl⟩

private theorem read_eq_none_of_handled {hdr : Text}
    (handled : self.handleHunkHeadersAndEndPatch hdr = .ok none) :
    Header.read self.state.mode self.lineNumber hdr = none := by
  rw [handleHunkHeaders_eq] at handled
  split at handled
  · assumption
  all_goals simp [map_eq_ok_iff] at handled

private theorem lineStep_of_inPatch {body : Except ParseError StreamingPatchParser}
    (inPatch : LineAction.read self.state.mode self.state.hunks.getLast? self.lineNumber
      line = match Header.read self.state.mode self.lineNumber
          (headerText self.state.mode line) with
        | some hdr => some (.header hdr)
        | none => readContent self.state.mode self.state.hunks.getLast? line)
    (past : (do
      match ← self.handleHunkHeadersAndEndPatch (headerText self.state.mode line) with
      | some next => return next
      | none => body) = .ok next)
    (stored : body = .ok next → ∃ act,
      readContent self.state.mode self.state.hunks.getLast? line = some act ∧
        act.Allowed self.state ∧
        next = { self with state := act.apply self.state }) :
    ∃ act, LineStep self.lineNumber line act self.state next.state ∧
      next = { self with state := next.state } := by
  obtain ⟨handled, recognised, tl⟩ := bind_eq_ok_iff.mp past
  cases handled with
  | some handled =>
    obtain rfl : handled = next := ok.inj tl
    obtain ⟨hdr, read, allowed, rfl⟩ := header_of_handled recognised
    exact ⟨.header hdr, ⟨by rw [inPatch, read], allowed, rfl⟩, rfl⟩
  | none =>
    obtain ⟨act, read, allowed, rfl⟩ := stored tl
    refine ⟨act, ⟨?_, allowed, rfl⟩, rfl⟩
    rw [inPatch, read_eq_none_of_handled recognised]
    exact read

theorem lineStep_of_processLine (past : self.processLine line = .ok next) :
    ∃ act, LineStep self.lineNumber line act self.state next.state ∧
      next = { self with state := next.state } := by
  obtain ⟨buf, ⟨mode, hunks, envId⟩, lineNo⟩ := self
  cases mode with
  | notStarted =>
    simp only [processLine] at past
    split at past
    · rename_i marker
      obtain rfl := ok.inj past
      exact ⟨.beginPatch, ⟨by simp [LineAction.read, marker], trivial, rfl⟩, rfl⟩
    · cases past
  | startedPatch | deleteFile => exact lineStep_of_inPatch rfl past (by intro never; cases never)
  | addFile =>
    refine lineStep_of_inPatch rfl past fun body => ?_
    simp only at body
    split at body
    · rename_i lineToAdd path texts last
      obtain rfl := ok.inj body
      refine ⟨.addLine lineToAdd, by simp [readContent, last], trivial, ?_⟩
      simp [apply, editLastHunk, last, Hunk.addLine]
    · cases body
  | updateFile hunkLine =>
    refine lineStep_of_inPatch rfl past fun body => ?_
    simp only at body
    split at body
    · rename_i path movePath chunks last
      obtain ⟨⟨movePath', cks'⟩, update, res⟩ := bind_eq_ok_iff.mp body
      obtain ⟨act, read, applied⟩ := read_of_processUpdateLine update
      cases res
      refine ⟨.update act, ?_, trivial, ?_⟩
      · simp [readContent, last, read]
      · simp [apply, editLastHunk, last, Hunk.update, ← applied]
    · cases body
  | endedPatch =>
    simp only [processLine] at past
    split at past
    · rename_i empty
      obtain rfl := ok.inj past
      exact ⟨.blank, ⟨by simp [LineAction.read, empty], trivial, rfl⟩, rfl⟩
    · cases past

end StreamingPatchParser

/-- Every hunk but the last is final. -/
structure HunksGrow (pre after : List Hunk) : Prop where
  opened : pre.map Hunk.opened <+: after.map Hunk.opened
  final : pre.dropLast <+: after

theorem HunksGrow.refl (hunks : List Hunk) : HunksGrow hunks hunks :=
  ⟨prefix_rfl, dropLast_prefix hunks⟩

theorem HunksGrow.length_le {pre after : List Hunk} (grow : HunksGrow pre after) :
    pre.length ≤ after.length := by
  simpa using grow.opened.length_le

theorem HunksGrow.trans {fst snd third : List Hunk} (left : HunksGrow fst snd)
    (right : HunksGrow snd third) : HunksGrow fst third := by
  refine ⟨left.opened.trans right.opened, ?_⟩
  have lt : fst.dropLast.length ≤ snd.dropLast.length := by
    have := left.length_le
    simp only [length_dropLast]
    omega
  exact (prefix_of_prefix_length_le left.final (List.dropLast_prefix snd) lt).trans
    right.final

theorem hunksGrow_append (hunks : List Hunk) (hunk : Hunk) : HunksGrow hunks (hunks ++ [hunk]) :=
  ⟨by simp, (List.dropLast_prefix hunks).trans (prefix_append _ _)⟩

theorem hunksGrow_editLastHunk {edit : Hunk → Hunk} (eq : ∀ hunk, (edit hunk).opened = hunk.opened)
    (hunks : List Hunk) : HunksGrow hunks (editLastHunk edit hunks) := by
  cases hunks using reverseRecOn with
  | nil => exact .refl _
  | append_singleton front last =>
    rw [editLastHunk_concat]
    exact ⟨by simp [eq], by simp⟩

theorem LineAction.hunksGrow (act : LineAction) (st : StreamingParserState) :
    HunksGrow st.hunks (act.apply st).hunks := by
  cases act with
  | beginPatch | blank => exact .refl _
  | header header =>
    cases header with
    | environment | endPatch => exact .refl _
    | openHunk hunk => exact hunksGrow_append _ _
  | addLine | update => exact hunksGrow_editLastHunk (fun hunk => by cases hunk <;> rfl) _

namespace StreamingPatchParser

variable {self next : StreamingPatchParser} {hunks : List Hunk}

theorem pushChar_hunksGrow {ch : Char} (pushed : self.pushChar ch = .ok next) :
    HunksGrow self.state.hunks next.state.hunks := by
  unfold pushChar at pushed
  split at pushed
  · obtain ⟨act, step, -⟩ := lineStep_of_processLine pushed
    rw [step.result]
    exact act.hunksGrow _
  cases pushed
  exact .refl _

theorem pushDelta_hunksGrow {delta : Text} (pushed : self.pushDelta delta = .ok (hunks, next)) :
    hunks = next.state.hunks ∧ HunksGrow self.state.hunks hunks := by
  obtain ⟨last, fed, res⟩ := bind_eq_ok_iff.mp pushed
  obtain ⟨rfl, rfl⟩ := Prod.mk.inj (ok.inj res)
  refine ⟨rfl, ?_⟩
  exact foldlM_relation (fun pre after => HunksGrow pre.state.hunks after.state.hunks)
    (fun _ => .refl _) (by intro _ _ _ left right; exact left.trans right)
    (fun _ _ _ step => pushChar_hunksGrow step) fed

variable (deltas : List Text)

def parseDeltas : Except ParseError (List Hunk × Option Text) := do
  let self ← deltas.foldlM (fun self delta => Prod.snd <$> self.pushDelta delta)
    ({} : StreamingPatchParser)
  let (hunks, self) ← self.finish
  return (hunks, self.state.environmentId)

def returnedHunks (self : StreamingPatchParser) : List Text → List (List Hunk)
  | [] => []
  | delta :: deltas =>
    match self.pushDelta delta with
    | .error _ => []
    | .ok (hunks, next) => hunks :: next.returnedHunks deltas

theorem snd_pushDelta (self : StreamingPatchParser) (delta : Text) :
    Prod.snd <$> self.pushDelta delta = delta.foldlM pushChar self := by
  unfold pushDelta
  cases delta.foldlM pushChar self <;> rfl

theorem parseDeltas_eq : parseDeltas deltas = (do
      let self ← deltas.flatten.foldlM pushChar {}
      let (hunks, self) ← self.finish
      return (hunks, self.state.environmentId)) := by
  simp [parseDeltas, snd_pushDelta, foldlM_flatten]

theorem hunksGrow_of_mem_returnedHunks {deltas : List Text}
    (out : hunks ∈ self.returnedHunks deltas) : HunksGrow self.state.hunks hunks := by
  induction deltas generalizing self with
  | nil => cases out
  | cons delta deltas ih =>
    rw [returnedHunks] at out
    cases pushed : self.pushDelta delta with
    | error err => simp [pushed] at out
    | ok res =>
      obtain ⟨fst, next⟩ := res
      obtain ⟨rfl, grow⟩ := pushDelta_hunksGrow pushed
      simp only [pushed, mem_cons] at out
      rcases out with rfl | later
      · exact grow
      · exact grow.trans (ih later)

theorem returnedHunks_pairwise (self : StreamingPatchParser) :
    (self.returnedHunks deltas).Pairwise HunksGrow := by
  induction deltas generalizing self with
  | nil => exact .nil
  | cons delta deltas ih =>
    rw [returnedHunks]
    cases pushed : self.pushDelta delta with
    | error err => exact .nil
    | ok res =>
      obtain ⟨fst, next⟩ := res
      obtain ⟨rfl, -⟩ := pushDelta_hunksGrow pushed
      exact .cons (fun _ later => hunksGrow_of_mem_returnedHunks later) (ih next)

/-- Neither the result nor the hunks shown before, the last one apart, depend on the cuts. -/
theorem parseDeltas_cut_independent : parseDeltas deltas = parseDeltas [deltas.flatten] ∧
      (returnedHunks {} deltas).Pairwise HunksGrow := by
  refine ⟨?_, returnedHunks_pairwise deltas {}⟩
  rw [parseDeltas_eq, parseDeltas_eq]
  simp

end StreamingPatchParser
end Codex.ApplyPatch

namespace Codex.ApplyPatch.StreamingPatchParser

def pushLine (self : StreamingPatchParser) (line : Text) : Except ParseError StreamingPatchParser :=
  processLine { self with lineNumber := self.lineNumber + 1 }
    (Text.stripCarriageReturn line)

theorem lineBuffer_of_processLine {self next : StreamingPatchParser} {line : Text}
    (step : self.processLine line = .ok next) : next.lineBuffer = self.lineBuffer := by
  obtain ⟨_, _, eq⟩ := lineStep_of_processLine step
  rw [eq]

open Text

theorem foldlM_pushChar (self : StreamingPatchParser) (txt : Text) : txt.foldlM pushChar self = (do
      let next ← (splitLinesFrom self.lineBuffer txt).1.foldlM pushLine
        { self with lineBuffer := [] }
      return { next with lineBuffer := (splitLinesFrom self.lineBuffer txt).2 }) := by
  induction txt generalizing self with
  | nil => rfl
  | cons ch txt ih =>
    by_cases mark : ch = '\n'
    · simp only [List.foldlM_cons, pushChar, mark, if_true, splitLinesFrom]
      change processLine _ _ >>= _ = (processLine _ _ >>= _) >>= _
      cases step : processLine
          { self with lineBuffer := [], lineNumber := self.lineNumber + 1 }
          (stripCarriageReturn self.lineBuffer) with
      | error err => rfl
      | ok next =>
        have empty : next.lineBuffer = [] := lineBuffer_of_processLine step
        have eq : { next with lineBuffer := [] } = next := by rw [← empty]
        change txt.foldlM pushChar next = _
        rw [ih next, empty, eq]
        rfl
    simp only [List.foldlM_cons, pushChar, mark, if_false, splitLinesFrom]
    exact ih _

theorem parseDeltas_singleton (txt : Text) : parseDeltas [txt] = (do
      let self ← (splitLines txt).1.foldlM pushLine {}
      let (hunks, self) ← finish { self with lineBuffer := (splitLines txt).2 }
      return (hunks, self.state.environmentId)) := by
  rw [parseDeltas_eq, List.flatten_singleton, foldlM_pushChar, bind_assoc]
  rfl

end Codex.ApplyPatch.StreamingPatchParser
