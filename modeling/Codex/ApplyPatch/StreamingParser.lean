import Codex.Foundation.Text
import Codex.Foundation.Run

/-!
# The streaming patch parser

A patch is read one character at a time.
-/

namespace Codex.ApplyPatch

structure UpdateFileChunk where
  changeContext : Option Text := none
  oldLines : List Text := []
  newLines : List Text := []
  contextLineIndices : List (Nat × Nat) := []
  isEndOfFile : Bool := false
  deriving DecidableEq

inductive Hunk
  | addFile (path texts : Text)
  | deleteFile (path : Text)
  | updateFile (path : Text) (moved : Option Text) (chunks : List UpdateFileChunk)
  deriving DecidableEq

inductive ParseError
  | invalidPatchError (msg : Text)
  | invalidHunkError (msg : Text) (lineNumber : Nat)
  deriving DecidableEq

def beginPatchMarker : Text := "*** Begin Patch"
def endPatchMarker : Text := "*** End Patch"
def addFileMarker : Text := "*** Add File: "
def deleteFileMarker : Text := "*** Delete File: "
def updateFileMarker : Text := "*** Update File: "
def moveToMarker : Text := "*** Move to: "
def eofMarker : Text := "*** End of File"
def changeContextMarker : Text := "@@ "
def emptyChangeContextMarker : Text := "@@"
def environmentIdMarker : Text := "*** Environment ID:"

namespace UpdateFileChunk

variable (chunk : UpdateFileChunk)

def isBlank : Bool :=
  chunk.oldLines.isEmpty && chunk.newLines.isEmpty

def pushContextLine (line : Text) : UpdateFileChunk :=
  { chunk with
    contextLineIndices :=
      chunk.contextLineIndices ++ [(chunk.oldLines.length, chunk.newLines.length)]
    oldLines := chunk.oldLines ++ [line]
    newLines := chunk.newLines ++ [line] }

/-- Add a `+` line. -/
def pushNewLine (line : Text) : UpdateFileChunk :=
  { chunk with newLines := chunk.newLines ++ [line] }

/-- Add a `-` line. -/
def pushOldLine (line : Text) : UpdateFileChunk :=
  { chunk with oldLines := chunk.oldLines ++ [line] }

end UpdateFileChunk

inductive StreamingParserMode
  | notStarted
  | startedPatch
  | addFile
  | deleteFile
  | updateFile (hunkLine : Nat)
  | endedPatch
  deriving DecidableEq

structure StreamingParserState where
  mode : StreamingParserMode := .notStarted
  hunks : List Hunk := []
  environmentId : Option Text := none

structure StreamingPatchParser where
  lineBuffer : Text := []
  state : StreamingParserState := {}
  lineNumber : Nat := 0

def firstLineMessage : Text := "The first line of the patch must be '*** Begin Patch'"
def lastLineMessage : Text := "The last line of the patch must be '*** End Patch'"
def noLinesMessage : Text := "Update hunk does not contain any lines"

def emptyHunkMessage (path : Text) : Text :=
  "Update file hunk for path '" ++ path ++ "' is empty"

def unexpectedLineMessage (line : Text) : Text :=
  "Unexpected line found in update hunk: '" ++ line ++
    "'. Every line should start with ' ' (context line), '+' (added line), or '-' (removed line)"

def expectedContextMessage (line : Text) : Text :=
  "Expected update hunk to start with a @@ context marker, got: '" ++ line ++ "'"

def invalidHeaderMessage (trimmed : Text) : Text :=
  "'" ++ trimmed ++
    ("' is not a valid hunk header. Valid hunk headers: '*** Add File: \x7bpath\x7d', " ++
      "'*** Delete File: \x7bpath\x7d', '*** Update File: \x7bpath\x7d'").toList

namespace StreamingPatchParser

variable (self : StreamingPatchParser)

def ensureUpdateHunkIsNotEmpty (line : Text) : Except ParseError Unit :=
  match self.state.hunks.getLast? with
  | some (.updateFile path _ chunks) =>
    match chunks.getLast?, self.state.mode with
    | none, .updateFile hunkLine =>
      .error (.invalidHunkError (emptyHunkMessage path) hunkLine)
    | none, _ => .ok ()
    | some chunk, _ =>
      if chunk.isBlank then
        if line = endPatchMarker then
          .error (.invalidHunkError noLinesMessage self.lineNumber)
        else
          .error (.invalidHunkError (unexpectedLineMessage line) self.lineNumber)
      else .ok ()
  | _ => .ok ()

def openHunk (trimmed : Text) (hunk : Hunk)
    (mode : StreamingParserMode) : Except ParseError StreamingPatchParser := do
  self.ensureUpdateHunkIsNotEmpty trimmed
  return { self with state := { self.state with mode, hunks := self.state.hunks ++ [hunk] } }

def endPatch (trimmed : Text) : Except ParseError StreamingPatchParser := do
  self.ensureUpdateHunkIsNotEmpty trimmed
  return { self with state := { self.state with mode := .endedPatch } }

def setEnvironmentId (environmentId : Text) : Except ParseError StreamingPatchParser :=
  if self.state.environmentId.isSome then
    .error (.invalidPatchError
      "apply_patch environment_id cannot be specified more than once")
  else if Text.trim environmentId = [] then
    .error (.invalidPatchError "apply_patch environment_id cannot be empty")
  else
    .ok { self with
      state := { self.state with environmentId := some (Text.trim environmentId) } }

def handleHunkHeadersAndEndPatch (trimmed : Text) :
    Except ParseError (Option StreamingPatchParser) :=
  match self.state.mode, trimmed.dropPrefix? environmentIdMarker with
  | .startedPatch, some environmentId => some <$> self.setEnvironmentId environmentId
  | _, _ =>
    if trimmed = endPatchMarker then some <$> self.endPatch trimmed
    else match trimmed.dropPrefix? addFileMarker with
    | some path => some <$> self.openHunk trimmed (.addFile path []) .addFile
    | none => match trimmed.dropPrefix? deleteFileMarker with
    | some path => some <$> self.openHunk trimmed (.deleteFile path) .deleteFile
    | none => match trimmed.dropPrefix? updateFileMarker with
    | some path =>
      some <$> self.openHunk trimmed (.updateFile path none [])
        (.updateFile self.lineNumber)
    | none => .ok none

def editLastChunk (edit : UpdateFileChunk → UpdateFileChunk) (chunks : List UpdateFileChunk) :
    List UpdateFileChunk :=
  match chunks.getLast? with
  | none => [edit {}]
  | some chunk => chunks.dropLast ++ [edit chunk]

def markEndOfFile (chunks : List UpdateFileChunk) : List UpdateFileChunk :=
  match chunks.getLast? with
  | none => []
  | some chunk => chunks.dropLast ++ [{ chunk with isEndOfFile := true }]

/-- A line of an update hunk that is neither a header nor the end marker. -/
def processUpdateLine (lineNumber : Nat) (moved : Option Text)
    (chunks : List UpdateFileChunk) (line : Text) :
    Except ParseError (Option Text × List UpdateFileChunk) :=
  let updateLine := Text.trimEnd line
  let isContextMarker :=
    updateLine == emptyChangeContextMarker || changeContextMarker.isPrefixOf updateLine
  let lastIsEndOfFile := chunks.getLast?.any (·.isEndOfFile)
  let lastIsBlank := chunks.getLast?.any (·.isBlank)
  if lastIsEndOfFile && updateLine.isEmpty then .ok (moved, chunks)
  else if lastIsEndOfFile && !isContextMarker then
    .error (.invalidHunkError (expectedContextMessage line) lineNumber)
  else match chunks, moved, updateLine.dropPrefix? moveToMarker with
  | [], none, some moveToPath => .ok (some moveToPath, [])
  | _, _, _ =>
  if isContextMarker && lastIsBlank then
    .error (.invalidHunkError (unexpectedLineMessage line) lineNumber)
  else if updateLine = emptyChangeContextMarker then .ok (moved, chunks ++ [{}])
  else match updateLine.dropPrefix? changeContextMarker with
  | some changeContext =>
    .ok (moved, chunks ++ [{ changeContext := some changeContext }])
  | none =>
  if updateLine = eofMarker then
    if lastIsBlank then .error (.invalidHunkError noLinesMessage lineNumber)
    else .ok (moved, markEndOfFile chunks)
  else match line with
  | [] => .ok (moved, editLastChunk (·.pushContextLine []) chunks)
  | ' ' :: lineToAdd => .ok (moved, editLastChunk (·.pushContextLine lineToAdd) chunks)
  | '+' :: lineToAdd => .ok (moved, editLastChunk (·.pushNewLine lineToAdd) chunks)
  | '-' :: lineToRemove => .ok (moved, editLastChunk (·.pushOldLine lineToRemove) chunks)
  | _ =>
    if chunks.getLast?.any (!·.isBlank) then
      .error (.invalidHunkError (expectedContextMessage line) lineNumber)
    else .error (.invalidHunkError (unexpectedLineMessage line) lineNumber)

def processLine (line : Text) : Except ParseError StreamingPatchParser :=
  let trimmed := Text.trim line
  let invalidHeader : ParseError :=
    .invalidHunkError (invalidHeaderMessage trimmed) self.lineNumber
  match self.state.mode with
  | .notStarted =>
    if trimmed = beginPatchMarker then
      .ok { self with state := { self.state with mode := .startedPatch } }
    else .error (.invalidPatchError firstLineMessage)
  | .startedPatch | .deleteFile => do
      match ← self.handleHunkHeadersAndEndPatch trimmed with
      | some next => return next
      | none => .error invalidHeader
  | .addFile => do
      match ← self.handleHunkHeadersAndEndPatch trimmed with
      | some next => return next
      | none =>
        match line, self.state.hunks.getLast? with
        | '+' :: lineToAdd, some (.addFile path texts) =>
          return { self with
            state := { self.state with
              hunks := self.state.hunks.dropLast ++
                [.addFile path (texts ++ lineToAdd ++ ['\n'])] } }
        | _, _ => .error invalidHeader
  | .updateFile _ => do
      match ← self.handleHunkHeadersAndEndPatch (Text.trimEnd line) with
      | some next => return next
      | none =>
        match self.state.hunks.getLast? with
        | some (.updateFile path moved chunks) =>
          let (moved, chunks) ← processUpdateLine self.lineNumber moved chunks line
          return { self with
            state := { self.state with
              hunks := self.state.hunks.dropLast ++ [.updateFile path moved chunks] } }
        | _ => .error (.invalidHunkError (unexpectedLineMessage line) self.lineNumber)
  | .endedPatch =>
    if trimmed = [] then .ok self else .error (.invalidPatchError lastLineMessage)

def pushChar (ch : Char) : Except ParseError StreamingPatchParser :=
  if ch = '\n' then
    processLine { self with lineBuffer := [], lineNumber := self.lineNumber + 1 }
      (Text.stripCarriageReturn self.lineBuffer)
  else .ok { self with lineBuffer := self.lineBuffer ++ [ch] }

def pushDelta (delta : Text) : Except ParseError (List Hunk × StreamingPatchParser) := do
  let self ← delta.foldlM pushChar self
  return (self.state.hunks, self)

def finishLine : Except ParseError StreamingPatchParser :=
  if self.lineBuffer.isEmpty then .ok self
  else
    let line := self.lineBuffer
    let self := { self with lineBuffer := [], lineNumber := self.lineNumber + 1 }
    if Text.trim line = endPatchMarker then self.endPatch (Text.trim line)
    else self.processLine line

def finish : Except ParseError (List Hunk × StreamingPatchParser) := do
  let self ← self.finishLine
  if self.state.mode = .endedPatch then return (self.state.hunks, self)
  else .error (.invalidPatchError lastLineMessage)

end StreamingPatchParser

structure ApplyPatchArgs where
  patch : Text
  hunks : List Hunk
  /-- Directory given by a `cd` before the command. -/
  workdir : Option Text
  environmentId : Option Text
  deriving DecidableEq

inductive ParseMode
  | strict
  | lenient

def parseInStrictMode : Bool := false

def checkStartAndEndLinesStrict (firstLine lastLine : Option Text) : Except ParseError Unit :=
  match firstLine.map Text.trim, lastLine.map Text.trim with
  | some first, last =>
    if first = beginPatchMarker ∧ last = some endPatchMarker then .ok ()
    else if first ≠ beginPatchMarker then .error (.invalidPatchError firstLineMessage)
    else .error (.invalidPatchError lastLineMessage)
  | none, _ => .error (.invalidPatchError lastLineMessage)

def checkPatchBoundariesStrict (lines : List Text) : Except ParseError (List Text) := do
  checkStartAndEndLinesStrict lines.head? lines.getLast?
  return lines

def heredocOpeners : List Text := ["<<EOF", "<<'EOF'", "<<\"EOF\""]

def checkPatchBoundariesLenient (originalLines : List Text) : Except ParseError (List Text) :=
  match checkPatchBoundariesStrict originalLines with
  | .ok lines => .ok lines
  | .error originalParseError =>
    match originalLines with
    | first :: snd :: rest =>
      if first ∈ heredocOpeners ∧
          "EOF".toList.isSuffixOf ((snd :: rest).getLast (by simp)) = true ∧
          4 ≤ originalLines.length then
        checkPatchBoundariesStrict (snd :: rest).dropLast
      else .error originalParseError
    | _ => .error originalParseError

def parsePatchText (patch : Text) (mode : ParseMode) : Except ParseError ApplyPatchArgs := do
  let lines := Text.lines (Text.trim patch)
  let patchLines ← match mode with
    | .strict => checkPatchBoundariesStrict lines
    | .lenient => checkPatchBoundariesLenient lines
  let patch := ['\n'].intercalate patchLines
  let (_, self) ← ({} : StreamingPatchParser).pushDelta patch
  let (hunks, self) ← self.finish
  return { hunks, patch, workdir := none, environmentId := self.state.environmentId }

def parsePatch (patch : Text) : Except ParseError ApplyPatchArgs :=
  parsePatchText patch (if parseInStrictMode then .strict else .lenient)

end Codex.ApplyPatch
