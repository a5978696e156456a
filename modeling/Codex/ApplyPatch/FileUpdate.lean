import Mathlib.Data.List.Sort
import Codex.ApplyPatch.StreamingParser
import Codex.Foundation.Map
import Codex.Foundation.Triple

/-!
# Deriving the new contents of an updated file

Chunks are located in the lines of the file, exactly or with growing tolerance.
-/

namespace Codex.ApplyPatch

inductive ErrorKind
  | notFound
  | invalidInput
  | other
  deriving DecidableEq

structure IoError where
  kind : ErrorKind
  message : Text

def IoError.missing : IoError := ⟨.notFound, "No such file or directory (os error 2)"⟩

structure FileMetadata where
  isDirectory : Bool
  isFile : Bool
  isSymlink : Bool

structure PathApi (P : Type) where
  join : P → Text → Except Text P
  parent : P → Option P
  inferredNativePathString : P → Text

def slashPaths : PathApi Text where
  join base name := .ok (base ++ '/' :: name)
  parent path := some (path.rdropWhile (· ≠ '/')).dropLast
  inferredNativePathString path := path

structure Faults where
  metadata : Nat → Option (Except IoError FileMetadata) := fun _ => none
  read : Nat → Option IoError := fun _ => none
  write : Nat → Option (IoError × Option Text) := fun _ => none
  remove : Nat → Option (IoError × Option Text) := fun _ => none
  createDirectory : Nat → Option IoError := fun _ => none
  read_kind : ∀ time error, read time = some error → error.kind ≠ .notFound := by
    simp

structure FileSystem (P : Type) where
  files : Map P Text
  clock : Nat := 0

namespace FileSystem

variable {P : Type} [DecidableEq P]

def tick (system : FileSystem P) : FileSystem P := { system with clock := system.clock + 1 }

variable (faults : Faults)

def getMetadata (path : P) : EStateM IoError (FileSystem P) FileMetadata :=
  fun system =>
    match faults.metadata system.clock with
    | some (.ok metadata) => .ok metadata system.tick
    | some (.error error) => .error error system.tick
    | none =>
      if (system.files.lookup path).isSome then
        .ok { isDirectory := false, isFile := true, isSymlink := false } system.tick
      else .error .missing system.tick

def readFileText (path : P) : EStateM IoError (FileSystem P) Text :=
  fun system =>
    match faults.read system.clock with
    | some error => .error error system.tick
    | none =>
      match system.files.lookup path with
      | some text => .ok text system.tick
      | none => .error .missing system.tick

def writeFile (path : P) (texts : Text) : EStateM IoError (FileSystem P) PUnit :=
  fun system =>
    match faults.write system.clock with
    | none => .ok ⟨⟩ { system.tick with files := system.files.insert path texts }
    | some (error, left) => .error error { system.tick with files := system.files.set path left }

def remove (path : P) : EStateM IoError (FileSystem P) PUnit :=
  fun system =>
    match system.files.lookup path, faults.remove system.clock with
    | none, _ => .error .missing system.tick
    | some _, none => .ok ⟨⟩ { system.tick with files := system.files.erase path }
    | some _, some (error, left) =>
      .error error { system.tick with files := system.files.set path left }

def createDirectory (_path : P) : EStateM IoError (FileSystem P) PUnit :=
  fun system =>
    match faults.createDirectory system.clock with
    | none => .ok ⟨⟩ system.tick
    | some error => .error error system.tick

end FileSystem

inductive ApplyPatchFileUpdateMode
  | normalizeToLf
  | preserveLineEndings
  deriving DecidableEq

inductive ApplyPatchError
  | parseError (error : ParseError)
  | ioError (ctx : Text) (source : IoError)
  | computeReplacements (msg : Text)
  | pathUri (msg : Text)

def normaliseChar (c : Char) : Char :=
  if c.toNat ∈ [0x2010, 0x2011, 0x2012, 0x2013, 0x2014, 0x2015, 0x2212] then '-'
  else if c.toNat ∈ [0x2018, 0x2019, 0x201A, 0x201B] then '\''
  else if c.toNat ∈ [0x201C, 0x201D, 0x201E, 0x201F] then '"'
  else if c.toNat ∈ [0x00A0, 0x2002, 0x2003, 0x2004, 0x2005, 0x2006, 0x2007, 0x2008, 0x2009,
    0x200A, 0x202F, 0x205F, 0x3000] then ' '
  else c

def normalise (text : Text) : Text := (Text.trim text).map normaliseChar

/-- The first index at which lines and pattern agree through `view`. -/
def seekView (view : Text → Text) (lines pattern : List Text) (first last : Nat) : Option Nat :=
  (List.range' first (last + 1 - first)).find? fun index =>
    ((lines.drop index).take pattern.length).map view == pattern.map view

def searchStart (lines pattern : List Text) (start : Nat) (eof : Bool)
    (mode : ApplyPatchFileUpdateMode) : Nat :=
  if eof && decide (pattern.length ≤ lines.length) then
    match mode with
    | .normalizeToLf => lines.length - pattern.length
    | .preserveLineEndings => max (lines.length - pattern.length) start
  else start

def seekSequence (lines pattern : List Text) (start : Nat) (eof : Bool)
    (mode : ApplyPatchFileUpdateMode) : Option Nat :=
  if pattern.isEmpty then some start
  else if lines.length < pattern.length then none
  else
    let first := searchStart lines pattern start eof mode
    let last := lines.length - pattern.length
    (seekView id lines pattern first last).or <|
      (seekView Text.trimEnd lines pattern first last).or <|
        (seekView Text.trim lines pattern first last).or <|
          seekView normalise lines pattern first last

abbrev Replacement := Nat × Nat × List Text

def contextNotFoundMessage (context path : Text) : Text :=
  "Failed to find context '" ++ context ++ "' in " ++ path

def linesNotFoundMessage (path : Text) (oldLines : List Text) : Text :=
  "Failed to find expected lines in " ++ path ++ ":\n" ++
    ['\n'].intercalate oldLines

variable (originalLines : List Text)

def insertionIndex : ApplyPatchFileUpdateMode → Nat
  | .normalizeToLf =>
    if originalLines.getLast?.any (·.isEmpty) then originalLines.length - 1
    else originalLines.length
  | .preserveLineEndings => originalLines.length

/-- `oldStart` and `newStart` are the first lines not covered yet. -/
def contextReplacements (startIndex : Nat) (pattern newSlice : List Text)
    (oldStart newStart : Nat) :
    List (Nat × Nat) → List Replacement
  | [] => finish oldStart newStart
  | (oldContext, newContext) :: indices =>
    if pattern.length ≤ oldContext ∨ newSlice.length ≤ newContext then finish oldStart newStart
    else
      (if oldStart ≠ oldContext ∨ newStart ≠ newContext then
        [(startIndex + oldStart, oldContext - oldStart,
          (newSlice.drop newStart).take (newContext - newStart))]
      else []) ++
        contextReplacements startIndex pattern newSlice (oldContext + 1) (newContext + 1) indices
where
  finish (oldStart newStart : Nat) : List Replacement :=
    if oldStart ≠ pattern.length ∨ newStart ≠ newSlice.length then
      [(startIndex + oldStart, pattern.length - oldStart, newSlice.drop newStart)]
    else []

variable (lines : List Text)

def dropFinalEmpty : List Text :=
  if lines.getLast?.any (·.isEmpty) then lines.dropLast else lines

/-- Old lines that are not found and end in an empty line are tried without it. -/
def locateChunk (lineIndex : Nat) (mode : ApplyPatchFileUpdateMode)
    (chunk : UpdateFileChunk) : Option (Nat × List Text × List Text) :=
  match seekSequence originalLines chunk.oldLines lineIndex chunk.isEndOfFile mode with
  | some startIndex => some (startIndex, chunk.oldLines, chunk.newLines)
  | none =>
    if chunk.oldLines.getLast?.any (·.isEmpty) then
      let pattern := chunk.oldLines.dropLast
      (seekSequence originalLines pattern lineIndex chunk.isEndOfFile mode).map
        fun startIndex => (startIndex, pattern, dropFinalEmpty chunk.newLines)
    else none

def chunkReplacements (path : Text) (mode : ApplyPatchFileUpdateMode)
    (lineIndex : Nat) (chunk : UpdateFileChunk) :
    Except ApplyPatchError (Nat × List Replacement) := do
  let lineIndex ← match chunk.changeContext with
    | none => pure lineIndex
    | some contextLine =>
      match seekSequence originalLines [contextLine] lineIndex false mode with
      | some index => pure (index + 1)
      | none => .error (.computeReplacements (contextNotFoundMessage contextLine path))
  if chunk.oldLines.isEmpty then
    return (lineIndex, [(insertionIndex originalLines mode, 0, chunk.newLines)])
  match locateChunk originalLines lineIndex mode chunk with
  | none => .error (.computeReplacements (linesNotFoundMessage path chunk.oldLines))
  | some (startIndex, pattern, newSlice) =>
    let replacements := match mode with
      | .normalizeToLf => [(startIndex, pattern.length, newSlice)]
      | .preserveLineEndings =>
        contextReplacements startIndex pattern newSlice 0 0 chunk.contextLineIndices
    return (startIndex + pattern.length, replacements)

def computeReplacements (path : Text) (chunks : List UpdateFileChunk)
    (mode : ApplyPatchFileUpdateMode) : Except ApplyPatchError (List Replacement) := do
  let (_, replacements) ← chunks.foldlM (fun (lineIndex, replacements) chunk => do
      let (lineIndex, more) ← chunkReplacements originalLines path mode lineIndex chunk
      return (lineIndex, replacements ++ more))
    ((0, []) : Nat × List Replacement)
  return replacements.insertionSort (fun left right => left.1 ≤ right.1)

def applyReplacement (replacement : Replacement) : List Text :=
  let (startIndex, oldLength, newSegment) := replacement
  let removed := (List.range oldLength).foldl (fun lines _ => lines.eraseIdx startIndex) lines
  newSegment.zipIdx.foldl (fun lines (line, offset) => lines.insertIdx (startIndex + offset) line)
    removed

def applyReplacements (replacements : List Replacement) : List Text :=
  replacements.reverse.foldl applyReplacement lines

inductive LineEnding
  | lf
  | crLf
  | cr
  deriving DecidableEq

def LineEnding.text : LineEnding → Text
  | .lf => ['\n']
  | .crLf => ['\r', '\n']
  | .cr => ['\r']

structure SourceLine where
  text : Text
  ending : Option LineEnding

structure SourceFile where
  lines : List SourceLine
  preferredEnding : LineEnding

namespace SourceFile

def parseLines (buffer : Text) : Text → List SourceLine
  | [] => if buffer.isEmpty then [] else [⟨buffer, none⟩]
  | '\r' :: '\n' :: texts => ⟨buffer, some .crLf⟩ :: parseLines [] texts
  | '\r' :: texts => ⟨buffer, some .cr⟩ :: parseLines [] texts
  | '\n' :: texts => ⟨buffer, some .lf⟩ :: parseLines [] texts
  | c :: texts => parseLines (buffer ++ [c]) texts

def parse (texts : Text) : SourceFile :=
  let lines := parseLines [] texts
  { lines, preferredEnding := (lines.findSome? (·.ending)).getD .lf }

variable (file : SourceFile)

def lineTexts : List Text := file.lines.map (·.text)

def replaceLines (preferredEnding : LineEnding) (source : List SourceLine) (sourceIndex : Nat) :
    List Replacement → List SourceLine
  | [] => source
  | (startIndex, oldLength, newSegment) :: replacements =>
    source.take (startIndex - sourceIndex) ++
      newSegment.map (fun text => ⟨text, some preferredEnding⟩) ++
      replaceLines preferredEnding ((source.drop (startIndex - sourceIndex)).drop oldLength)
        (startIndex + oldLength) replacements

def applyReplacements (replacements : List Replacement) : SourceFile :=
  { file with
    lines := (replaceLines file.preferredEnding file.lines 0 replacements).map fun line =>
      { line with ending := some (line.ending.getD file.preferredEnding) } }

def intoContents : Text :=
  file.lines.flatMap fun line => line.text ++ (line.ending.map LineEnding.text).getD []

end SourceFile

def splitAtLineFeeds (text : Text) : List Text :=
  (Text.splitLines text).1 ++ [(Text.splitLines text).2]

def newContentsOf (path : Text) (chunks : List UpdateFileChunk) (mode : ApplyPatchFileUpdateMode)
    (originalContents : Text) : Except ApplyPatchError Text :=
  match mode with
  | .normalizeToLf => do
      let originalLines := dropFinalEmpty (splitAtLineFeeds originalContents)
      let replacements ← computeReplacements originalLines path chunks mode
      let newLines := applyReplacements originalLines replacements
      let newLines := if newLines.getLast?.any (·.isEmpty) then newLines else newLines ++ [[]]
      return ['\n'].intercalate newLines
  | .preserveLineEndings => do
      let sourceFile := SourceFile.parse originalContents
      let replacements ← computeReplacements sourceFile.lineTexts path chunks mode
      return (sourceFile.applyReplacements replacements).intoContents

structure AppliedPatch where
  originalContents : Text
  newContents : Text

variable {P : Type} [DecidableEq P]

def deriveNewContentsFromChunks (api : PathApi P) (faults : Faults) (path : P)
    (chunks : List UpdateFileChunk) (mode : ApplyPatchFileUpdateMode) :
    EStateM ApplyPatchError (FileSystem P) AppliedPatch := do
  let pathText := api.inferredNativePathString path
  let originalContents ← mapError
    (.ioError ("Failed to read file to update " ++ pathText))
    (FileSystem.readFileText faults path)
  let newContents ← liftExcept (newContentsOf pathText chunks mode originalContents)
  return { originalContents, newContents }

open FileSystem

inductive AppliedPatchFileChange (P : Type)
  | add (body : Text) (overwrittenContent : Option Text)
  | delete (body : Text)
  | update (moved : Option P) (oldContent : Text) (old : Option Text)
      (newContent : Text)
  deriving DecidableEq

structure AppliedPatchChange (P : Type) where
  path : P
  change : AppliedPatchFileChange P
  deriving DecidableEq

structure AppliedPatchDelta (P : Type) where
  changes : List (AppliedPatchChange P) := []
  exact : Bool := true

structure AffectedPaths where
  added : List Text := []
  modified : List Text := []
  deleted : List Text := []

inductive ApplyFailure
  | message (text : Text)
  | pathUri (message : Text)
  | applyPatch (error : ApplyPatchError)
  | io (ctx : Text) (source : IoError)

structure ApplyState (P : Type) where
  fileSystem : FileSystem P
  delta : AppliedPatchDelta P := {}
  affected : AffectedPaths := {}

def Hunk.path : Hunk → Text
  | .addFile path _ | .deleteFile path => path
  | .updateFile _ (some moved) _ => moved
  | .updateFile path none _ => path

variable {P : Type} [DecidableEq P]

def Hunk.resolvePath (api : PathApi P) (cwd : P) : Hunk → Except Text P
  | .updateFile path _ _ => api.join cwd path
  | .addFile path _ | .deleteFile path => api.join cwd path

abbrev ApplyM (P : Type) := EStateM ApplyFailure (ApplyState P)

def onFiles {ε α : Type} (program : EStateM ε (FileSystem P) α) : EStateM ε (ApplyState P) α :=
  zoom (·.fileSystem) (fun fileSystem state => { state with fileSystem }) program

def clearExact : ApplyM P PUnit :=
  modifyThe (ApplyState P) fun state => { state with delta := { state.delta with exact := false } }

def pushChange (change : AppliedPatchChange P) : ApplyM P PUnit :=
  modifyThe (ApplyState P) fun state =>
    { state with delta := { state.delta with changes := state.delta.changes ++ [change] } }

def replaceLastChange (change : AppliedPatchChange P) : ApplyM P PUnit :=
  modifyThe (ApplyState P) fun state =>
    { state with
      delta := { state.delta with changes := state.delta.changes.dropLast ++ [change] } }

def noteAffected (note : AffectedPaths → AffectedPaths) : ApplyM P PUnit :=
  modifyThe (ApplyState P) fun state => { state with affected := note state.affected }

section

variable (api : PathApi P) (faults : Faults) (path : P)

def noteExistingPathDeltaSupport : ApplyM P PUnit := do
  match ← attempt (onFiles (getMetadata faults path)) with
  | .ok metadata => if metadata.isFile && !metadata.isSymlink then pure ⟨⟩ else clearExact
  | .error source => if source.kind = .notFound then pure ⟨⟩ else clearExact

def readOptionalFileTextForDelta : ApplyM P (Option Text) := do
  noteExistingPathDeltaSupport faults path
  match ← attempt (onFiles (readFileText faults path)) with
  | .ok body => return some body
  | .error source =>
    if source.kind = .notFound then return none
    else
      clearExact
      return none

def removeFailureWasSideEffectFree (want : Option Text) : ApplyM P Bool :=
  match want with
  | none => return false
  | some want => do
      match ← attempt (onFiles (readFileText faults path)) with
      | .ok body => return body == want
      | .error _ => return false

def ensureNotDirectory : EStateM IoError (FileSystem P) PUnit := do
  let metadata ← getMetadata faults path
  if metadata.isDirectory then throwThe IoError ⟨.invalidInput, "path is a directory"⟩
  else pure ⟨⟩

def writeFileWithMissingParentRetry (texts : Text) : ApplyM P PUnit := do
  let writeContext := "Failed to write file " ++ api.inferredNativePathString path
  match ← attempt (onFiles (writeFile faults path texts)) with
  | .ok _ => pure ⟨⟩
  | .error error =>
    if error.kind = .notFound then
      match api.parent path with
      | none => pure ⟨⟩
      | some parent =>
        mapError (.io ("Failed to create parent directories for " ++
            api.inferredNativePathString path))
          (onFiles (createDirectory faults parent))
      mapError (.io writeContext) (onFiles (writeFile faults path texts))
    else throwThe ApplyFailure (.io writeContext error)

def tryWrite (write : ApplyM P PUnit) : ApplyM P PUnit := do
  match ← attempt write with
  | .ok _ => pure ⟨⟩
  | .error failure =>
    clearExact
    throwThe ApplyFailure failure

/-- After a failed removal the record stays exact only if the expected content is still there. -/
def removeRecorded (want : Option Text) (ctx : Text) : ApplyM P PUnit := do
  mapError (.io ctx) (onFiles (ensureNotDirectory faults path))
  match ← attempt (onFiles (remove faults path)) with
  | .ok _ => pure ⟨⟩
  | .error error =>
    let sideEffectFree ← removeFailureWasSideEffectFree faults path want
    if sideEffectFree then pure ⟨⟩ else clearExact
    throwThe ApplyFailure (.io ctx error)

def applyAddFile (affectedPath texts : Text) : ApplyM P PUnit := do
  let overwrittenContent ← readOptionalFileTextForDelta faults path
  tryWrite (writeFileWithMissingParentRetry api faults path texts)
  pushChange { path, change := .add texts overwrittenContent }
  noteAffected fun affected => { affected with added := affected.added ++ [affectedPath] }

def readDeletedContent : ApplyM P (Option Text) := do
  match ← attempt (onFiles (readFileText faults path)) with
  | .ok body => return some body
  | .error _ =>
    clearExact
    return none

def applyDeleteFile (affectedPath : Text) : ApplyM P PUnit := do
  noteExistingPathDeltaSupport faults path
  let deletedContent ← readDeletedContent faults path
  removeRecorded faults path deletedContent
    ("Failed to delete file " ++ api.inferredNativePathString path)
  match deletedContent with
  | some body => pushChange { path, change := .delete body }
  | none => pure ⟨⟩
  noteAffected fun affected => { affected with deleted := affected.deleted ++ [affectedPath] }

def applyMove (path target : P) (originalContents newContents : Text) : ApplyM P PUnit := do
  let old ← readOptionalFileTextForDelta faults target
  tryWrite (writeFileWithMissingParentRetry api faults target newContents)
  pushChange { path := target, change := .add newContents old }
  removeRecorded faults path (some originalContents)
    ("Failed to remove original " ++ api.inferredNativePathString path)
  replaceLastChange
    { path
      change := .update (some target) originalContents old newContents }

def applyUpdateInPlace (originalContents newContents : Text) : ApplyM P PUnit := do
  tryWrite (mapError
    (.io ("Failed to write file " ++ api.inferredNativePathString path))
    (onFiles (writeFile faults path newContents)))
  pushChange { path, change := .update none originalContents none newContents }

def applyUpdateFile (mode : ApplyPatchFileUpdateMode) (cwd path : P) (affectedPath : Text)
    (moved : Option Text) (chunks : List UpdateFileChunk) : ApplyM P PUnit := do
  noteExistingPathDeltaSupport faults path
  let applied ← mapError .applyPatch
    (onFiles (deriveNewContentsFromChunks api faults path chunks mode))
  match moved with
  | some target => do
      let target ← mapError .pathUri (liftExcept (api.join cwd target))
      applyMove api faults path target applied.originalContents applied.newContents
  | none => applyUpdateInPlace api faults path applied.originalContents applied.newContents
  noteAffected fun affected => { affected with modified := affected.modified ++ [affectedPath] }

def applyHunk (mode : ApplyPatchFileUpdateMode) (cwd : P) (hunk : Hunk) : ApplyM P PUnit := do
  let path ← mapError .pathUri (liftExcept (hunk.resolvePath api cwd))
  match hunk with
  | .addFile _ texts => applyAddFile api faults path hunk.path texts
  | .deleteFile _ => applyDeleteFile api faults path hunk.path
  | .updateFile _ moved chunks =>
    applyUpdateFile api faults mode cwd path hunk.path moved chunks

def applyHunksToFiles (mode : ApplyPatchFileUpdateMode) (cwd : P) (hunks : List Hunk) :
    ApplyM P AffectedPaths := do
  if hunks.isEmpty then throwThe ApplyFailure (.message "No files were modified.")
  else
    hunks.forM (applyHunk api faults mode cwd)
    let state ← getThe (ApplyState P)
    return state.affected

end
end Codex.ApplyPatch
