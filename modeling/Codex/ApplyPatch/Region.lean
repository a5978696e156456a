import Codex.ApplyPatch.LineStep
import Mathlib.Algebra.GroupWithZero.Nat

/-!
# Regions of a patch text

Whether a line is stored as file content depends on the headers before it.
-/

namespace Codex.ApplyPatch

def UpdateFileChunk.skeleton (chunk : UpdateFileChunk) : UpdateFileChunk :=
  { chunk with
    oldLines := chunk.oldLines.map fun _ => []
    newLines := chunk.newLines.map fun _ => [] }

def Hunk.skeleton : Hunk → Hunk
  | .addFile path _ => .addFile path []
  | .deleteFile path => .deleteFile path
  | .updateFile path moved chunks =>
    .updateFile path moved (chunks.map UpdateFileChunk.skeleton)

def UpdateFileChunk.contentSize (chunk : UpdateFileChunk) : Nat :=
  (chunk.oldLines.map List.length).sum + (chunk.newLines.map List.length).sum

def Hunk.contentSize : Hunk → Nat
  | .addFile _ texts => texts.length
  | .deleteFile _ => 0
  | .updateFile _ _ chunks => (chunks.map UpdateFileChunk.contentSize).sum

def contentSize (hunks : List Hunk) : Nat := (hunks.map Hunk.contentSize).sum

namespace UpdateAction

def mapContent (change : Text → Text) : UpdateAction → UpdateAction
  | .context line => .context (change line)
  | .added line => .added (change line)
  | .removed line => .removed (change line)
  | action => action

def copies : UpdateAction → Nat
  | .context _ => 2
  | .added _ | .removed _ => 1
  | _ => 0

def size : UpdateAction → Nat
  | .context line => 2 * line.length
  | .added line | .removed line => line.length
  | _ => 0

theorem mapContent_of_copies_eq_zero {action : UpdateAction} (change : Text → Text)
    (none : action.copies = 0) : action.mapContent change = action := by
  cases action <;> simp_all [mapContent, copies]

end UpdateAction

namespace LineAction

def mapContent (change : Text → Text) : LineAction → LineAction
  | .addLine line => .addLine (change line)
  | .update action => .update (action.mapContent change)
  | action => action

def copies : LineAction → Nat
  | .addLine _ => 1
  | .update action => action.copies
  | _ => 0

def size : LineAction → Nat
  | .addLine line => line.length + 1
  | .update action => action.size
  | _ => 0

theorem size_mapContent_append (action : LineAction) (tail : Text) :
    (action.mapContent (· ++ tail)).size = action.size + action.copies * tail.length := by
  cases action with
  | update action =>
    cases action <;> simp [mapContent, size, copies, UpdateAction.mapContent, UpdateAction.size,
      UpdateAction.copies]
    omega
  | _ => simp [mapContent, size, copies]; try omega

theorem copies_mapContent (action : LineAction) (change : Text → Text) :
    (action.mapContent change).copies = action.copies := by
  cases action with
  | update action => cases action <;> rfl
  | _ => rfl

theorem mapContent_append_nil (action : LineAction) : action.mapContent (· ++ []) = action := by
  cases action with
  | update action => cases action <;> simp [mapContent, UpdateAction.mapContent]
  | _ => simp [mapContent]

theorem mapContent_of_copies_eq_zero {action : LineAction} (change : Text → Text)
    (none : action.copies = 0) : action.mapContent change = action := by
  cases action with
  | update action =>
    exact congrArg LineAction.update (UpdateAction.mapContent_of_copies_eq_zero change none)
  | _ => simp_all [mapContent, copies]

end LineAction

open List Or Text

theorem isBlank_skeleton (chunk : UpdateFileChunk) : chunk.skeleton.isBlank = chunk.isBlank := by
  simp only [UpdateFileChunk.isBlank, UpdateFileChunk.skeleton, isEmpty_map]

theorem chunkSummary_map_skeleton (chunks : List UpdateFileChunk) :
    chunkSummary (chunks.map UpdateFileChunk.skeleton) = chunkSummary chunks := by
  simp only [chunkSummary, getLast?_map, Option.map_map]
  congr 1
  funext chunk
  exact congrArg (Prod.mk chunk.isEndOfFile) (isBlank_skeleton chunk)

theorem LineAction.read_skeleton (mode : StreamingParserMode) (last : Option Hunk)
    (lineNo : Nat) (line : Text) :
    LineAction.read mode (last.map Hunk.skeleton) lineNo line =
      LineAction.read mode last lineNo line := by
  have cont : LineAction.readContent mode (last.map Hunk.skeleton) line =
      LineAction.readContent mode last line := by
    rcases last with _ | (⟨path, texts⟩ | path | ⟨path, moved, chunks⟩)
    · rfl
    · cases mode <;> rfl
    · cases mode <;> rfl
    cases mode <;>
      simp [LineAction.readContent, Hunk.skeleton, chunkSummary_map_skeleton]
  cases mode <;> simp only [LineAction.read, cont]

variable {edit : UpdateFileChunk → UpdateFileChunk} {state other : StreamingParserState}
  {growth : Nat} {mode : StreamingParserMode} {lineNo : Nat} {last : Option Hunk} {line : Text}
  {action : LineAction} {ext : UpdateAction}

theorem map_editLastChunk {image : UpdateFileChunk → UpdateFileChunk}
    {edit' : UpdateFileChunk → UpdateFileChunk} (fresh : image {} = {})
    (commutes : ∀ chunk, image (edit chunk) = edit' (image chunk)) (chunks : List UpdateFileChunk) :
    (StreamingPatchParser.editLastChunk edit chunks).map image =
      StreamingPatchParser.editLastChunk edit' (chunks.map image) := by
  cases chunks using reverseRecOn with
  | nil => simp [StreamingPatchParser.editLastChunk, commutes, fresh]
  | append_singleton front last => simp [StreamingPatchParser.editLastChunk, commutes]

theorem map_markEndOfFile (chunks : List UpdateFileChunk) :
    (StreamingPatchParser.markEndOfFile chunks).map UpdateFileChunk.skeleton =
      StreamingPatchParser.markEndOfFile (chunks.map UpdateFileChunk.skeleton) := by
  cases chunks using reverseRecOn with
  | nil => rfl
  | append_singleton front last =>
    simp [StreamingPatchParser.markEndOfFile, UpdateFileChunk.skeleton]

theorem Hunk.skeleton_update (action : UpdateAction) (hunk : Hunk) :
    (hunk.update action).skeleton = hunk.skeleton.update (action.mapContent fun _ => []) := by
  rcases hunk with ⟨path, texts⟩ | path | ⟨path, moved, chunks⟩
  · rfl
  · rfl
  cases action with
  | skip | moveTo => rfl
  | startChunk ctx =>
    simp [Hunk.update, UpdateAction.apply, UpdateAction.mapContent, Hunk.skeleton,
      UpdateFileChunk.skeleton]
  | markEndOfFile =>
    simp [Hunk.update, UpdateAction.apply, UpdateAction.mapContent, Hunk.skeleton,
      map_markEndOfFile]
  | context line | added line | removed line =>
    simp only [Hunk.update, UpdateAction.apply, UpdateAction.mapContent, Hunk.skeleton]
    rw [map_editLastChunk rfl]
    intro chunk
    simp [UpdateFileChunk.skeleton, UpdateFileChunk.pushContextLine,
      UpdateFileChunk.pushNewLine, UpdateFileChunk.pushOldLine]

theorem map_editLastHunk {image edit edit' : Hunk → Hunk}
    (commutes : ∀ hunk, image (edit hunk) = edit' (image hunk)) (hunks : List Hunk) :
    (editLastHunk edit hunks).map image = editLastHunk edit' (hunks.map image) := by
  cases hunks using reverseRecOn with
  | nil => rfl
  | append_singleton front last => simp [commutes]

structure SameSkeleton (state other : StreamingParserState) : Prop where
  mode : state.mode = other.mode
  environmentId : state.environmentId = other.environmentId
  hunks : state.hunks.map Hunk.skeleton = other.hunks.map Hunk.skeleton

theorem SameSkeleton.eq_of_hunks (eq : SameSkeleton state other)
    (hunks : state.hunks = other.hunks) : state = other := by
  obtain ⟨mode, stateHunks, envId⟩ := state
  obtain ⟨otherMode, otherHunks, otherEnvironmentId⟩ := other
  obtain rfl : mode = otherMode := eq.mode
  obtain rfl : envId = otherEnvironmentId := eq.environmentId
  obtain rfl : stateHunks = otherHunks := hunks
  rfl

theorem SameSkeleton.apply (eq : SameSkeleton state other) (action : LineAction)
    (change : Text → Text) :
    SameSkeleton ((action.mapContent change).apply state) (action.apply other) := by
  cases action with
  | beginPatch => exact ⟨rfl, eq.environmentId, eq.hunks⟩
  | blank => exact eq
  | header header =>
    cases header with
    | environment envId => exact ⟨eq.mode, rfl, eq.hunks⟩
    | endPatch => exact ⟨rfl, eq.environmentId, eq.hunks⟩
    | openHunk hunk mode =>
      exact ⟨rfl, eq.environmentId, by simp [LineAction.mapContent, LineAction.apply, eq.hunks]⟩
  | addLine line =>
    have still (txt : Text) (hunk : Hunk) : (hunk.addLine txt).skeleton = id hunk.skeleton := by
      cases hunk <;> rfl
    refine ⟨eq.mode, eq.environmentId, ?_⟩
    simp only [LineAction.mapContent, LineAction.apply]
    rw [map_editLastHunk (still _), map_editLastHunk (still _), eq.hunks]
  | update action =>
    have emptied : (action.mapContent change).mapContent (fun _ => []) =
        action.mapContent fun _ => [] := by
      cases action <;> rfl
    refine ⟨eq.mode, eq.environmentId, ?_⟩
    simp only [LineAction.mapContent, LineAction.apply]
    rw [map_editLastHunk (Hunk.skeleton_update _), map_editLastHunk (Hunk.skeleton_update _),
      eq.hunks, emptied]

theorem contentSize_editLastHunk {edit : Hunk → Hunk} {hunks : List Hunk} {last : Hunk}
    (final : hunks.getLast? = some last)
    (grows : (edit last).contentSize = last.contentSize + growth) :
    contentSize (editLastHunk edit hunks) = contentSize hunks + growth := by
  obtain ⟨front, rfl⟩ := getLast?_eq_some_iff.mp final
  simp [contentSize, grows]
  omega

theorem contentSize_editLastChunk
    (grows : ∀ chunk, (edit chunk).contentSize = chunk.contentSize + growth)
    (chunks : List UpdateFileChunk) :
    ((StreamingPatchParser.editLastChunk edit chunks).map UpdateFileChunk.contentSize).sum =
      (chunks.map UpdateFileChunk.contentSize).sum + growth := by
  cases chunks using reverseRecOn with
  | nil =>
    have empty : UpdateFileChunk.contentSize {} = 0 := rfl
    simp [StreamingPatchParser.editLastChunk, grows, empty]
  | append_singleton front last =>
    simp [StreamingPatchParser.editLastChunk, grows]
    omega

theorem contentSize_update (action : UpdateAction) (path : Text) (moved : Option Text)
    (chunks : List UpdateFileChunk) :
    ((Hunk.updateFile path moved chunks).update action).contentSize =
      (Hunk.updateFile path moved chunks).contentSize + action.size := by
  cases action with
  | skip | moveTo => rfl
  | startChunk ctx =>
    simp [Hunk.update, UpdateAction.apply, Hunk.contentSize, UpdateAction.size,
      UpdateFileChunk.contentSize]
  | markEndOfFile =>
    cases chunks using reverseRecOn with
    | nil => rfl
    | append_singleton front last =>
      simp [Hunk.update, UpdateAction.apply, Hunk.contentSize, UpdateAction.size,
        StreamingPatchParser.markEndOfFile, UpdateFileChunk.contentSize]
  | context line | added line | removed line =>
    simp only [Hunk.update, UpdateAction.apply, Hunk.contentSize]
    refine contentSize_editLastChunk (fun chunk => ?_) chunks
    simp [UpdateFileChunk.contentSize, UpdateFileChunk.pushContextLine,
      UpdateFileChunk.pushNewLine, UpdateFileChunk.pushOldLine, UpdateAction.size]
    try omega

theorem contentSize_of_headerRead {next : StreamingParserMode} {hdr : Text} {hunk : Hunk}
    (read : Header.read mode lineNo hdr = some (.openHunk hunk next)) : hunk.contentSize = 0 := by
  unfold Header.read at read
  repeat' split at read
  all_goals simp at read
  all_goals obtain ⟨rfl, -⟩ := read; rfl

theorem LineAction.readContent_cases (read : LineAction.readContent mode last line = some action) :
    (∃ lineToAdd path texts, mode = .addFile ∧ line = '+' :: lineToAdd ∧
        last = some (.addFile path texts) ∧ action = .addLine lineToAdd) ∨
      ∃ hunkLine path moved chunks update, mode = .updateFile hunkLine ∧
        last = some (.updateFile path moved chunks) ∧
        UpdateAction.read moved (chunkSummary chunks) line = some update ∧
        action = .update update := by
  unfold LineAction.readContent at read
  split at read
  · split at read
    · simp_all
    · cases read
  · obtain ⟨update, updateRead, rfl⟩ := Option.map_eq_some_iff.mp read
    exact inr ⟨_, _, _, _, update, rfl, rfl, updateRead, rfl⟩
  · cases read

theorem LineAction.read_cases (read : LineAction.read mode last lineNo line = some action) :
    (mode = .notStarted ∧ trim line = beginPatchMarker ∧ action = .beginPatch) ∨
      (mode = .endedPatch ∧ trim line = [] ∧ action = .blank) ∨
      (mode ≠ .notStarted ∧ mode ≠ .endedPatch ∧
        ((∃ hdr, Header.read mode lineNo (headerText mode line) = some hdr ∧
          action = .header hdr) ∨
        (Header.read mode lineNo (headerText mode line) = none ∧
          LineAction.readContent mode last line = some action))) := by
  unfold LineAction.read at read
  split at read
  · split at read <;> simp_all
  · split at read <;> simp_all
  rename_i notStarted notEnded
  split at read
  all_goals simp_all

theorem LineStep.contentSize {pre after : StreamingParserState}
    (step : LineStep lineNo line action pre after) :
    contentSize after.hunks = contentSize pre.hunks + action.size := by
  rw [step.result]
  rcases LineAction.read_cases step.read with
    ⟨-, -, rfl⟩ | ⟨-, -, rfl⟩ | ⟨-, -, ⟨header, read, rfl⟩ | ⟨-, read⟩⟩
  · rfl
  · rfl
  · cases header with
    | environment | endPatch => rfl
    | openHunk hunk mode =>
      simp [LineAction.apply, ApplyPatch.contentSize, contentSize_of_headerRead read,
        LineAction.size]
  rcases LineAction.readContent_cases read with
    ⟨lineToAdd, path, texts, -, -, final, rfl⟩ |
      ⟨-, path, moved, chunks, update, -, final, -, rfl⟩
  · refine contentSize_editLastHunk final ?_
    simp [Hunk.addLine, Hunk.contentSize, LineAction.size]
  · exact contentSize_editLastHunk final (contentSize_update update path moved chunks)

theorem headerText_append_blank (mode : StreamingParserMode) (line : Text) {tail : Text}
    (blank : Blank tail) : headerText mode (line ++ tail) = headerText mode line := by
  cases mode <;> simp [headerText, trim_append_blank _ blank, trimEnd_append_blank _ blank]

/-- Either the trimmed text decides, and the line stores nothing, or the content does. -/
theorem UpdateAction.readMarker_cases (moved : Option Text) (summary : Option (Bool × Bool))
    (updateLine : Text) :
    (∃ marker, (∀ content, readMarker moved summary updateLine content = marker) ∧
        ∀ action ∈ marker, action.copies = 0) ∨
      ∀ content, readMarker moved summary updateLine content = content := by
  unfold readMarker
  by_cases skipped : (summary.any (·.1) && updateLine.isEmpty) = true
  · exact inl ⟨some .skip, fun content => if_pos skipped, by simp [copies]⟩
  simp only [if_neg skipped]
  split
  · exact inl ⟨none, fun content => rfl, by simp⟩
  split
  · exact inl ⟨some (.moveTo _), fun content => rfl, by simp [copies]⟩
  split
  · exact inl ⟨none, fun content => rfl, by simp⟩
  split
  · exact inl ⟨some (.startChunk none), fun content => rfl, by simp [copies]⟩
  split
  · exact inl ⟨some (.startChunk _), fun content => rfl, by simp [copies]⟩
  split
  · split
    · exact inl ⟨none, fun content => rfl, by simp⟩
    · exact inl ⟨some .markEndOfFile, fun content => rfl, by simp [copies]⟩
  · exact inr fun content => rfl

theorem UpdateAction.ofContent_append_return {action : UpdateAction}
    (read : ofContent (line ++ ['\r']) = some ext) (other : ofContent line = some action) :
    ext = action.mapContent (· ++ ['\r']) := by
  unfold ofContent at other
  split at other
  · simp [ofContent] at read
  · obtain rfl := Option.some.inj other
    exact (Option.some.inj read).symm
  · obtain rfl := Option.some.inj other
    exact (Option.some.inj read).symm
  · obtain rfl := Option.some.inj other
    exact (Option.some.inj read).symm
  · cases other

theorem blank_return : Blank ['\r'] := by
  simp only [Blank, mem_singleton, forall_eq]
  decide

theorem UpdateAction.read_append_return {moved : Option Text} {summary : Option (Bool × Bool)}
    {action : UpdateAction} (read : UpdateAction.read moved summary (line ++ ['\r']) = some ext)
    (other : UpdateAction.read moved summary line = some action) :
    ext = action.mapContent (· ++ ['\r']) := by
  simp only [UpdateAction.read, trimEnd_append_blank line blank_return] at read other
  rcases UpdateAction.readMarker_cases moved summary (trimEnd line) with
    ⟨marker, decided, empty⟩ | content
  · rw [decided] at read other
    obtain rfl : ext = action := Option.some.inj (read.symm.trans other)
    exact (UpdateAction.mapContent_of_copies_eq_zero _ (empty ext read)).symm
  rw [content] at read other
  exact UpdateAction.ofContent_append_return read other

theorem LineAction.read_append_return {ext : LineAction}
    (read : LineAction.read mode last lineNo (line ++ ['\r']) = some ext)
    (other : LineAction.read mode last lineNo line = some action) :
    ext = action.mapContent (· ++ ['\r']) := by
  have headers := headerText_append_blank mode line blank_return
  rcases LineAction.read_cases read with
    ⟨rfl, -, rfl⟩ | ⟨rfl, -, rfl⟩ | ⟨notStarted, notEnded, extendedRead⟩ <;>
  rcases LineAction.read_cases other with
    ⟨started, -, rfl⟩ | ⟨ended, -, rfl⟩ | ⟨inPatch, ended, otherRead⟩
  any_goals first | rfl | contradiction
  rw [headers] at extendedRead
  rcases extendedRead with ⟨hdr, hit, rfl⟩ | ⟨missing, extendedRead⟩ <;>
  rcases otherRead with ⟨header', found', rfl⟩ | ⟨missing', otherRead⟩
  · obtain rfl : hdr = header' := Option.some.inj (hit.symm.trans found')
    rfl
  · cases hit.symm.trans missing'
  · cases missing.symm.trans found'
  · rcases LineAction.readContent_cases extendedRead with
      ⟨lineToAdd, path, texts, mode_eq, line_eq, final, rfl⟩ |
        ⟨_, path, moved, chunks, update, mode_eq, final, updateRead, rfl⟩ <;>
    rcases LineAction.readContent_cases otherRead with
      ⟨lineToAdd', path', texts', mode_eq', line_eq', final', rfl⟩ |
        ⟨_, path', moved', chunks', update', mode_eq', final', updateRead', rfl⟩
    · subst line_eq'
      obtain rfl : lineToAdd' ++ ['\r'] = lineToAdd := by simpa using line_eq
      rfl
    · cases mode_eq.symm.trans mode_eq'
    · cases mode_eq.symm.trans mode_eq'
    · obtain ⟨rfl, rfl, rfl⟩ : path = path' ∧ moved = moved' ∧ chunks = chunks' := by
        simpa using final.symm.trans final'
      exact congrArg LineAction.update (UpdateAction.read_append_return updateRead updateRead')

inductive Region
  | outside
  | update (started : Bool)
  | anchored
  deriving DecidableEq

namespace Region

def closesUpdate (header : Text) : Bool :=
  header == endPatchMarker || addFileMarker.isPrefixOf header ||
    deleteFileMarker.isPrefixOf header

def next : Region → Text → Region
  | .outside, line =>
    if updateFileMarker.isPrefixOf (trim line) then .update false else .outside
  | .update started, line =>
    let header := trimEnd line
    if closesUpdate header then .outside
    else if updateFileMarker.isPrefixOf header then .update false
    else if moveToMarker.isPrefixOf header then .update started
    else if header = eofMarker then if started then .anchored else .update false
    else .update true
  | .anchored, line =>
    let header := trimEnd line
    if closesUpdate header then .outside
    else if updateFileMarker.isPrefixOf header then .update false
    else if header = [] then .anchored
    else .update true

def stores : Region → Text → Bool
  | .outside, first :: _ => first == '+'
  | .update _, first :: _ => first == ' ' || first == '+' || first == '-'
  | _, _ => false

def ofSummary : Option (Bool × Bool) → Region
  | none => .update false
  | some (true, _) => .anchored
  | some (false, _) => .update true

def ofParser : StreamingParserMode → Option Hunk → Region
  | .updateFile _, some (.updateFile _ _ chunks) => ofSummary (chunkSummary chunks)
  | .updateFile _, _ => .update false
  | _, _ => .outside

end Region

variable {text : Text} {header : Header} {summary : Option (Bool × Bool)} {action : UpdateAction}
  {pre after : StreamingParserState} {rest : Text}

theorem Header.read_cases (read : Header.read mode lineNo text = some header) :
    (∃ envId, mode = .startedPatch ∧ text = environmentIdMarker ++ envId ∧
        header = .environment envId) ∨
      (text = endPatchMarker ∧ header = .endPatch) ∨
      (∃ path, text = addFileMarker ++ path ∧ header = .openHunk (.addFile path []) .addFile) ∨
      (∃ path, text = deleteFileMarker ++ path ∧
        header = .openHunk (.deleteFile path) .deleteFile) ∨
      ∃ path, text = updateFileMarker ++ path ∧
        header = .openHunk (.updateFile path none []) (.updateFile lineNo) := by
  unfold Header.read at read
  split at read
  · rename_i envId dropped
    exact .inl ⟨envId, rfl, eq_append_of_dropPrefix? dropped, (Option.some.inj read).symm⟩
  split at read
  · rename_i ended
    exact .inr (.inl ⟨ended, (Option.some.inj read).symm⟩)
  split at read
  · rename_i path dropped
    exact .inr (.inr (.inl
      ⟨path, eq_append_of_dropPrefix? dropped, (Option.some.inj read).symm⟩))
  split at read
  · rename_i path dropped
    exact .inr (.inr (.inr (.inl
      ⟨path, eq_append_of_dropPrefix? dropped, (Option.some.inj read).symm⟩)))
  split at read
  · rename_i path dropped
    exact .inr (.inr (.inr (.inr
      ⟨path, eq_append_of_dropPrefix? dropped, (Option.some.inj read).symm⟩)))
  · cases read

theorem Header.read_eq_none (read : Header.read mode lineNo text = none) :
    Region.closesUpdate text = false ∧ updateFileMarker.isPrefixOf text = false := by
  unfold Header.read at read
  split at read
  · cases read
  split at read
  · cases read
  rename_i notEnded
  split at read
  · cases read
  rename_i notAdd
  split at read
  · cases read
  rename_i notDelete
  split at read
  · cases read
  rename_i notUpdate
  simp [Region.closesUpdate, notEnded, isPrefixOf_of_dropPrefix?_eq_none notAdd,
    isPrefixOf_of_dropPrefix?_eq_none notDelete, isPrefixOf_of_dropPrefix?_eq_none notUpdate]

inductive UpdateRead (summary : Option (Bool × Bool)) (line : Text) : UpdateAction → Prop
  | skip (anchored : summary.any (·.1) = true) (empty : trimEnd line = []) :
      UpdateRead summary line .skip
  | moveTo {path : Text} (first : summary = none)
      (marker : trimEnd line = moveToMarker ++ path) : UpdateRead summary line (.moveTo path)
  | startChunk {changeContext : Option Text} {rest : Text}
      (marker : trimEnd line = '@' :: rest) :
      UpdateRead summary line (.startChunk changeContext)
  | markEndOfFile (unanchored : summary.any (·.1) = false)
      (marker : trimEnd line = eofMarker) : UpdateRead summary line .markEndOfFile
  | content {action : UpdateAction} (unanchored : summary.any (·.1) = false)
      (notEof : trimEnd line ≠ eofMarker) (stored : UpdateAction.ofContent line = some action) :
      UpdateRead summary line action

open Bool Header UpdateAction

theorem UpdateAction.updateRead {movePath : Option Text}
    (read : UpdateAction.read movePath summary line = some action) :
    UpdateRead summary line action := by
  simp only [UpdateAction.read, readMarker] at read
  split at read
  · rename_i skipped
    obtain rfl := Option.some.inj read
    rw [and_eq_true, List.isEmpty_iff] at skipped
    exact .skip skipped.1 skipped.2
  split at read
  · cases read
  rename_i more
  split at read
  · rename_i dropped _
    obtain rfl := Option.some.inj read
    exact .moveTo rfl (eq_append_of_dropPrefix? dropped)
  rename_i summary _ _ _ _ _ _
  split at read
  · cases read
  split at read
  · rename_i bare
    obtain rfl := Option.some.inj read
    exact .startChunk bare
  rename_i notBare
  split at read
  · rename_i ctx dropped
    obtain rfl := Option.some.inj read
    exact .startChunk (eq_append_of_dropPrefix? dropped)
  rename_i noContext
  have free : summary.any (·.1) = false := by
    have plain : (trimEnd line == emptyChangeContextMarker) = false := by
      simpa using notBare
    rw [plain, isPrefixOf_of_dropPrefix?_eq_none noContext] at more
    simpa using more
  split at read
  · rename_i eof
    split at read
    · cases read
    obtain rfl := Option.some.inj read
    exact .markEndOfFile free eof
  rename_i notEof
  exact .content free notEof read

theorem UpdateAction.copies_of_ofContent (stored : ofContent line = some action) :
    action.copies ≠ 0 := by
  unfold ofContent at stored
  split at stored
  all_goals simp at stored
  all_goals subst stored; simp [copies]

theorem eq_cons_of_trimEnd {fst : Char}
    (trimmed : trimEnd line = fst :: rest) : ∃ more, line = fst :: more := by
  obtain ⟨spaces, whole⟩ := List.rdropWhile_prefix isWhitespace line
  refine ⟨rest ++ spaces, ?_⟩
  rw [← whole]
  exact congrArg (· ++ spaces) trimmed

namespace Region

variable {chunks : List UpdateFileChunk}

theorem ofSummary_unanchored (free : summary.any (·.1) = false) :
    ofSummary summary = .update summary.isSome := by
  rcases summary with _ | ⟨_ | _, _⟩
  · rfl
  · rfl
  · cases free

theorem ofSummary_anchored (anchored : summary.any (·.1) = true) :
    ofSummary summary = .anchored := by
  rcases summary with _ | ⟨_ | _, _⟩
  · cases anchored
  · cases anchored
  · rfl

theorem ofSummary_append_fresh (chunks : List UpdateFileChunk) (changeContext : Option Text) :
    ofSummary (chunkSummary (chunks ++ [{ changeContext := changeContext }])) = .update true := by
  simp [chunkSummary, ofSummary]

theorem ofSummary_editLastChunk
    (keeps : ∀ chunk, (edit chunk).isEndOfFile = chunk.isEndOfFile)
    (free : (chunkSummary chunks).any (·.1) = false) :
    ofSummary (chunkSummary (StreamingPatchParser.editLastChunk edit chunks)) = .update true := by
  cases chunks using List.reverseRecOn with
  | nil => simp [StreamingPatchParser.editLastChunk, chunkSummary, ofSummary, keeps]
  | append_singleton front last =>
    have open_ : last.isEndOfFile = false := by simpa [chunkSummary] using free
    simp [StreamingPatchParser.editLastChunk, chunkSummary, ofSummary, keeps, open_]

theorem ofSummary_markEndOfFile (chunks : List UpdateFileChunk) :
    ofSummary (chunkSummary (StreamingPatchParser.markEndOfFile chunks)) =
      if (chunkSummary chunks).isSome then .anchored else .update false := by
  cases chunks using List.reverseRecOn with
  | nil => rfl
  | append_singleton front last =>
    simp [StreamingPatchParser.markEndOfFile, chunkSummary, ofSummary]

theorem ofSummary_content (stored : action.copies ≠ 0)
    (movePath : Option Text) (free : (chunkSummary chunks).any (·.1) = false) :
    ofSummary (chunkSummary (action.apply movePath chunks).2) = .update true := by
  cases action with
  | context line | added line | removed line =>
    simp only [apply]
    refine ofSummary_editLastChunk ?_ free
    intro chunk
    rfl
  | _ => exact absurd rfl stored

theorem next_update {started : Bool} (stays : closesUpdate (trimEnd line) = false)
    (eq : updateFileMarker.isPrefixOf (trimEnd line) = false)
    (notMoved : moveToMarker.isPrefixOf (trimEnd line) = false) :
    (Region.update started).next line =
      if trimEnd line = eofMarker then if started then .anchored else .update false
      else .update true := by
  simp [next, stays, eq, notMoved]

theorem next_ofParser (mode : StreamingParserMode) (last : Option Hunk) (line : Text) :
    (closesUpdate (headerText mode line) = true →
      updateFileMarker.isPrefixOf (headerText mode line) = false →
        (ofParser mode last).next line = .outside) ∧
      (closesUpdate (headerText mode line) = false →
        updateFileMarker.isPrefixOf (headerText mode line) = true →
          (ofParser mode last).next line = .update false) := by
  have ins (region : Region) (inUpdate : region ≠ .outside) :
      (closesUpdate (trimEnd line) = true → region.next line = .outside) ∧
        (closesUpdate (trimEnd line) = false → updateFileMarker.isPrefixOf (trimEnd line) = true →
            region.next line = .update false) := by
    cases region <;> simp_all [next]
  cases mode with
  | updateFile hunkLine =>
    have inUpdate : ofParser (.updateFile hunkLine) last ≠ .outside := by
      unfold ofParser ofSummary
      repeat' split
      all_goals simp_all
    exact ⟨fun closes _ => (ins _ inUpdate).1 closes, (ins _ inUpdate).2⟩
  | _ => simp_all [ofParser, next, headerText]

end Region

theorem eofMarker_head : eofMarker.head? = some '*' := rfl

theorem UpdateRead.region {chunks : List UpdateFileChunk}
    (read : UpdateRead (chunkSummary chunks) line action) (movePath : Option Text)
    (stays : Region.closesUpdate (trimEnd line) = false)
    (eq : updateFileMarker.isPrefixOf (trimEnd line) = false) :
    Region.ofSummary (chunkSummary (action.apply movePath chunks).2) =
      (Region.ofSummary (chunkSummary chunks)).next line := by
  cases read with
  | skip anchored empty =>
    rw [Region.ofSummary_anchored anchored]
    simp only [apply, Region.next, stays, eq]
    simp [Region.ofSummary_anchored anchored, empty]
  | moveTo fst marker =>
    have moved : moveToMarker.isPrefixOf (trimEnd line) = true := by
      rw [marker]
      exact List.isPrefixOf_iff_prefix.mpr (List.prefix_append _ _)
    rw [fst]
    simp only [apply, Region.ofSummary, Region.next, stays, eq, moved, fst]
    simp
  | startChunk marker =>
    have notMoved : moveToMarker.isPrefixOf (trimEnd line) = false := by rw [marker]; rfl
    have notEof : trimEnd line ≠ eofMarker := by
      rw [marker]
      exact fun equal => absurd (congrArg List.head? equal) (by simp [eofMarker_head])
    rw [apply, Region.ofSummary_append_fresh]
    cases anchored : (chunkSummary chunks).any (·.1) with
    | true =>
      have ne : trimEnd line ≠ [] := by simp [marker]
      rw [Region.ofSummary_anchored anchored]
      simp [Region.next, stays, eq, ne]
    | false =>
      rw [Region.ofSummary_unanchored anchored, Region.next_update stays eq notMoved, if_neg notEof]
  | markEndOfFile free marker =>
    have notMoved : moveToMarker.isPrefixOf (trimEnd line) = false := by
      rw [marker]
      decide
    rw [apply, Region.ofSummary_markEndOfFile,
      Region.ofSummary_unanchored free, Region.next_update stays eq notMoved,
      if_pos marker]
  | content free notEof stored =>
    have notMoved : moveToMarker.isPrefixOf (trimEnd line) = false := by
      rw [eq_false_iff]
      intro hit
      obtain ⟨rest, trimmed⟩ := List.isPrefixOf_iff_prefix.mp hit
      have starts : trimEnd line = '*' :: (moveToMarker.tail ++ rest) := trimmed.symm
      obtain ⟨more, rfl⟩ := eq_cons_of_trimEnd starts
      simp [ofContent] at stored
    rw [Region.ofSummary_unanchored free, Region.next_update stays eq notMoved, if_neg notEof]
    exact Region.ofSummary_content (copies_of_ofContent stored) movePath free

theorem region_header {st : StreamingParserState}
    (read : Header.read st.mode lineNo (headerText st.mode line) = some header) :
    Region.ofParser ((LineAction.header header).apply st).mode
        ((LineAction.header header).apply st).hunks.getLast? =
      (Region.ofParser st.mode st.hunks.getLast?).next line := by
  have region := Region.next_ofParser st.mode st.hunks.getLast? line
  rcases read_cases read with ⟨environmentId, mode, text, rfl⟩ | ⟨text, rfl⟩ |
    ⟨path, text, rfl⟩ | ⟨path, text, rfl⟩ | ⟨path, text, rfl⟩
  · have y : updateFileMarker.isPrefixOf (environmentIdMarker ++ environmentId) = false := rfl
    rw [mode] at text ⊢
    have trimmed : trim line = environmentIdMarker ++ environmentId := text
    simp only [LineAction.apply, mode, Region.ofParser, Region.next, trimmed, y]
    rfl
  · exact (region.1 (by rw [text]; decide) (by rw [text]; decide)).symm
  · exact (region.1 (by rw [text]; rfl) (by rw [text]; rfl)).symm
  · exact (region.1 (by rw [text]; rfl) (by rw [text]; rfl)).symm
  rw [region.2 (by rw [text]; rfl) (by rw [text]; rfl)]
  simp [LineAction.apply, Region.ofParser, chunkSummary, Region.ofSummary]

theorem LineStep.region {action : LineAction} (step : LineStep lineNo line action pre after) :
    Region.ofParser after.mode after.hunks.getLast? =
      (Region.ofParser pre.mode pre.hunks.getLast?).next line := by
  rw [step.result]
  rcases LineAction.read_cases step.read with
    ⟨mode, marker, rfl⟩ | ⟨mode, empty, rfl⟩ | ⟨-, -, ⟨header, read, rfl⟩ | ⟨headers, read⟩⟩
  · have y : updateFileMarker.isPrefixOf beginPatchMarker = false := by decide
    simp only [mode, LineAction.apply, Region.ofParser, Region.next, marker, y]
    rfl
  · have y : updateFileMarker.isPrefixOf [] = false := by decide
    simp only [mode, LineAction.apply, Region.ofParser, Region.next, empty, y]
    rfl
  · exact region_header read
  have text := read_eq_none headers
  rcases LineAction.readContent_cases read with
    ⟨lineToAdd, path, texts, mode, -, final, rfl⟩ |
      ⟨_, path, movePath, chunks, update, mode, final, updateRead, rfl⟩
  · rw [mode] at text
    simp only [LineAction.apply, mode, Region.ofParser, Region.next, headerText] at text ⊢
    simp [text.2]
  rw [mode] at text
  have last : (editLastHunk (·.update update) pre.hunks).getLast? =
      some ((Hunk.updateFile path movePath chunks).update update) := by
    simp [editLastHunk, final]
  simp only [LineAction.apply]
  rw [mode, last, final]
  exact (UpdateAction.updateRead updateRead).region movePath text.1 text.2

theorem Region.stores_of_trimEnd {fst : Char} (region : Region)
    (trimmed : trimEnd line = fst :: rest) (marker : fst = '*' ∨ fst = '@') :
    region.stores line = false := by
  obtain ⟨more, rfl⟩ := eq_cons_of_trimEnd trimmed
  rcases marker with rfl | rfl <;> cases region <;> rfl

theorem trim_eq_trimEnd_of_stores (stored : Region.outside.stores line = true) :
    trim line = trimEnd line ∧ trimEnd line ≠ [] := by
  cases line with
  | nil => cases stored
  | cons fst rest =>
    obtain rfl : fst = '+' := by simpa [Region.stores] using stored
    have visible : isWhitespace '+' = false := by decide
    have start : trimStart ('+' :: rest) = '+' :: rest := by
      simp [trimStart, visible]
    refine ⟨by rw [trim, start], fun empty => ?_⟩
    have blank := (trimEnd_eq_nil_iff _).mp empty '+' (by simp)
    cases visible.symm.trans blank

theorem header_starts (read : Header.read mode lineNo text = some header) :
    ∃ rest, text = '*' :: rest := by
  rcases read_cases read with ⟨envId, -, rfl, -⟩ | ⟨rfl, -⟩ |
    ⟨path, rfl, -⟩ | ⟨path, rfl, -⟩ | ⟨path, rfl, -⟩
  all_goals exact ⟨_, rfl⟩

theorem stores_of_trim (trimmed : trim line = '*' :: rest) :
    Region.outside.stores line = false := by
  rw [eq_false_iff]
  intro stored
  rw [(trim_eq_trimEnd_of_stores stored).1] at trimmed
  cases stored.symm.trans (Region.outside.stores_of_trimEnd trimmed (.inl rfl))

theorem UpdateRead.stores_iff (read : UpdateRead summary line action) (ne : line ≠ []) :
    action.copies ≠ 0 ↔ (Region.ofSummary summary).stores line = true := by
  cases read with
  | skip anchored empty =>
    rw [Region.ofSummary_anchored anchored]
    simp [copies, Region.stores]
  | moveTo fst marker =>
    rw [Region.stores_of_trimEnd _ marker (.inl rfl)]
    simp [copies]
  | startChunk marker =>
    rw [Region.stores_of_trimEnd _ marker (.inr rfl)]
    simp [copies]
  | markEndOfFile free marker =>
    rw [Region.stores_of_trimEnd _ marker (.inl rfl)]
    simp [copies]
  | content free notEof stored =>
    rw [Region.ofSummary_unanchored free]
    refine iff_of_true (copies_of_ofContent stored) ?_
    unfold ofContent at stored
    split at stored
    · exact absurd rfl ne
    · rfl
    · rfl
    · rfl
    · cases stored

theorem LineStep.stores_iff {action : LineAction}
    (step : LineStep lineNo line action pre after) (ne : line ≠ []) :
    action.copies ≠ 0 ↔ (Region.ofParser pre.mode pre.hunks.getLast?).stores line = true := by
  rcases LineAction.read_cases step.read with
    ⟨mode, marker, rfl⟩ | ⟨mode, empty, rfl⟩ | ⟨-, -, ⟨header, read, rfl⟩ | ⟨headers, read⟩⟩
  · have unstored : Region.outside.stores line = false := stores_of_trim marker
    simp [mode, Region.ofParser, unstored, LineAction.copies]
  · have unstored : Region.outside.stores line = false := by
      rw [eq_false_iff]
      intro stored
      obtain ⟨eq, visible⟩ := trim_eq_trimEnd_of_stores stored
      exact visible (eq.symm.trans empty)
    simp [mode, Region.ofParser, unstored, LineAction.copies]
  · obtain ⟨rest, text⟩ := header_starts read
    have unstored : (Region.ofParser pre.mode pre.hunks.getLast?).stores line = false := by
      cases mode : pre.mode with
      | updateFile hunkLine =>
        rw [mode] at text
        exact Region.stores_of_trimEnd _ text (.inl rfl)
      | _ =>
        rw [mode] at text
        exact stores_of_trim text
    simp [unstored, LineAction.copies]
  rcases LineAction.readContent_cases read with
    ⟨lineToAdd, path, texts, mode, rfl, final, rfl⟩ |
      ⟨_, path, movePath, chunks, update, mode, final, updateRead, rfl⟩
  · simp [mode, Region.ofParser, Region.stores, LineAction.copies]
  rw [mode, final]
  exact (UpdateAction.updateRead updateRead).stores_iff ne

end Codex.ApplyPatch
