import Codex.ApplyPatch.ParserAgreement
import Mathlib.Data.List.Forall2

/-!
# The shape of parsed update hunks

An update hunk of an accepted patch has chunks, and every chunk has lines.
-/

namespace Codex.ApplyPatch

open List

def unnamed (named : List Nat) (lines : List Text) : List Text :=
  (lines.zipIdx.filter fun entry => decide (entry.2 ∉ named)).map Prod.fst

/-- The content of a `+` line. -/
def addedLine? : Text → Option Text
  | '+' :: line => some line
  | _ => none

/-- The content of a `-` line. -/
def removedLine? : Text → Option Text
  | '-' :: line => some line
  | _ => none

structure UpdateFileChunk.ReadFrom (input : List Text) (chunk : UpdateFileChunk) : Prop where
  increasing : chunk.contextLineIndices.Pairwise fun first snd =>
    first.1 < snd.1 ∧ first.2 < snd.2
  paired : ∀ pair ∈ chunk.contextLineIndices, ∃ line,
    chunk.oldLines[pair.1]? = some line ∧ chunk.newLines[pair.2]? = some line
  added : input.filterMap addedLine? =
    unnamed (chunk.contextLineIndices.map Prod.snd) chunk.newLines
  removed : input.filterMap removedLine? =
    unnamed (chunk.contextLineIndices.map Prod.fst) chunk.oldLines

section

variable {named : List Nat} {lines : List Text}

theorem unnamed_concat (named : List Nat) (lines : List Text) (line : Text) :
    unnamed named (lines ++ [line]) =
      unnamed named lines ++ if lines.length ∈ named then [] else [line] := by
  rw [unnamed, zipIdx_append, filter_append, map_append]
  congr 1
  by_cases present : lines.length ∈ named
  all_goals simp [present]

theorem unnamed_concat_named {index : Nat} (out : lines.length ≤ index) :
    unnamed (named ++ [index]) lines = unnamed named lines := by
  rw [unnamed, unnamed]
  congr 1
  refine filter_congr fun ent mem => ?_
  have ins := snd_lt_of_mem_zipIdx mem
  have other : ent.2 ≠ index := by omega
  simp [other]

end

open Prod

namespace UpdateFileChunk

variable {input : List Text} {chunk : UpdateFileChunk}

theorem ReadFrom.empty (changeContext : Option Text) :
    ReadFrom [] { changeContext : UpdateFileChunk } :=
  ⟨.nil, by simp, rfl, rfl⟩

theorem unnamed_concat_fresh {named : List Nat} (below : ∀ idx ∈ named, idx < lines.length)
    (line : Text) : unnamed named (lines ++ [line]) = unnamed named lines ++ [line] := by
  rw [unnamed_concat, if_neg fun mem => (below _ mem).false]

variable (read : ReadFrom input chunk)
include read

theorem ReadFrom.fst_lt {pair : Nat × Nat}
    (mem : pair ∈ chunk.contextLineIndices) : pair.1 < chunk.oldLines.length := by
  obtain ⟨line, old, -⟩ := read.paired pair mem
  exact (List.getElem?_eq_some_iff.mp old).1

theorem ReadFrom.snd_lt {pair : Nat × Nat}
    (mem : pair ∈ chunk.contextLineIndices) : pair.2 < chunk.newLines.length := by
  obtain ⟨line, -, new⟩ := read.paired pair mem
  exact (List.getElem?_eq_some_iff.mp new).1

theorem ReadFrom.pushNewLine (line : Text) :
    ReadFrom (input ++ ['+' :: line]) (chunk.pushNewLine line) where
  increasing := read.increasing
  paired := fun pair mem => by
    obtain ⟨eq, old, new⟩ := read.paired pair mem
    exact ⟨eq, old, getElem?_append_left (read.snd_lt mem) ▸ new⟩
  added := by
    rw [filterMap_append, read.added]
    exact (unnamed_concat_fresh (forall_mem_map.mpr fun _ => read.snd_lt) line).symm
  removed := by
    rw [filterMap_append, read.removed]
    exact append_nil _

theorem ReadFrom.pushOldLine (line : Text) :
    ReadFrom (input ++ ['-' :: line]) (chunk.pushOldLine line) where
  increasing := read.increasing
  paired := fun pair mem => by
    obtain ⟨eq, old, new⟩ := read.paired pair mem
    exact ⟨eq, getElem?_append_left (read.fst_lt mem) ▸ old, new⟩
  added := by
    rw [filterMap_append, read.added]
    exact append_nil _
  removed := by
    rw [filterMap_append, read.removed]
    exact (unnamed_concat_fresh (forall_mem_map.mpr fun _ => read.fst_lt) line).symm

theorem ReadFrom.pushContextLine {source line : Text}
    (notAdded : addedLine? source = none) (notRemoved : removedLine? source = none) :
    ReadFrom (input ++ [source]) (chunk.pushContextLine line) where
  increasing := by
    refine pairwise_append.mpr ⟨read.increasing, pairwise_singleton _ _, ?_⟩
    intro pair mem last isLast
    rw [mem_singleton.mp isLast]
    exact ⟨read.fst_lt mem, read.snd_lt mem⟩
  paired := fun pair mem => by
    rcases mem_append.mp mem with pre | isLast
    · obtain ⟨eq, old, new⟩ := read.paired pair pre
      exact ⟨eq, getElem?_append_left (read.fst_lt pre) ▸ old,
        getElem?_append_left (read.snd_lt pre) ▸ new⟩
    rw [mem_singleton.mp isLast]
    exact ⟨line, getElem?_concat_length, getElem?_concat_length⟩
  added := by
    rw [filterMap_append, read.added]
    change _ = unnamed ((chunk.contextLineIndices ++ [_]).map snd) (chunk.newLines ++ [line])
    rw [map_append, unnamed_concat, if_pos (by simp), map_singleton,
      unnamed_concat_named (le_refl _)]
    simp [notAdded]
  removed := by
    rw [filterMap_append, read.removed]
    change _ = unnamed ((chunk.contextLineIndices ++ [_]).map fst) (chunk.oldLines ++ [line])
    rw [map_append, unnamed_concat, if_pos (by simp), map_singleton,
      unnamed_concat_named (le_refl _)]
    simp [notRemoved]

end UpdateFileChunk

namespace Hunk

def ReadFrom (inputs : List (List Text)) : Hunk → Prop
  | .updateFile _ _ chunks => List.Forall₂ UpdateFileChunk.ReadFrom inputs chunks
  | _ => True

def Filled : Hunk → Prop
  | .updateFile _ _ chunks => chunks ≠ [] ∧ ∀ chunk ∈ chunks, chunk.isBlank = false
  | _ => True

def Growing : Hunk → Prop
  | .updateFile _ _ chunks => ∀ chunk ∈ chunks.dropLast, chunk.isBlank = false
  | _ => True

def isUpdate : Hunk → Bool
  | .updateFile _ _ _ => true
  | _ => false

end Hunk

def editLastOr {α : Type} (fresh : α) (edit : α → α) (items : List α) : List α :=
  match items.getLast? with
  | none => [edit fresh]
  | some last => items.dropLast ++ [edit last]

def editLast {α : Type} (edit : α → α) (items : List α) : List α :=
  items.dropLast ++ (items.getLast?.map edit).toList

def UpdateAction.record (line : Text) (act : UpdateAction) (inputs : List (List Text)) :
    List (List Text) :=
  match act with
  | .startChunk _ => inputs ++ [[]]
  | .context _ | .added _ | .removed _ => editLastOr [] (· ++ [line]) inputs
  | .skip | .moveTo _ | .markEndOfFile => inputs

def LineAction.record (line : Text) (act : LineAction) (inputs : List (List (List Text))) :
    List (List (List Text)) :=
  match act with
  | .header (.openHunk _ _) => inputs ++ [[]]
  | .update act => editLast (act.record line) inputs
  | _ => inputs

def StreamingPatchParser.chunkInputs (self : StreamingPatchParser)
    (inputs : List (List (List Text))) : List Text → List (List (List Text))
  | [] => inputs
  | line :: lines =>
    match LineAction.read self.state.mode self.state.hunks.getLast? (self.lineNumber + 1)
        (Text.stripCarriageReturn line), self.pushLine line with
    | some act, .ok next =>
      next.chunkInputs (act.record (Text.stripCarriageReturn line) inputs) lines
    | _, _ => inputs

section

variable {α β : Type} {R : α → β → Prop} {front : List α} {back : List β} {last : α} {other : β}

theorem forall₂_concat (forall' : List.Forall₂ R front back) (related : R last other) :
    List.Forall₂ R (front ++ [last]) (back ++ [other]) :=
  rel_append forall' (.cons related .nil)

theorem exists_of_forall₂_concat {xs : List α} (forall' : List.Forall₂ R xs (back ++ [other])) :
    ∃ front last, xs = front ++ [last] ∧ List.Forall₂ R front back ∧ R last other := by
  induction back generalizing xs with
  | nil =>
    cases forall' with
    | cons related tl =>
      cases tl
      exact ⟨[], _, rfl, .nil, related⟩
  | cons fst back ih =>
    cases forall' with
    | cons related tl =>
      obtain ⟨front, last, rfl, between, final⟩ := ih tl
      exact ⟨_ :: front, last, rfl, .cons related between, final⟩

theorem editLast_concat (edit : α → α) :
    editLast edit (front ++ [last]) = front ++ [edit last] := by
  simp [editLast]

theorem editLastOr_concat (fresh : α) (edit : α → α) :
    editLastOr fresh edit (front ++ [last]) = front ++ [edit last] := by
  simp [editLastOr]

end

section

open StreamingPatchParser (editLastChunk markEndOfFile)

variable {inputs : List (List Text)} {chunks : List UpdateFileChunk} {line : Text}

theorem editLastChunk_concat (edit : UpdateFileChunk → UpdateFileChunk)
    (front : List UpdateFileChunk) (last : UpdateFileChunk) :
    editLastChunk edit (front ++ [last]) = front ++ [edit last] := by
  simp [editLastChunk]

theorem readFrom_editLastChunk {edit : UpdateFileChunk → UpdateFileChunk}
    (extends' : ∀ input chunk, UpdateFileChunk.ReadFrom input chunk →
      UpdateFileChunk.ReadFrom (input ++ [line]) (edit chunk))
    (read : List.Forall₂ UpdateFileChunk.ReadFrom inputs chunks) :
    List.Forall₂ UpdateFileChunk.ReadFrom (editLastOr [] (· ++ [line]) inputs)
        (editLastChunk edit chunks) ∧
      (editLastChunk edit chunks).dropLast = chunks.dropLast := by
  rcases eq_nil_or_concat chunks with rfl | ⟨front, last, rfl⟩
  · cases read
    exact ⟨.cons (extends' [] {} (.empty none)) .nil, rfl⟩
  rw [concat_eq_append] at read ⊢
  obtain ⟨pre, input, rfl, between, final⟩ := exists_of_forall₂_concat read
  rw [editLastOr_concat, editLastChunk_concat, dropLast_concat, dropLast_concat]
  exact ⟨forall₂_concat between (extends' input last final), rfl⟩

theorem readFrom_markEndOfFile (read : List.Forall₂ UpdateFileChunk.ReadFrom inputs chunks) :
    List.Forall₂ UpdateFileChunk.ReadFrom inputs (markEndOfFile chunks) ∧
      (markEndOfFile chunks).dropLast = chunks.dropLast := by
  rcases eq_nil_or_concat chunks with rfl | ⟨front, last, rfl⟩
  · exact ⟨read, rfl⟩
  rw [concat_eq_append] at read ⊢
  obtain ⟨pre, input, rfl, between, final⟩ := exists_of_forall₂_concat read
  have marked : markEndOfFile (front ++ [last]) =
      front ++ [{ last with isEndOfFile := true }] := by simp [markEndOfFile]
  rw [marked, dropLast_concat, dropLast_concat]
  exact ⟨forall₂_concat between
    ⟨final.increasing, final.paired, final.added, final.removed⟩, rfl⟩

theorem readFrom_content {act : UpdateAction} (moved : Option Text)
    (stored : UpdateAction.ofContent line = some act)
    (read : List.Forall₂ UpdateFileChunk.ReadFrom inputs chunks) :
    List.Forall₂ UpdateFileChunk.ReadFrom (act.record line inputs) (act.apply moved chunks).2 ∧
      (act.apply moved chunks).2.dropLast = chunks.dropLast := by
  unfold UpdateAction.ofContent at stored
  split at stored
  all_goals try obtain rfl := Option.some.inj stored
  · exact readFrom_editLastChunk (fun _ _ from' => from'.pushContextLine rfl rfl) read
  · exact readFrom_editLastChunk (fun _ _ from' => from'.pushContextLine rfl rfl) read
  · exact readFrom_editLastChunk (fun _ _ from' => from'.pushNewLine _) read
  · exact readFrom_editLastChunk (fun _ _ from' => from'.pushOldLine _) read
  · cases stored

theorem lastFilled_of_startChunk {moved ctx : Option Text}
    (read : UpdateAction.read moved (chunkSummary chunks) line = some (.startChunk ctx)) :
    ∀ last ∈ chunks.getLast?, last.isBlank = false := by
  have unblank : (chunkSummary chunks).any (·.2) = false := by
    simp only [UpdateAction.read, UpdateAction.readMarker] at read
    split at read
    · cases read
    split at read
    · cases read
    split at read
    · cases read
    split at read
    · cases read
    rename_i allowed
    rw [Bool.and_eq_true, not_and, Bool.not_eq_true] at allowed
    split at read
    · rename_i bare
      exact allowed (by simp [bare])
    split at read
    · rename_i ctx dropped
      have marked := Text.eq_append_of_dropPrefix? dropped
      exact allowed (by simp [marked])
    split at read
    · split at read <;> cases read
    unfold UpdateAction.ofContent at read
    split at read <;> cases read
  intro last final
  rw [chunkSummary, Option.mem_def.mp final] at unblank
  exact unblank

theorem filled_of_growing (growing : ∀ chunk ∈ chunks.dropLast, chunk.isBlank = false)
    (filled : ∀ last ∈ chunks.getLast?, last.isBlank = false) :
    ∀ chunk ∈ chunks, chunk.isBlank = false := by
  intro chunk mem
  rcases eq_nil_or_concat chunks with rfl | ⟨front, last, rfl⟩
  · cases mem
  rw [concat_eq_append] at *
  rw [dropLast_concat] at growing
  rcases mem_append.mp mem with pre | isLast
  · exact growing chunk pre
  rw [mem_singleton.mp isLast]
  exact filled last (by simp)

theorem readFrom_updateLine {act : UpdateAction} {moved : Option Text}
    (meaning : UpdateAction.read moved (chunkSummary chunks) line = some act)
    (read : List.Forall₂ UpdateFileChunk.ReadFrom inputs chunks)
    (growing : ∀ chunk ∈ chunks.dropLast, chunk.isBlank = false) :
    List.Forall₂ UpdateFileChunk.ReadFrom (act.record line inputs) (act.apply moved chunks).2 ∧
      ∀ chunk ∈ (act.apply moved chunks).2.dropLast, chunk.isBlank = false := by
  cases UpdateAction.updateRead meaning with
  | skip | moveTo => exact ⟨read, growing⟩
  | @startChunk changeContext =>
    refine ⟨forall₂_concat read (.empty changeContext), ?_⟩
    have eq : (chunks ++ [{ changeContext : UpdateFileChunk }]).dropLast = chunks :=
      dropLast_concat
    change ∀ chunk ∈ (chunks ++ [{ changeContext : UpdateFileChunk }]).dropLast, _
    rw [eq]
    exact filled_of_growing growing (lastFilled_of_startChunk meaning)
  | markEndOfFile =>
    obtain ⟨marked, eq⟩ := readFrom_markEndOfFile read
    refine ⟨marked, ?_⟩
    change ∀ chunk ∈ (markEndOfFile chunks).dropLast, _
    rw [eq]
    exact growing
  | content _ _ stored =>
    obtain ⟨ext, eq⟩ := readFrom_content moved stored read
    refine ⟨ext, ?_⟩
    rw [eq]
    exact growing

end

/-- The hunks are read from the lines; all but the last are filled, and at the end the last one too.
-/
structure Shaped (inputs : List (List (List Text))) (state : StreamingParserState) : Prop where
  read : List.Forall₂ Hunk.ReadFrom inputs state.hunks
  closed : ∀ hunk ∈ state.hunks.dropLast, hunk.Filled
  growing : ∀ last ∈ state.hunks.getLast?, last.Growing
  ended : state.mode = .endedPatch → ∀ last ∈ state.hunks.getLast?, last.Filled
  updating : state.mode ≠ .endedPatch → ∀ last ∈ state.hunks.getLast?, last.isUpdate = true →
    ∃ hunkLine, state.mode = .updateFile hunkLine

namespace Shaped

variable {inputs : List (List (List Text))} {state after : StreamingParserState}
  {hunks : List Hunk} {mode : StreamingParserMode} {lineNo : Nat} {line : Text}
  {self : StreamingPatchParser}

theorem initial : Shaped [] {} :=
  ⟨.nil, by simp, by simp, by simp, by simp⟩

section

variable (shaped : Shaped inputs state)
include shaped

theorem last_filled (filled : state.LastUpdateFilled) :
    ∀ last ∈ state.hunks.getLast?, last.Filled := by
  intro last final
  by_cases ended : state.mode = .endedPatch
  · exact shaped.ended ended last final
  have growing := shaped.growing last final
  have updating := shaped.updating ended last final
  cases last with
  | addFile | deleteFile => trivial
  | updateFile path moved chunks =>
    obtain ⟨hunkLine, mode⟩ := updating rfl
    have closable := filled path moved chunks final
    rcases eq_nil_or_concat chunks with rfl | ⟨front, chunk, rfl⟩
    · exact absurd mode (closable hunkLine)
    rw [concat_eq_append] at *
    rw [getLast?_concat] at closable
    refine ⟨by simp, filled_of_growing growing ?_⟩
    rw [getLast?_concat]
    rintro _ ⟨⟩
    exact closable

theorem all_filled (last : ∀ last ∈ state.hunks.getLast?, last.Filled) :
    ∀ hunk ∈ state.hunks, hunk.Filled := by
  intro hunk mem
  rcases eq_nil_or_concat state.hunks with empty | ⟨front, final, split⟩
  · rw [empty] at mem
    cases mem
  rw [concat_eq_append] at split
  have closed := shaped.closed
  rw [split] at mem last closed
  rw [dropLast_concat] at closed
  rcases mem_append.mp mem with pre | isLast
  · exact closed hunk pre
  rw [mem_singleton.mp isLast]
  exact last final (by simp)

theorem edit {front : List (List (List Text))} {input : List (List Text)} {last edited : Hunk}
    (split : state.hunks = hunks ++ [last])
    (between : List.Forall₂ Hunk.ReadFrom front hunks) (read : edited.ReadFrom input)
    (growing : edited.Growing) (running : state.mode ≠ .endedPatch)
    (kind : edited.isUpdate = last.isUpdate) :
    Shaped (front ++ [input]) { state with hunks := hunks ++ [edited] } where
  read := forall₂_concat between read
  closed := by
    have closed := shaped.closed
    rw [split, dropLast_concat] at closed
    rw [dropLast_concat]
    exact closed
  growing := by
    rw [getLast?_concat]
    rintro _ ⟨⟩
    exact growing
  ended := fun ended => absurd ended running
  updating := by
    rw [getLast?_concat]
    rintro - _ ⟨⟩ update
    exact shaped.updating running last (by simp [split]) (kind ▸ update)

theorem openHunk {hunk : Hunk} (filled : state.LastUpdateFilled)
    (read : hunk.ReadFrom []) (growing : hunk.Growing) (running : mode ≠ .endedPatch)
    (updating : hunk.isUpdate = true → ∃ hunkLine, mode = .updateFile hunkLine) :
    Shaped (inputs ++ [[]]) { state with mode, hunks := state.hunks ++ [hunk] } where
  read := forall₂_concat shaped.read read
  closed := by
    rw [dropLast_concat]
    exact shaped.all_filled (shaped.last_filled filled)
  growing := by
    rw [getLast?_concat]
    rintro _ ⟨⟩
    exact growing
  ended := fun ended => absurd ended running
  updating := by
    rw [getLast?_concat]
    rintro - _ ⟨⟩
    exact updating

theorem setMode (pre : state.mode ≠ .endedPatch)
    (out : ∀ hunkLine, state.mode ≠ .updateFile hunkLine)
    (running : mode ≠ .endedPatch) : Shaped inputs { state with mode } where
  read := shaped.read
  closed := shaped.closed
  growing := shaped.growing
  ended := fun ended => absurd ended running
  updating := by
    intro _ last final update
    obtain ⟨hunkLine, mode⟩ := shaped.updating pre last final update
    exact absurd mode (out hunkLine)

theorem header {text : Text} {header : Header}
    (read : Header.read state.mode lineNo text = some header)
    (allowed : (LineAction.header header).Allowed state) (line : Text) :
    Shaped ((LineAction.header header).record line inputs)
      ((LineAction.header header).apply state) := by
  rcases Header.read_cases read with ⟨envId, -, -, rfl⟩ | ⟨-, rfl⟩ | ⟨path, -, rfl⟩ |
    ⟨path, -, rfl⟩ | ⟨path, -, rfl⟩
  · exact ⟨shaped.read, shaped.closed, shaped.growing, shaped.ended, shaped.updating⟩
  · exact ⟨shaped.read, shaped.closed, shaped.growing, fun _ => shaped.last_filled allowed,
      fun running => absurd rfl running⟩
  · exact shaped.openHunk allowed trivial trivial (by simp) (by simp [Hunk.isUpdate])
  · exact shaped.openHunk allowed trivial trivial (by simp) (by simp [Hunk.isUpdate])
  exact shaped.openHunk allowed .nil (by simp [Hunk.Growing]) (by simp)
    fun _ => ⟨lineNo, rfl⟩

theorem step {act : LineAction} (step : LineStep lineNo line act state after) :
    Shaped (act.record line inputs) after := by
  rw [step.result]
  rcases LineAction.read_cases step.read with
    ⟨mode, -, rfl⟩ | ⟨-, -, rfl⟩ | ⟨-, running, ⟨header, read, rfl⟩ | ⟨-, read⟩⟩
  · exact shaped.setMode (by simp [mode]) (by simp [mode]) (by simp)
  · exact shaped
  · exact shaped.header read step.allowed line
  rcases LineAction.readContent_cases read with
    ⟨lineToAdd, path, texts, -, -, final, rfl⟩ |
    ⟨_, path, moved, chunks, update, -, final, meaning, rfl⟩
  · obtain ⟨hunks, split⟩ := getLast?_eq_some_iff.mp final
    have related := shaped.read
    rw [split] at related
    obtain ⟨front, input, rfl, between, -⟩ := exists_of_forall₂_concat related
    have edited := shaped.edit split between
      (show (Hunk.addFile path (texts ++ lineToAdd ++ ['\n'])).ReadFrom input from trivial)
      trivial running rfl
    rw [LineAction.apply, split, editLastHunk_concat]
    exact edited
  obtain ⟨hunks, split⟩ := getLast?_eq_some_iff.mp final
  have related := shaped.read
  rw [split] at related
  obtain ⟨front, input, rfl, between, lastRead⟩ := exists_of_forall₂_concat related
  obtain ⟨ext, growing⟩ :=
    readFrom_updateLine meaning lastRead (shaped.growing _ final)
  have edited := shaped.edit split between
    (show (Hunk.updateFile path (update.apply moved chunks).1
      (update.apply moved chunks).2).ReadFrom (update.record line input) from ext)
    growing running rfl
  rw [LineAction.apply, LineAction.record, split, editLastHunk_concat, editLast_concat]
  exact edited

end

theorem run {next : StreamingPatchParser} {lines : List Text} (shaped : Shaped inputs self.state)
    (run : lines.foldlM StreamingPatchParser.pushLine self = .ok next) :
    Shaped (self.chunkInputs inputs lines) next.state := by
  induction lines generalizing self inputs with
  | nil =>
    obtain rfl : self = next := Except.ok.inj run
    exact shaped
  | cons line lines ih =>
    rw [foldlM_cons, bind_eq_ok_iff] at run
    obtain ⟨mid, pushed, tl⟩ := run
    obtain ⟨act, step, -⟩ := StreamingPatchParser.lineStep_of_processLine pushed
    rw [StreamingPatchParser.chunkInputs, show LineAction.read self.state.mode
      self.state.hunks.getLast? (self.lineNumber + 1) (Text.stripCarriageReturn line) =
        some act from step.read, pushed]
    exact ih (shaped.step step) tl

theorem finish {final : StreamingPatchParser} (shaped : Shaped inputs self.state)
    (done : StreamingPatchParser.finish { self with lineBuffer := line } = .ok (hunks, final)) :
    hunks = self.state.hunks ∧ ∀ hunk ∈ hunks, hunk.Filled := by
  obtain ⟨ended, rfl, full⟩ := StreamingPatchParser.finish_cases done
  rcases full with ⟨-, eq⟩ | ⟨-, filled, eq⟩ | ⟨-, past⟩
  · rw [eq] at ended ⊢
    exact ⟨rfl, shaped.all_filled (shaped.ended ended)⟩
  · rw [eq]
    exact ⟨rfl, shaped.all_filled (shaped.last_filled filled)⟩
  obtain ⟨act, step, -⟩ := StreamingPatchParser.lineStep_of_processLine past
  have res := step.result
  rcases step.ended ended with ⟨mode, -, rfl⟩ | ⟨-, rfl⟩
  · rw [res]
    exact ⟨rfl, shaped.all_filled (shaped.ended mode)⟩
  rw [res]
  exact ⟨rfl, shaped.all_filled (shaped.last_filled step.allowed)⟩

end Shaped

/-- An update hunk has chunks, read from the patch, and every chunk has lines. -/
def Hunk.WellFormed (inputs : List (List Text)) : Hunk → Prop
  | .updateFile _ _ chunks => chunks ≠ [] ∧
      (∀ chunk ∈ chunks, chunk.oldLines ≠ [] ∨ chunk.newLines ≠ []) ∧
      List.Forall₂ UpdateFileChunk.ReadFrom inputs chunks
  | _ => True

theorem Hunk.wellFormed_of_filled {inputs : List (List Text)} {hunk : Hunk} (filled : hunk.Filled)
    (read : hunk.ReadFrom inputs) : hunk.WellFormed inputs := by
  cases hunk with
  | addFile | deleteFile => trivial
  | updateFile path moved chunks =>
    refine ⟨filled.1, fun chunk mem => ?_, read⟩
    have visible := filled.2 chunk mem
    rw [UpdateFileChunk.isBlank, Bool.and_eq_false_iff] at visible
    simpa using visible

/-- The hunks of a parsed patch are well formed. -/
theorem parsePatch_hunks_wellFormed (text : Text) (args : ApplyPatchArgs)
    (parsed : parsePatch text = .ok args) :
    List.Forall₂ Hunk.WellFormed
      (StreamingPatchParser.chunkInputs {} [] (Text.splitLines args.patch).1) args.hunks := by
  obtain ⟨self, final, run, finished, -⟩ := parseDeltas_ok (parseDeltas_of_parsePatch parsed)
  have shaped := Shaped.initial.run run
  obtain ⟨eq, filled⟩ := shaped.finish finished
  have read := shaped.read
  rw [← eq] at read
  have both := (forall₂_and_left _ _).mpr ⟨filled, read.flip⟩
  exact both.flip.imp fun inputs hunk related =>
    Hunk.wellFormed_of_filled related.1 related.2

def contextPatch : Text :=
  "*** Begin Patch\n*** Update File: a\n@@\n-x\n y\n+z\n*** End Patch"

theorem parsePatch_hunks_wellFormed_contextPatch :
    ∃ args, parsePatch contextPatch = .ok args ∧ args.hunks = [.updateFile "a" none
        [{ oldLines := ["x", "y"]
           newLines := ["y", "z"]
           contextLineIndices := [(1, 0)] }]] ∧
      List.Forall₂ Hunk.WellFormed [[["-x", " y", "+z"]]] args.hunks :=
  ⟨_, rfl, rfl, parsePatch_hunks_wellFormed contextPatch _ rfl⟩

inductive ChunkLine
  | context (line : Text)
  | added (line : Text)
  | removed (line : Text)
  deriving DecidableEq

namespace ChunkLine

def old? : ChunkLine → Option Text
  | context line | removed line => some line
  | added _ => none

def new? : ChunkLine → Option Text
  | context line | added line => some line
  | removed _ => none

def added? : ChunkLine → Option Text
  | added line => some line
  | context _ | removed _ => none

end ChunkLine

def contextIndices (old new : Nat) : List ChunkLine → List (Nat × Nat)
  | [] => []
  | .context _ :: script => (old, new) :: contextIndices (old + 1) (new + 1) script
  | .added _ :: script => contextIndices old (new + 1) script
  | .removed _ :: script => contextIndices (old + 1) new script

/-- The chunk is read from the lines of the script. -/
structure UpdateFileChunk.Scripted (script : List ChunkLine) (chunk : UpdateFileChunk) : Prop where
  oldLines : chunk.oldLines = script.filterMap ChunkLine.old?
  newLines : chunk.newLines = script.filterMap ChunkLine.new?
  contextLineIndices : chunk.contextLineIndices = contextIndices 0 0 script

theorem contextIndices_append (old new : Nat) (script more : List ChunkLine) :
    contextIndices old new (script ++ more) = contextIndices old new script ++
      contextIndices (old + (script.filterMap ChunkLine.old?).length)
        (new + (script.filterMap ChunkLine.new?).length) more := by
  induction script generalizing old new with
  | nil => rfl
  | cons line script ih =>
    cases line with
    | context | added | removed =>
      simp only [cons_append, contextIndices, ih, filterMap_cons,
        ChunkLine.old?, ChunkLine.new?, length_cons, Nat.add_assoc, Nat.add_comm 1]

namespace UpdateFileChunk

variable {script : List ChunkLine} {chunk : UpdateFileChunk}

theorem Scripted.push (read : Scripted script chunk) (line : Text) :
    Scripted (script ++ [.context line]) (chunk.pushContextLine line) ∧
      Scripted (script ++ [.added line]) (chunk.pushNewLine line) ∧
      Scripted (script ++ [.removed line]) (chunk.pushOldLine line) := by
  refine ⟨⟨?_, ?_, ?_⟩, ⟨?_, ?_, ?_⟩, ⟨?_, ?_, ?_⟩⟩
  all_goals
    simp only [pushContextLine, pushNewLine, pushOldLine, read.oldLines, read.newLines,
      read.contextLineIndices, filterMap_append, contextIndices_append, Nat.zero_add]
    simp [ChunkLine.old?, ChunkLine.new?, contextIndices]

end UpdateFileChunk

def Hunk.Chunks (p : UpdateFileChunk → Prop) : Hunk → Prop
  | .updateFile _ _ chunks => ∀ chunk ∈ chunks, p chunk
  | _ => True

section

open StreamingPatchParser (editLastChunk markEndOfFile)

variable {p : UpdateFileChunk → Prop} (fresh : ∀ changeContext, p { changeContext })
  (context : ∀ chunk line, p chunk → p (chunk.pushContextLine line))
  (added : ∀ chunk line, p chunk → p (chunk.pushNewLine line))
  (removed : ∀ chunk line, p chunk → p (chunk.pushOldLine line))
  (marked : ∀ chunk, p chunk → p { chunk with isEndOfFile := true }) {chunks : List UpdateFileChunk}

include fresh in
theorem forall_editLastChunk {edit : UpdateFileChunk → UpdateFileChunk}
    (keeps : ∀ chunk, p chunk → p (edit chunk)) (holds : ∀ chunk ∈ chunks, p chunk) :
    ∀ chunk ∈ editLastChunk edit chunks, p chunk := by
  rcases eq_nil_or_concat chunks with rfl | ⟨front, last, rfl⟩
  · exact forall_mem_singleton.mpr (keeps _ (fresh none))
  rw [concat_eq_append] at holds ⊢
  obtain ⟨pre, final⟩ := forall_mem_append.mp holds
  rw [editLastChunk_concat]
  exact forall_mem_append.mpr
    ⟨pre, forall_mem_singleton.mpr (keeps last (forall_mem_singleton.mp final))⟩

include marked in
theorem forall_markEndOfFile (holds : ∀ chunk ∈ chunks, p chunk) :
    ∀ chunk ∈ markEndOfFile chunks, p chunk := by
  rcases eq_nil_or_concat chunks with rfl | ⟨front, last, rfl⟩
  · exact holds
  rw [concat_eq_append] at holds ⊢
  obtain ⟨pre, final⟩ := forall_mem_append.mp holds
  have edited : markEndOfFile (front ++ [last]) =
      front ++ [{ last with isEndOfFile := true }] := by simp [markEndOfFile]
  rw [edited]
  exact forall_mem_append.mpr
    ⟨pre, forall_mem_singleton.mpr (marked last (forall_mem_singleton.mp final))⟩

include fresh context added removed marked

theorem UpdateAction.forall_apply (act : UpdateAction) (moved : Option Text)
    (holds : ∀ chunk ∈ chunks, p chunk) : ∀ chunk ∈ (act.apply moved chunks).2, p chunk := by
  cases act with
  | skip | moveTo => exact holds
  | startChunk ctx =>
    exact forall_mem_append.mpr
      ⟨holds, forall_mem_singleton.mpr (fresh ctx)⟩
  | markEndOfFile => exact forall_markEndOfFile marked holds
  | context line => exact forall_editLastChunk fresh (fun chunk => context chunk line) holds
  | added line => exact forall_editLastChunk fresh (fun chunk => added chunk line) holds
  | removed line => exact forall_editLastChunk fresh (fun chunk => removed chunk line) holds

theorem LineStep.forall_chunks {lineNo : Nat} {line : Text} {act : LineAction}
    {pre after : StreamingParserState} (step : LineStep lineNo line act pre after)
    (holds : ∀ hunk ∈ pre.hunks, hunk.Chunks p) : ∀ hunk ∈ after.hunks, hunk.Chunks p := by
  have opens : ∀ hunk : Hunk, hunk.Chunks p →
      ∀ y ∈ pre.hunks ++ [hunk], y.Chunks p := fun hunk empty =>
    forall_mem_append.mpr ⟨holds, forall_mem_singleton.mpr empty⟩
  have edits : ∀ edit : Hunk → Hunk, (∀ hunk, hunk.Chunks p → (edit hunk).Chunks p) →
      ∀ y ∈ editLastHunk edit pre.hunks, y.Chunks p := by
    intro edit keeps
    rcases eq_nil_or_concat pre.hunks with empty | ⟨front, last, split⟩
    · rw [empty]
      simp [editLastHunk]
    rw [concat_eq_append] at split
    rw [split] at holds ⊢
    obtain ⟨early, final⟩ := forall_mem_append.mp holds
    rw [editLastHunk_concat]
    exact forall_mem_append.mpr
      ⟨early, forall_mem_singleton.mpr (keeps last (forall_mem_singleton.mp final))⟩
  rw [step.result]
  cases act with
  | beginPatch | blank => exact holds
  | header header =>
    rcases LineAction.read_cases step.read with
      ⟨-, -, eq⟩ | ⟨-, -, eq⟩ | ⟨-, -, ⟨y, read, eq⟩ | ⟨-, body⟩⟩
    · cases eq
    · cases eq
    · cases eq
      rcases Header.read_cases read with ⟨_, -, -, rfl⟩ | ⟨-, rfl⟩ | ⟨path, -, rfl⟩ |
        ⟨path, -, rfl⟩ | ⟨path, -, rfl⟩
      · exact holds
      · exact holds
      · exact opens _ trivial
      · exact opens _ trivial
      · exact opens (.updateFile path none []) (by simp [Hunk.Chunks])
    rcases LineAction.readContent_cases body with
      ⟨_, _, _, -, -, -, eq⟩ | ⟨_, _, _, _, _, -, -, -, eq⟩
    all_goals cases eq
  | addLine lineToAdd =>
    refine edits _ fun hunk chunks => ?_
    cases hunk with
    | addFile | deleteFile | updateFile => exact chunks
  | update act =>
    refine edits _ fun hunk chunks => ?_
    cases hunk with
    | addFile | deleteFile => exact chunks
    | updateFile path moved chunks' =>
      exact act.forall_apply fresh context added removed marked moved chunks

theorem forall_chunks_run {self next : StreamingPatchParser} {lines : List Text}
    (run : lines.foldlM StreamingPatchParser.pushLine self = .ok next)
    (holds : ∀ hunk ∈ self.state.hunks, hunk.Chunks p) :
    ∀ hunk ∈ next.state.hunks, hunk.Chunks p := by
  induction lines generalizing self with
  | nil =>
    obtain rfl : self = next := Except.ok.inj run
    exact holds
  | cons line lines ih =>
    rw [foldlM_cons, bind_eq_ok_iff] at run
    obtain ⟨mid, pushed, tl⟩ := run
    obtain ⟨act, step, -⟩ := StreamingPatchParser.lineStep_of_processLine pushed
    exact ih tl (step.forall_chunks fresh context added removed marked holds)

theorem forall_chunks_of_parsePatch {txt : Text} {args : ApplyPatchArgs}
    (parsed : parsePatch txt = .ok args) : ∀ hunk ∈ args.hunks, hunk.Chunks p := by
  obtain ⟨self, final, run, done, -⟩ := parseDeltas_ok (parseDeltas_of_parsePatch parsed)
  obtain ⟨eq, -⟩ := (Shaped.initial.run run).finish done
  have holds := forall_chunks_run fresh context added removed marked run (by simp)
  rwa [← eq] at holds

end

theorem exists_scripts_of_parsePatch {txt : Text} {args : ApplyPatchArgs} {path : Text}
    {moved : Option Text} {chunks : List UpdateFileChunk} (parsed : parsePatch txt = .ok args)
    (updates : .updateFile path moved chunks ∈ args.hunks) :
    ∀ chunk ∈ chunks, chunk.isBlank = false ∧ ∃ script, UpdateFileChunk.Scripted script chunk := by
  have scripted : ∀ hunk ∈ args.hunks,
      hunk.Chunks fun chunk => ∃ script, UpdateFileChunk.Scripted script chunk := by
    refine forall_chunks_of_parsePatch (fun _ => ⟨[], rfl, rfl, rfl⟩) ?_ ?_ ?_ ?_ parsed
    · exact fun chunk line ⟨script, read⟩ => ⟨_, (read.push line).1⟩
    · exact fun chunk line ⟨script, read⟩ => ⟨_, (read.push line).2.1⟩
    · exact fun chunk line ⟨script, read⟩ => ⟨_, (read.push line).2.2⟩
    exact fun chunk ⟨script, read⟩ => ⟨script, read.oldLines, read.newLines,
      read.contextLineIndices⟩
  obtain ⟨self, final, run, done, -⟩ := parseDeltas_ok (parseDeltas_of_parsePatch parsed)
  obtain ⟨-, filled⟩ := (Shaped.initial.run run).finish done
  exact fun chunk mem => ⟨(filled _ updates).2 chunk mem, scripted _ updates chunk mem⟩

end Codex.ApplyPatch
