import Codex.ApplyPatch.Placement

/-!
# The edits of a script

Between two context lines a script removes and adds lines; that is one edit.
-/

namespace Codex.ApplyPatch

open List

def gapEdit (start removed : Nat) (added : List Text) : List Replacement :=
  if removed ≠ 0 ∨ added ≠ [] then [(start, removed, added)] else []

/-- The edits of a script whose first lines, behind `start`, removed and added lines already. -/
def scriptEdits (start removed : Nat) (added : List Text) : List ChunkLine → List Replacement
  | [] => gapEdit start removed added
  | .context _ :: script =>
    gapEdit start removed added ++ scriptEdits (start + removed + 1) 0 [] script
  | .added line :: script => scriptEdits start removed (added ++ [line]) script
  | .removed _ :: script => scriptEdits start (removed + 1) added script

/-- The lines of the file that the `-` lines of a script stand for. -/
def removedPositions (pos : Nat) : List ChunkLine → List Nat
  | [] => []
  | .context _ :: script => removedPositions (pos + 1) script
  | .added _ :: script => removedPositions pos script
  | .removed _ :: script => pos :: removedPositions (pos + 1) script

/-- The `+` lines of a script. -/
def addedLines (script : List ChunkLine) : List Text := script.filterMap ChunkLine.added?

def removedBy (repls : List Replacement) : List Nat :=
  repls.flatMap fun repl => List.range' repl.1 repl.2.1

def insertedBy (repls : List Replacement) : List Text := repls.flatMap (·.2.2)

theorem removedBy_gapEdit (start removed : Nat) (added : List Text) :
    removedBy (gapEdit start removed added) = List.range' start removed := by
  rw [gapEdit]
  split
  · simp [removedBy]
  rename_i nothing
  push Not at nothing
  rw [nothing.1]
  rfl

theorem insertedBy_gapEdit (start gone : Nat) (added : List Text) :
    insertedBy (gapEdit start gone added) = added := by
  rw [gapEdit]
  split
  · simp [insertedBy]
  rename_i nothing
  push Not at nothing
  rw [nothing.2]
  rfl

theorem removedBy_scriptEdits (start removed : Nat) (added : List Text) (script : List ChunkLine) :
    removedBy (scriptEdits start removed added script) =
      List.range' start removed ++ removedPositions (start + removed) script := by
  induction script generalizing start removed added with
  | nil => rw [scriptEdits, removedBy_gapEdit, removedPositions, append_nil]
  | cons line script ih =>
    cases line with
    | context line =>
      rw [scriptEdits, removedBy, flatMap_append]
      change removedBy _ ++ removedBy _ = _
      rw [removedBy_gapEdit, ih]
      rfl
    | added line => exact ih start removed (added ++ [line])
    | removed line =>
      rw [scriptEdits, ih, range'_1_concat, append_assoc]
      rfl

theorem insertedBy_scriptEdits (start removed : Nat) (added : List Text) (script : List ChunkLine) :
    insertedBy (scriptEdits start removed added script) = added ++ addedLines script := by
  induction script generalizing start removed added with
  | nil => rw [scriptEdits, insertedBy_gapEdit, addedLines, filterMap_nil, append_nil]
  | cons line script ih =>
    cases line with
    | context line =>
      rw [scriptEdits, insertedBy, flatMap_append]
      change insertedBy _ ++ insertedBy _ = _
      rw [insertedBy_gapEdit, ih]
      rfl
    | added line =>
      rw [scriptEdits, ih, append_assoc]
      rfl
    | removed line => exact ih start (removed + 1) added

open ChunkLine Placement

theorem removedPositions_append (pos : Nat) (script more : List ChunkLine) :
    removedPositions pos (script ++ more) = removedPositions pos script ++
      removedPositions (pos + (script.filterMap old?).length) more := by
  induction script generalizing pos with
  | nil => rfl
  | cons line script ih =>
    cases line with
    | context line =>
      simp only [cons_append, removedPositions, ih, filterMap_cons,
        old?, length_cons, Nat.add_assoc, Nat.add_comm 1]
    | added line =>
      simp only [cons_append, removedPositions, ih, filterMap_cons, old?]
    | removed line =>
      simp only [cons_append, removedPositions, ih, filterMap_cons,
        old?, length_cons, Nat.add_assoc, Nat.add_comm 1]

theorem mem_removedPositions {pos idx : Nat} {script : List ChunkLine}
    (mem : idx ∈ removedPositions pos script) : idx < pos + (script.filterMap old?).length := by
  induction script generalizing pos with
  | nil => cases mem
  | cons line script ih =>
    cases line with
    | context line =>
      have := ih mem
      simp only [filterMap_cons, old?, length_cons]
      omega
    | added line => exact ih mem
    | removed line =>
      simp only [filterMap_cons, old?, length_cons]
      rcases mem_cons.mp mem with rfl | mem
      · omega
      have := ih mem
      omega

theorem removedPositions_map_added (pos : Nat) (lines : List Text) :
    removedPositions pos (lines.map .added) = [] := by
  induction lines with
  | nil => rfl
  | cons line lines ih => exact ih

theorem addedLines_append (script more : List ChunkLine) :
    addedLines (script ++ more) = addedLines script ++ addedLines more :=
  filterMap_append

variable (lines : List Text)

theorem addedLines_map_added : addedLines (lines.map .added) = lines := by
  rw [addedLines, filterMap_map]
  exact filterMap_some

theorem scriptEdits_map_added (start gone : Nat) (added lines : List Text) :
    scriptEdits start gone added (lines.map .added) = gapEdit start gone (added ++ lines) := by
  induction lines generalizing added with
  | nil => rw [map_nil, scriptEdits, append_nil]
  | cons line lines ih =>
    rw [map_cons, scriptEdits, ih, append_assoc]
    rfl

variable {start : Nat} {front : List Text} {last : Text} {lines : List Text}

theorem contextReplacements_outside {oldStart newStart : Nat} {pat newSlice : List Text}
    {out : List (Nat × Nat)}
    (beyond : ∀ pair ∈ out.head?, pat.length ≤ pair.1 ∨ newSlice.length ≤ pair.2) :
    contextReplacements start pat newSlice oldStart newStart out =
      contextReplacements.finish start pat newSlice oldStart newStart := by
  cases out with
  | nil => rfl
  | cons pair out => exact if_pos (beyond pair rfl)

/-- The index pairs behind those of the script are out of range. -/
theorem contextReplacements_eq {oldStart newStart removed : Nat}
    {added extra before : List Text}
    {pat newSlice : List Text} {out : List (Nat × Nat)} (script : List ChunkLine)
    (count : before.length = newStart)
    (len : pat.length = oldStart + removed + (script.filterMap old?).length)
    (newLines : newSlice = before ++ (added ++ script.filterMap new? ++ extra))
    (beyond : ∀ pair ∈ out.head?, pat.length ≤ pair.1 ∨ newSlice.length ≤ pair.2) :
    contextReplacements start pat newSlice oldStart newStart
        (contextIndices (oldStart + removed) (newStart + added.length) script ++ out) =
      scriptEdits (start + oldStart) removed added (script ++ extra.map .added) := by
  induction script generalizing oldStart newStart removed added before with
  | nil =>
    have tl : newSlice.drop newStart = added ++ extra := by
      rw [newLines, ← count, drop_left]
      simp
    have total : newSlice.length = newStart + (added ++ extra).length := by
      rw [newLines, ← count]
      simp
    have size : pat.length - oldStart = removed := by
      rw [len, filterMap_nil, length_nil]
      omega
    rw [contextIndices, nil_append, contextReplacements_outside beyond, nil_append,
      scriptEdits_map_added, contextReplacements.finish, gapEdit, tl, size]
    refine if_congr ?_ rfl rfl
    rw [total, len, ← length_pos_iff_ne_nil]
    simp only [filterMap_nil, length_nil]
    omega
  | cons line script ih =>
    cases line with
    | context line =>
      have old : pat.length =
          oldStart + removed + 1 + (script.filterMap old?).length := by
        rw [len]
        simp only [filterMap_cons, old?, length_cons]
        omega
      have new : newSlice = (before ++ added ++ [line]) ++
          ([] ++ script.filterMap new? ++ extra) := by
        rw [newLines]
        simp [new?]
      have known : ¬ (pat.length ≤ oldStart + removed ∨
          newSlice.length ≤ newStart + added.length) := by
        rw [old, new, ← count]
        simp only [length_append, length_cons, length_nil]
        omega
      have gap : (newSlice.drop newStart).take (newStart + added.length - newStart) = added := by
        rw [Nat.add_sub_cancel_left, newLines, ← count, drop_left]
        simp only [append_assoc]
        exact take_left
      have tl := @ih (oldStart + removed + 1) (newStart + added.length + 1) 0 []
        (before ++ added ++ [line]) (by simp [count, Nat.add_assoc]) old new
      rw [contextIndices, cons_append, contextReplacements, if_neg known, gap,
        Nat.add_sub_cancel_left, cons_append, scriptEdits, gapEdit]
      congr 1
      · refine if_congr ?_ rfl rfl
        rw [← length_pos_iff_ne_nil]
        omega
      · rwa [Nat.add_assoc start, Nat.add_assoc start]
    | added line =>
      have extended := @ih oldStart newStart removed (added ++ [line]) before count len
        (by rw [newLines]; simp [new?])
      rw [length_append] at extended
      exact extended
    | removed line =>
      refine @ih oldStart newStart (removed + 1) added before count ?_ newLines
      rw [len]
      simp only [filterMap_cons, old?, length_cons]
      omega

theorem contextReplacements_script {extra : List Text} {out : List (Nat × Nat)}
    (script : List ChunkLine)
    (beyond : ∀ pair ∈ out.head?, (script.filterMap old?).length ≤ pair.1 ∨
      (script.filterMap new? ++ extra).length ≤ pair.2) :
    contextReplacements start (script.filterMap old?)
        (script.filterMap new? ++ extra) 0 0 (contextIndices 0 0 script ++ out) =
      scriptEdits start 0 [] (script ++ extra.map .added) :=
  @contextReplacements_eq start 0 0 0 [] extra [] _ _ out script rfl (by omega) rfl beyond

theorem filterMap_old?_map_added : (lines.map added).filterMap old? = [] := by
  rw [filterMap_map]
  exact filterMap_none _

theorem filterMap_new?_map_added : (lines.map added).filterMap new? = lines := by
  rw [filterMap_map]
  exact filterMap_some

theorem filterMap_new?_map_removed : (lines.map removed).filterMap new? = [] := by
  rw [filterMap_map]
  exact filterMap_none _

theorem contextIndices_map_added (old new : Nat) (lines : List Text) :
    contextIndices old new (lines.map .added) = [] := by
  induction lines generalizing new with
  | nil => rfl
  | cons line lines ih => exact ih (new + 1)

theorem contextIndices_map_removed (old new : Nat) (lines : List Text) :
    contextIndices old new (lines.map .removed) = [] := by
  induction lines generalizing old with
  | nil => rfl
  | cons line lines ih => exact ih (old + 1)

/-- The last line that a side has, with the lines of the other side behind it. -/
theorem exists_last {side : ChunkLine → Option Text} {y : Text → ChunkLine}
    (only : ∀ line, side line = none → ∃ txt, y txt = line) {script : List ChunkLine}
    (split : script.filterMap side = front ++ [last]) :
    ∃ before line, ∃ lines : List Text, script = before ++ line :: lines.map y ∧
      side line = some last ∧ before.filterMap side = front := by
  obtain ⟨before, back, rfl, eq, final⟩ := filterMap_eq_append_iff.mp split
  obtain ⟨between, line, after, rfl, skipped, here, none⟩ := filterMap_eq_cons_iff.mp final
  obtain ⟨lines, rfl⟩ : ∃ lines : List Text, lines.map y = after :=
    (Set.ext_iff.mp (Set.range_list_map y) after).mpr fun line mem =>
      only line (filterMap_eq_nil_iff.mp none line mem)
  refine ⟨before ++ between, line, lines, by simp, here, ?_⟩
  rw [filterMap_append, eq, filterMap_eq_nil_iff.mpr skipped, append_nil]

theorem added_of_old?_eq_none (line : ChunkLine) (none : line.old? = none) :
    ∃ txt, ChunkLine.added txt = line := by
  cases line with
  | added txt => exact ⟨txt, rfl⟩
  | context | removed => cases none

theorem removed_of_new?_eq_none (line : ChunkLine) (none : line.new? = none) :
    ∃ txt, ChunkLine.removed txt = line := by
  cases line with
  | removed txt => exact ⟨txt, rfl⟩
  | context | added => cases none

/-- A placed chunk removes its `-` lines, as far as it was found, and inserts its `+` lines. -/
structure Follows (spot : Placement) (script : List ChunkLine) : Prop where
  removed : removedBy (spot.replacements .preserveLineEndings) =
    (removedPositions spot.start script).filter (· < spot.behind)
  inserted : insertedBy (spot.replacements .preserveLineEndings) = addedLines script

/-- What a chunk has to be for a final empty line to be dropped from it. -/
def EmptyLineFits (chunk : UpdateFileChunk) : Prop :=
  (∃ index, (chunk.oldLines.length - 1, index) ∈ chunk.contextLineIndices ∧
      ∀ line ∈ chunk.newLines.drop index, line = []) ∨
    (∀ index, (chunk.oldLines.length - 1, index) ∉ chunk.contextLineIndices) ∧
      chunk.newLines.getLast? ≠ some []

variable {spot : Placement} {chunk : UpdateFileChunk} {script : List ChunkLine}

theorem filter_removedPositions {stop : Nat}
    (whole : start + (script.filterMap old?).length ≤ stop) :
    (removedPositions start script).filter (· < stop) = removedPositions start script := by
  refine filter_eq_self.mpr fun pos mem => decide_eq_true ?_
  exact (mem_removedPositions mem).trans_le whole

theorem eq_map_added (none : script.filterMap old? = []) :
    script = (script.filterMap new?).map .added := by
  induction script with
  | nil => rfl
  | cons line script ih =>
    cases line with
    | added line => exact congrArg _ (ih none)
    | context | removed => cases none

theorem follows_iff {y : List ChunkLine} (edits : spot.replacements .preserveLineEndings =
      scriptEdits spot.start 0 [] y) :
    Follows spot script ↔ removedPositions spot.start y =
          (removedPositions spot.start script).filter (· < spot.behind) ∧
        addedLines y = addedLines script := by
  constructor
  · rintro ⟨gone, ins⟩
    rw [edits, removedBy_scriptEdits] at gone
    rw [edits, insertedBy_scriptEdits] at ins
    exact ⟨gone, ins⟩
  rintro ⟨gone, ins⟩
  constructor
  · rw [edits, removedBy_scriptEdits]
    exact gone
  rw [edits, insertedBy_scriptEdits]
  exact ins

theorem follows_of_insertion (scripted : chunk.Scripted script) (pure : chunk.oldLines = []) :
    Follows ⟨chunk, start, [], chunk.newLines⟩ script := by
  have added : script = chunk.newLines.map .added := by
    rw [scripted.newLines]
    exact eq_map_added (scripted.oldLines ▸ pure)
  have replaced : replacements .preserveLineEndings ⟨chunk, start, [], chunk.newLines⟩ =
      [(start, 0, chunk.newLines)] :=
    replacements_of_pure (List.isEmpty_iff.mpr pure)
  constructor
  · rw [replaced, added, removedPositions_map_added]
    rfl
  rw [replaced, added, addedLines_map_added]
  exact append_nil _

theorem follows_of_found (scripted : chunk.Scripted script) (filled : chunk.oldLines ≠ []) :
    Follows ⟨chunk, start, chunk.oldLines, chunk.newLines⟩ script := by
  have edits := @contextReplacements_script start [] [] script (by simp)
  rw [append_nil, append_nil, map_nil, append_nil, ← scripted.oldLines,
    ← scripted.newLines, ← scripted.contextLineIndices] at edits
  have replaced : replacements .preserveLineEndings
      ⟨chunk, start, chunk.oldLines, chunk.newLines⟩ = scriptEdits start 0 [] script :=
    (replacements_of_impure (by simpa using filled)).trans edits
  refine (follows_iff replaced).mpr ⟨(filter_removedPositions ?_).symm, rfl⟩
  rw [← scripted.oldLines]
  rfl

theorem dropFinalEmpty_append (filled : lines ≠ []) :
    dropFinalEmpty (front ++ lines) = front ++ dropFinalEmpty lines := by
  rw [dropFinalEmpty, dropFinalEmpty, getLast?_append_of_ne_nil _ filled,
    dropLast_append_of_ne_nil filled]
  split <;> rfl

theorem dropFinalEmpty_of_getLast? (ends : lines.getLast? = some []) :
    dropFinalEmpty lines = lines.dropLast := by
  rw [dropFinalEmpty, ends]
  rfl

theorem dropFinalEmpty_of_ne (y : lines.getLast? ≠ some []) : dropFinalEmpty lines = lines := by
  refine if_neg fun ends => y ?_
  obtain ⟨front, rfl⟩ := exists_of_final_empty ends
  exact getLast?_concat

theorem forall_of_dropLast_cons (eq : ([] :: lines).dropLast = lines) :
    ∀ line ∈ lines, line = [] := by
  induction lines with
  | nil => simp
  | cons fst lines ih =>
    obtain ⟨rfl, tl⟩ := List.cons.inj eq
    exact forall_mem_cons.mpr ⟨rfl, ih tl⟩

theorem dropFinalEmpty_cons_eq_iff :
    dropFinalEmpty ([] :: lines) = lines ↔ ∀ line ∈ lines, line = [] := by
  constructor
  · intro eq
    by_cases ends : ([] :: lines).getLast? = some ([] : Text)
    · rw [dropFinalEmpty_of_getLast? ends] at eq
      exact forall_of_dropLast_cons eq
    rw [dropFinalEmpty_of_ne ends] at eq
    exact absurd (congrArg List.length eq) (by simp)
  intro empty
  have all : [] :: lines = List.replicate (lines.length + 1) [] :=
    eq_replicate_of_mem (forall_mem_cons.mpr ⟨rfl, empty⟩)
  rw [dropFinalEmpty_of_getLast? (by rw [all, getLast?_replicate]; rfl), all,
    dropLast_replicate]
  exact (eq_replicate_of_mem empty).symm

theorem contextIndices_lt {old new : Nat} {pair : Nat × Nat}
    (mem : pair ∈ contextIndices old new script) :
    pair.1 < old + (script.filterMap old?).length := by
  induction script generalizing old new with
  | nil => cases mem
  | cons line script ih =>
    cases line with
    | context line =>
      simp only [filterMap_cons, old?, length_cons]
      rcases mem_cons.mp mem with rfl | mem
      · omega
      have := ih mem
      omega
    | added line => exact ih mem
    | removed line =>
      have := ih mem
      simp only [filterMap_cons, old?, length_cons]
      omega

section

variable {start : Nat} {front lines : List Text} {before : List ChunkLine}

theorem replacements_of_script {extra : List Text} {out : List (Nat × Nat)}
    (filled : chunk.oldLines ≠ []) (old : before.filterMap old? = front)
    (new : dropFinalEmpty chunk.newLines = before.filterMap new? ++ extra)
    (idxs : chunk.contextLineIndices = contextIndices 0 0 before ++ out)
    (beyond : ∀ pair ∈ out.head?, front.length ≤ pair.1 ∨
      (before.filterMap new? ++ extra).length ≤ pair.2) :
    replacements .preserveLineEndings
        ⟨chunk, start, front, dropFinalEmpty chunk.newLines⟩ =
      scriptEdits start 0 [] (before ++ extra.map .added) := by
  rw [← contextReplacements_script before (by rwa [old]), old, ← new, ← idxs]
  exact replacements_of_impure (by simpa using filled)

theorem filter_removedPositions_front (eq : before.filterMap old? = front)
    {after : List ChunkLine} (later : ∀ pos ∈ removedPositions (start + front.length) after,
      start + front.length ≤ pos) :
    (removedPositions start (before ++ after)).filter (· < start + front.length) =
      removedPositions start before := by
  rw [removedPositions_append, filter_append, eq, filter_removedPositions (by rw [eq]),
    filter_eq_nil_iff.mpr, append_nil]
  intro pos mem
  simpa using later pos mem

theorem follows_of_context_iff
    (scripted : chunk.Scripted (before ++ .context [] :: lines.map .added))
    (eq : before.filterMap old? = front) :
    Follows ⟨chunk, start, front, dropFinalEmpty chunk.newLines⟩
        (before ++ .context [] :: lines.map .added) ↔
      EmptyLineFits chunk := by
  have old : chunk.oldLines = front ++ [[]] := by
    rw [scripted.oldLines, filterMap_append, eq, filterMap_cons, filterMap_old?_map_added]
    rfl
  have new : chunk.newLines = before.filterMap new? ++ [] :: lines := by
    rw [scripted.newLines, filterMap_append, filterMap_cons, filterMap_new?_map_added]
    rfl
  have idxs : chunk.contextLineIndices = contextIndices 0 0 before ++
      [(front.length, (before.filterMap new?).length)] := by
    rw [scripted.contextLineIndices, contextIndices_append, contextIndices,
      contextIndices_map_added, eq, Nat.zero_add, Nat.zero_add]
  have replaced := @replacements_of_script chunk start front before
    (dropFinalEmpty ([] :: lines)) _ (by simp [old]) eq
    (by rw [new, dropFinalEmpty_append (cons_ne_nil _ _)]) idxs (by simp)
  have gone := @filter_removedPositions_front start front before eq
    (.context [] :: lines.map .added) (by
      rw [removedPositions, removedPositions_map_added]
      simp)
  have fits : EmptyLineFits chunk ↔ ∀ line ∈ lines, line = [] := by
    rw [EmptyLineFits, old, new, idxs, length_append, length_singleton, Nat.add_sub_cancel]
    constructor
    · rintro (⟨idx, mem, empty⟩ | ⟨absent, -⟩)
      · rcases mem_append.mp mem with early | final
        · have := contextIndices_lt early
          rw [eq] at this
          omega
        cases mem_singleton.mp final
        rw [drop_left] at empty
        exact fun line mem => empty line (.tail _ mem)
      · exact absurd (mem_append_right _ (mem_singleton.mpr rfl)) (absent _)
    intro empty
    refine .inl ⟨_, mem_append_right _ (mem_singleton.mpr rfl), ?_⟩
    rw [drop_left]
    exact forall_mem_cons.mpr ⟨rfl, empty⟩
  rw [follows_iff replaced, fits, ← dropFinalEmpty_cons_eq_iff]
  rw [show (removedPositions start (before ++ .context [] :: lines.map .added)).filter
    (· < behind ⟨chunk, start, front, dropFinalEmpty chunk.newLines⟩) = _ from gone,
    removedPositions_append, removedPositions_map_added, append_nil, addedLines_append,
    addedLines_append, addedLines_map_added]
  refine (and_iff_right rfl).trans ?_
  change _ = _ ++ addedLines (lines.map .added) ↔ _
  rw [addedLines_map_added, append_right_inj]

/-- A dropped `-` line takes an empty new line with it. -/
theorem exists_other_edits (filled : chunk.oldLines ≠ []) (eq : before.filterMap old? = front)
    (new : chunk.newLines = before.filterMap new? ++ lines)
    (idxs : chunk.contextLineIndices = contextIndices 0 0 before)
    (ends : chunk.newLines.getLast? = some []) :
    ∃ y, replacements .preserveLineEndings
          ⟨chunk, start, front, dropFinalEmpty chunk.newLines⟩ = scriptEdits start 0 [] y ∧
      ¬ (removedPositions start y = removedPositions start before ∧
        addedLines y = addedLines before ++ lines) := by
  by_cases none : lines = []
  · subst none
    rw [append_nil] at new ⊢
    obtain ⟨news, split⟩ := getLast?_eq_some_iff.mp ends
    obtain ⟨kept, line, tl, rfl, last, equal⟩ :=
      exists_last removed_of_new?_eq_none (new ▸ split)
    have left : dropFinalEmpty chunk.newLines = kept.filterMap new? := by
      rw [dropFinalEmpty_of_getLast? ends, split, dropLast_concat, equal]
    cases line with
    | removed line => cases last
    | added line =>
      -- the line that is taken is an added one
      refine ⟨_, @replacements_of_script chunk start front (kept ++ tl.map .removed) [] []
        filled ?_ ?_ ?_ (by simp), ?_⟩
      · rw [← eq, filterMap_append, filterMap_append, filterMap_cons]
        rfl
      · rw [left, filterMap_append, filterMap_new?_map_removed, append_nil, append_nil]
      · rw [idxs, contextIndices_append, contextIndices_append, contextIndices,
          contextIndices_map_removed, contextIndices_map_removed, append_nil,
          append_nil]
      rintro ⟨-, ins⟩
      have count := congrArg List.length ins
      simp [addedLines, added?] at count
    | context line =>
      -- the line that is taken is a context line, which is then removed
      refine ⟨_, @replacements_of_script chunk start front
        (kept ++ .removed line :: tl.map .removed) [] [((kept.filterMap old?).length,
          (kept.filterMap new?).length)] filled ?_ ?_ ?_ ?_, ?_⟩
      · rw [← eq, filterMap_append, filterMap_append, filterMap_cons, filterMap_cons]
        rfl
      · rw [left, filterMap_append, filterMap_cons, filterMap_new?_map_removed]
        simp [new?]
      · rw [idxs, contextIndices_append, contextIndices_append, contextIndices,
          contextIndices, contextIndices_map_removed, contextIndices_map_removed, append_nil,
          Nat.zero_add, Nat.zero_add]
      · simp only [head?_cons, Option.mem_some_iff, forall_eq']
        right
        rw [filterMap_append, filterMap_cons, filterMap_new?_map_removed]
        simp [new?]
      rintro ⟨removed, -⟩
      rw [map_nil, append_nil, removedPositions_append, removedPositions_append,
        append_right_inj, removedPositions, removedPositions] at removed
      exact absurd (congrArg List.length removed) (by simp)
  have last : lines.getLast? = some [] := by
    rwa [new, getLast?_append_of_ne_nil _ none] at ends
  refine ⟨_, @replacements_of_script chunk start front before lines.dropLast [] filled eq
    (by rw [new, dropFinalEmpty_append none, dropFinalEmpty_of_getLast? last])
    (by rw [idxs, append_nil]) (by simp), ?_⟩
  rintro ⟨-, ins⟩
  rw [addedLines_append, addedLines_map_added, append_right_inj] at ins
  have count := congrArg List.length ins
  have := length_pos_of_ne_nil none
  rw [length_dropLast] at count
  omega

/-- The dropped line is a `-` line. -/
theorem follows_of_removed_iff
    (scripted : chunk.Scripted (before ++ .removed [] :: lines.map .added))
    (eq : before.filterMap old? = front) :
    Follows ⟨chunk, start, front, dropFinalEmpty chunk.newLines⟩
        (before ++ .removed [] :: lines.map .added) ↔
      EmptyLineFits chunk := by
  have old : chunk.oldLines = front ++ [[]] := by
    rw [scripted.oldLines, filterMap_append, eq, filterMap_cons, filterMap_old?_map_added]
    rfl
  have new : chunk.newLines = before.filterMap new? ++ lines := by
    rw [scripted.newLines, filterMap_append, filterMap_cons, filterMap_new?_map_added]
    rfl
  have idxs : chunk.contextLineIndices = contextIndices 0 0 before := by
    rw [scripted.contextLineIndices, contextIndices_append, contextIndices,
      contextIndices_map_added, append_nil]
  have gone := @filter_removedPositions_front start front before eq
    (.removed [] :: lines.map .added) (by
      rw [removedPositions, removedPositions_map_added]
      simp)
  have added : addedLines (before ++ .removed [] :: lines.map .added) =
      addedLines before ++ lines := by
    rw [addedLines_append]
    exact congrArg _ (addedLines_map_added lines)
  have fits : EmptyLineFits chunk ↔ chunk.newLines.getLast? ≠ some [] := by
    have absent : ∀ idx, (chunk.oldLines.length - 1, idx) ∉ chunk.contextLineIndices := by
      intro idx mem
      rw [idxs, old] at mem
      have := contextIndices_lt mem
      rw [eq] at this
      simp at this
    rw [EmptyLineFits, or_iff_right]
    · exact and_iff_right absent
    rintro ⟨idx, mem, -⟩
    exact absent idx mem
  have want : ∀ y, replacements .preserveLineEndings
        ⟨chunk, start, front, dropFinalEmpty chunk.newLines⟩ = scriptEdits start 0 [] y →
      (Follows ⟨chunk, start, front, dropFinalEmpty chunk.newLines⟩
          (before ++ .removed [] :: lines.map .added) ↔
        removedPositions start y = removedPositions start before ∧
          addedLines y = addedLines before ++ lines) := by
    intro y replaced
    rw [← added, ← gone]
    exact follows_iff replaced
  rw [fits]
  constructor
  · intro follows ends
    obtain ⟨y, replaced, differs⟩ := exists_other_edits (by simp [old]) eq new idxs ends
    exact differs ((want y replaced).mp follows)
  intro filled
  refine (want _ (@replacements_of_script chunk start front before lines [] (by simp [old])
    eq ?_ ?_ (by simp))).mpr ⟨?_, ?_⟩
  · rw [dropFinalEmpty_of_ne filled, new]
  · rw [idxs, append_nil]
  · rw [removedPositions_append, removedPositions_map_added, append_nil]
  · rw [addedLines_append, addedLines_map_added]

/-- A dropped final empty line changes nothing exactly if the line fits. -/
theorem follows_of_retried_iff (scripted : chunk.Scripted script)
    (split : chunk.oldLines = front ++ [[]]) :
    Follows ⟨chunk, start, front, dropFinalEmpty chunk.newLines⟩ script ↔ EmptyLineFits chunk := by
  obtain ⟨before, line, lines, rfl, old, eq⟩ :=
    exists_last added_of_old?_eq_none (scripted.oldLines ▸ split)
  cases line with
  | added line => cases old
  | context line =>
    cases old
    exact follows_of_context_iff scripted eq
  | removed line =>
    cases old
    exact follows_of_removed_iff scripted eq

end

open Splice

def firstEnding : Text → Option LineEnding
  | [] => none
  | '\r' :: '\n' :: _ => some .crLf
  | '\r' :: _ => some .cr
  | '\n' :: _ => some .lf
  | _ :: contents => firstEnding contents

open LineEnding

namespace SourceFile

theorem findSome?_parseLines (buf contents : Text) :
    (parseLines buf contents).findSome? (·.ending) = firstEnding contents := by
  fun_induction parseLines buf contents with
  | case1 | case2 | case3 | case5 => rfl
  | case4 buf contents single =>
    rw [firstEnding]
    · rfl
    · exact single
  | case6 buf c contents noCrLf noCr noLf ih =>
    rw [ih, firstEnding]
    · exact noCrLf
    · exact noCr
    · exact noLf

theorem flatMap_parseLines (buf contents : Text) :
    ((parseLines buf contents).flatMap fun line =>
      line.text ++ (line.ending.map text).getD []) = buf ++ contents := by
  fun_induction parseLines buf contents with
  | case1 buf empty =>
    rw [List.isEmpty_iff.mp empty]
    rfl
  | case2 buf filled => simp
  | case3 buf contents ih =>
    rw [flatMap_cons, ih]
    simp [text]
  | case4 buf contents _ ih =>
    rw [flatMap_cons, ih]
    simp [text]
  | case5 buf contents ih =>
    rw [flatMap_cons, ih]
    simp [text]
  | case6 buf c contents _ _ _ ih =>
    rw [ih, append_assoc]
    rfl

theorem intoContents_parse (contents : Text) : (parse contents).intoContents = contents :=
  flatMap_parseLines [] contents

theorem preferredEnding_parse (body : Text) :
    (parse body).preferredEnding = (firstEnding body).getD .lf := by
  rw [← findSome?_parseLines []]
  rfl

/-- A line of the file with its ending, or an inserted line with the preferred ending. -/
def rebuiltLine (file : SourceFile) : Origin Text → SourceLine
  | .kept index =>
    let line := file.lines[index]?.getD ⟨[], none⟩
    { line with ending := some (line.ending.getD file.preferredEnding) }
  | .inserted _ text => ⟨text, some file.preferredEnding⟩

def rebuiltContents (file : SourceFile) (origins : List (Origin Text)) : Text :=
  (origins.map file.rebuiltLine).flatMap fun line =>
    line.text ++ (line.ending.map LineEnding.text).getD []

theorem replaceLines_eq (ending : LineEnding) (src : List SourceLine)
    (sourceIndex : Nat) {repls : List Replacement}
    (past : ∀ repl ∈ repls.head?, sourceIndex ≤ repl.1) (ord : Ordered repls) :
    replaceLines ending src sourceIndex repls =
      rebuild src sourceIndex (repls.map (mapEdit fun txt => ⟨txt, some ending⟩)) := by
  induction repls generalizing src sourceIndex with
  | nil => rfl
  | cons repl repls ih =>
    obtain ⟨start, length, newSegment⟩ := repl
    obtain ⟨least, ord⟩ := pairwise_cons.mp ord
    have here : sourceIndex ≤ start := past _ rfl
    have next : ∀ y ∈ repls.head?, start + length ≤ y.1 := fun y fst =>
      least y (mem_of_mem_head? fst)
    have skipped : start - sourceIndex + length = start + length - sourceIndex := by omega
    rw [replaceLines, map_cons, rebuild, ih _ _ next ord, drop_drop, skipped]
    rfl

theorem intoContents_applyReplacements (file : SourceFile) {repls : List Replacement}
    (ord : Ordered repls) :
    (file.applyReplacements repls).intoContents = file.rebuiltContents
      (rebuild (keptRange 0 file.lines.length) 0 (label 0 repls)) := by
  have src : (keptRange 0 file.lines.length).map file.rebuiltLine = file.lines.map fun line =>
      { line with ending := some (line.ending.getD file.preferredEnding) } := by
    rw [keptRange, map_map]
    refine ext_getElem (by simp) fun idx _ ins => ?_
    rw [length_map] at ins
    simp [rebuiltLine, getElem?_eq_getElem ins]
  have inserts : (repls.map (mapEdit fun txt =>
        (⟨txt, some file.preferredEnding⟩ : SourceLine))).map (mapEdit fun line =>
          { line with ending := some (line.ending.getD file.preferredEnding) }) =
      (label 0 repls).map (mapEdit file.rebuiltLine) := by
    rw [map_map, map_label (g := fun txt => ⟨txt, some file.preferredEnding⟩) fun _ _ => rfl]
    refine map_congr_left fun repl _ => ?_
    simp [mapEdit]
  rw [intoContents, rebuiltContents, SourceFile.applyReplacements,
    replaceLines_eq _ _ _ (fun _ _ => Nat.zero_le _) ord, rebuild_map, rebuild_map, src,
    inserts]

end SourceFile

/-- The lines of the file in order, without the removed ones, and the inserted lines. -/
structure RebuiltFrom (count : Nat) (removed : List Nat) (inserted : List Text)
    (origins : List (Origin Text)) : Prop where
  kept : origins.filterMap Origin.index? = (List.range count).filter (· ∉ removed)
  added : (origins.filterMap Origin.item?).Perm inserted

theorem rebuiltFrom_replacements {count : Nat} {repls unsorted : List Replacement}
    (ord : Ordered repls) (bounds : ∀ repl ∈ repls, stop repl ≤ count)
    (perm : repls.Perm unsorted) :
    RebuiltFrom count (removedBy unsorted) (insertedBy unsorted)
      (rebuild (keptRange 0 count) 0 (label 0 repls)) := by
  have labelled : Ordered (label 0 repls) :=
    (pairwise_label fun _ _ _ _ => Iff.rfl).mpr ord
  have le : ∀ edit ∈ label 0 repls, stop edit ≤ count :=
    (forall_mem_label fun _ _ => Iff.rfl).mpr bounds
  constructor
  · rw [filterMap_index?_rebuild labelled (fresh_label _ _)
      fun edit mem => ⟨Nat.zero_le _, (le edit mem).trans (Nat.zero_add _).ge⟩,
      ← range_eq_range']
    refine filter_congr fun pos _ => decide_eq_decide.mpr (not_congr ?_)
    rw [removes_label, removedBy, mem_flatMap]
    constructor
    · rintro ⟨repl, mem, ins⟩
      exact ⟨repl, perm.mem_iff.mp mem, mem_range'_1.mpr ins⟩
    rintro ⟨repl, mem, ins⟩
    exact ⟨repl, perm.mem_iff.mpr mem, mem_range'_1.mp ins⟩
  have old : ∀ x ∈ (keptRange 0 count : List (Origin Text)), x.item? = none := by
    intro x mem
    obtain ⟨_, -, rfl⟩ := List.mem_map.mp mem
    rfl
  rw [filterMap_item?_rebuild _ old, flatMap_label]
  exact perm.flatMap_right _

variable {lines : List Text} {cur : Nat} {chunks : List UpdateFileChunk}
  {places : List Placement}

theorem placeChunks_preserved (ins : cur ≤ lines.length)
    (placed : placeChunks lines .preserveLineEndings cur chunks = some places) :
    places.map (·.chunk) = chunks ∧ ∀ spot ∈ places,
      (spot.pattern ≠ [] → MatchesAt lines spot.pattern spot.start) ∧
      ∀ script, spot.chunk.Scripted script → (Follows spot script ↔
        (spot.pattern ≠ spot.chunk.oldLines → EmptyLineFits spot.chunk)) := by
  induction chunks generalizing cur places with
  | nil =>
    obtain rfl := Option.some.inj placed
    exact ⟨rfl, by simp⟩
  | cons chunk chunks ih =>
    obtain ⟨behind, spot, tl, reached, fst, others, rfl⟩ := placeChunks_cons.mp placed
    obtain ⟨moved, bound⟩ := cursorBehindContext_bounds ins reached
    have place := placed_of_placeChunk fst
    obtain ⟨eq, known⟩ := ih (place.cursor_le_nextCursor bound).2 others
    refine ⟨by rw [map_cons, eq, place.chunk_eq],
      forall_mem_cons.mpr ⟨?_, known⟩⟩
    cases place with
    | insertion pure =>
      refine ⟨fun filled => absurd rfl filled, fun script scripted => ?_⟩
      exact iff_of_true (follows_of_insertion scripted pure) fun y => absurd pure.symm y
    | found filled found =>
      refine ⟨fun _ => (seekSequence_eq_some filled found).2, fun script scripted => ?_⟩
      exact iff_of_true (follows_of_found scripted filled) fun y => absurd rfl y
    | retried split missing found =>
      refine ⟨fun filled => (seekSequence_eq_some filled found).2, fun script scripted => ?_⟩
      refine (follows_of_retried_iff scripted split).trans
        ⟨fun fits _ => fits, fun fits => fits fun eq => ?_⟩
      rw [split] at eq
      exact absurd (congrArg List.length eq) (by simp)

theorem exists_scripts (scripted : ∀ spot ∈ places, ∃ script, spot.chunk.Scripted script) :
    ∃ scripts, List.Forall₂ (fun spot script => spot.chunk.Scripted script) places
      scripts := by
  induction places with
  | nil => exact ⟨[], .nil⟩
  | cons spot places ih =>
    obtain ⟨⟨script, fst⟩, others⟩ := forall_mem_cons.mp scripted
    obtain ⟨scripts, tl⟩ := ih others
    exact ⟨script :: scripts, .cons fst tl⟩

theorem forall₂_follows_iff {scripts : List (List ChunkLine)}
    (scripted : List.Forall₂ (fun spot script => spot.chunk.Scripted script) places
      scripts)
    (known : ∀ spot ∈ places, ∀ script, spot.chunk.Scripted script → (Follows spot script ↔
        (spot.pattern ≠ spot.chunk.oldLines → EmptyLineFits spot.chunk))) :
    List.Forall₂ Follows places scripts ↔ ∀ spot ∈ places,
      spot.pattern ≠ spot.chunk.oldLines → EmptyLineFits spot.chunk := by
  induction scripted with
  | nil => exact iff_of_true .nil (by simp)
  | cons fst _ ih =>
    obtain ⟨here, others⟩ := forall_mem_cons.mp known
    rw [forall₂_cons, forall_mem_cons, here _ fst, ih others]

/-- Lines that are not removed keep text and ending; inserted ones get the first ending of the file.
-/
theorem newContentsOf_preserved_iff (text : Text) (args : ApplyPatchArgs) (filePath : Text)
    (movePath : Option Text) (chunks : List UpdateFileChunk) (path contents newContents : Text)
    (parsed : parsePatch text = .ok args)
    (updates : .updateFile filePath movePath chunks ∈ args.hunks)
    (updated : newContentsOf path chunks .preserveLineEndings contents = .ok newContents) :
    (SourceFile.parse contents).intoContents = contents ∧
      (SourceFile.parse contents).preferredEnding = (firstEnding contents).getD .lf ∧
      ∃ places origins scripts,
        placeChunks (SourceFile.parse contents).lineTexts .preserveLineEndings 0 chunks =
          some places ∧
        (∀ spot ∈ places, spot.pattern ≠ [] →
          MatchesAt (SourceFile.parse contents).lineTexts spot.pattern spot.start) ∧
        newContents = (SourceFile.parse contents).rebuiltContents origins ∧
        RebuiltFrom (SourceFile.parse contents).lines.length
          (removedBy (places.flatMap (·.replacements .preserveLineEndings)))
          (insertedBy (places.flatMap (·.replacements .preserveLineEndings))) origins ∧
        places.map (·.chunk) = chunks ∧
        List.Forall₂ (fun spot script => spot.chunk.Scripted script) places
          scripts ∧
        (List.Forall₂ Follows places scripts ↔ ∀ spot ∈ places,
          spot.pattern ≠ spot.chunk.oldLines → EmptyLineFits spot.chunk) := by
  refine ⟨SourceFile.intoContents_parse contents, SourceFile.preferredEnding_parse contents, ?_⟩
  have scripted := exists_scripts_of_parsePatch parsed updates
  obtain ⟨repls, val, res⟩ := bind_eq_ok_iff.mp updated
  cases res
  obtain ⟨ordered, bounds⟩ := preserved_ordered (fun chunk mem => (scripted chunk mem).2)
    val
  obtain ⟨places, placed, sorted⟩ := computeReplacements_eq_ok val
  obtain ⟨eq, known⟩ := placeChunks_preserved (Nat.zero_le _) placed
  have perm : repls.Perm (places.flatMap (·.replacements .preserveLineEndings)) := by
    rw [sorted]
    exact perm_insertionSort _ _
  obtain ⟨scripts, all⟩ := exists_scripts fun spot mem =>
    (scripted spot.chunk (eq ▸ mem_map_of_mem mem)).2
  refine ⟨places, _, scripts, placed, fun spot mem => (known spot mem).1,
    SourceFile.intoContents_applyReplacements _ ordered, ?_, eq, all,
    forall₂_follows_iff all fun spot mem => (known spot mem).2⟩
  refine rebuiltFrom_replacements ordered ?_ perm
  rwa [SourceFile.lineTexts, length_map] at bounds

def replacingPatch : Text :=
  "*** Begin Patch\n*** Update File: f\n@@\n-a\n+b\n*** End Patch"

theorem newContentsOf_preserved_replacingPatch :
    newContentsOf "f" [{ oldLines := ["a"], newLines := ["b"] }]
        .preserveLineEndings "a\r\nc\n" = .ok "b\r\nc\n" ∧
      ∃ places scripts,
        placeChunks ["a", "c"] .preserveLineEndings 0
          [{ oldLines := ["a"], newLines := ["b"] }] = some places ∧
        List.Forall₂ Follows places scripts := by
  have updated : newContentsOf "f" [{ oldLines := ["a"], newLines := ["b"] }]
      .preserveLineEndings "a\r\nc\n" = .ok "b\r\nc\n" := by rfl
  obtain ⟨-, -, places, -, scripts, placed, -, -, -, -, -, follows⟩ :=
    newContentsOf_preserved_iff replacingPatch _ "f" none _ _ _ _ (by rfl)
      (mem_singleton.mpr rfl) updated
  refine ⟨updated, places, scripts, placed, follows.mpr ?_⟩
  cases placed
  exact forall_mem_singleton.mpr fun y => absurd rfl y

def keepingPatch : Text :=
  "*** Begin Patch\n*** Update File: f\n@@\n a\n \n-b\n-\n*** End Patch"

def keepingChunk : UpdateFileChunk :=
  { oldLines := ["a", [], "b", []], newLines := ["a", []],
    contextLineIndices := [(0, 0), (1, 1)] }

/-- The empty context line is removed from the file. -/
theorem newContentsOf_removes_context : (∃ args, parsePatch keepingPatch = .ok args ∧
        args.hunks = [.updateFile "f" none [keepingChunk]]) ∧
      newContentsOf "f" [keepingChunk] .preserveLineEndings "a\n\nb\n" =
        .ok "a\n" ∧
      ∃ spot, placeChunks ["a", [], "b"] .preserveLineEndings 0 [keepingChunk] = some [spot] ∧
        ∀ script, keepingChunk.Scripted script → ¬ Follows spot script := by
  refine ⟨⟨_, rfl, rfl⟩, rfl, ⟨keepingChunk, 0, _, _⟩, rfl, fun script scripted follows => ?_⟩
  rcases (follows_of_retried_iff scripted rfl).mp follows with ⟨idx, mem, -⟩ | ⟨-, y⟩
  · simp [keepingChunk] at mem
  · exact y rfl

end Codex.ApplyPatch
