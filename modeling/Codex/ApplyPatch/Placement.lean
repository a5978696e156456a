import Codex.ApplyPatch.HunkShape
import Codex.Foundation.Splice
import Codex.ApplyPatch.FileUpdate

/-!
# Where the chunks of an update are placed

Chunks are placed one after the other behind a cursor.
-/

namespace Codex.ApplyPatch

open List Option

def lineViews : List (Text → Text) := [id, Text.trimEnd, Text.trim, normalise]

/-- The pattern matches there in one of the views of a line. -/
def MatchesAt (lines pat : List Text) (index : Nat) : Prop :=
  ∃ view ∈ lineViews, ((lines.drop index).take pat.length).map view = pat.map view

section

variable {lines pat : List Text} {fst last start index : Nat} {view : Text → Text}
  {eof : Bool} {mode : ApplyPatchFileUpdateMode}

theorem MatchesAt.bound (hit : MatchesAt lines pat index) (filled : pat ≠ []) :
    index + pat.length ≤ lines.length := by
  obtain ⟨view, -, eq⟩ := hit
  have count := congrArg List.length eq
  rw [length_map, length_map, length_take, length_drop] at count
  have := length_pos_of_ne_nil filled
  omega

theorem seekView_eq_some (hit : seekView view lines pat fst last = some index) :
    fst ≤ index ∧ index ≤ last ∧ ((lines.drop index).take pat.length).map view = pat.map view := by
  rw [seekView] at hit
  have inRange := mem_range'_1.mp (mem_of_find?_eq_some hit)
  have eq := find?_some hit
  exact ⟨inRange.1, by omega, beq_iff_eq.mp eq⟩

theorem seekView_eq_none (missing : seekView view lines pat fst last = none)
    (early : fst ≤ index) (late : index ≤ last) :
    ((lines.drop index).take pat.length).map view ≠ pat.map view := by
  have differs := find?_eq_none.mp missing index (mem_range'_1.mpr ⟨early, by omega⟩)
  exact fun eq => differs (beq_iff_eq.mpr eq)

theorem seekSequence_eq (filled : pat ≠ []) (short : pat.length ≤ lines.length) :
    seekSequence lines pat start eof mode = lineViews.findSome? fun view =>
      seekView view lines pat (searchStart lines pat start eof mode)
        (lines.length - pat.length) := by
  rw [seekSequence, if_neg (by simpa using filled), if_neg (by omega)]
  simp only [lineViews, findSome?_cons, findSome?_nil]
  cases seekView id lines pat _ _ <;> cases seekView Text.trimEnd lines pat _ _ <;>
    cases seekView Text.trim lines pat _ _ <;> cases seekView normalise lines pat _ _ <;> rfl

theorem seekSequence_eq_some (filled : pat ≠ [])
    (hit : seekSequence lines pat start eof mode = some index) :
    searchStart lines pat start eof mode ≤ index ∧ MatchesAt lines pat index := by
  by_cases short : pat.length ≤ lines.length
  · rw [seekSequence_eq filled short] at hit
    obtain ⟨view, tried, hit⟩ := exists_of_findSome?_eq_some hit
    obtain ⟨early, -, eq⟩ := seekView_eq_some hit
    exact ⟨early, view, tried, eq⟩
  rw [seekSequence, if_neg (by simpa using filled), if_pos (by omega)] at hit
  cases hit

theorem seekSequence_isSome (filled : pat ≠ []) (hit : MatchesAt lines pat index)
    (early : searchStart lines pat start eof mode ≤ index) :
    (seekSequence lines pat start eof mode).isSome = true := by
  have bound := hit.bound filled
  obtain ⟨view, tried, eq⟩ := hit
  rw [seekSequence_eq filled (by omega), findSome?_isSome_iff]
  refine ⟨view, tried, isSome_iff_ne_none.mpr fun missing => ?_⟩
  exact seekView_eq_none missing early (by omega) eq

/-- Without an anchor a search starts at `start`, and so it never finds anything before. -/
theorem start_le_of_seekSequence (hit : seekSequence lines pat start eof mode = some index)
    (forward : eof = false ∨ mode = .preserveLineEndings) : start ≤ index := by
  by_cases filled : pat = []
  · rw [seekSequence, if_pos (by simpa using filled)] at hit
    exact (some.inj hit).le
  refine le_trans ?_ (seekSequence_eq_some filled hit).1
  rcases forward with rfl | rfl
  · exact le_rfl
  rw [searchStart]
  split
  · exact le_max_right _ _
  · exact le_rfl

theorem searchStart_eof (short : pat.length ≤ lines.length) :
    searchStart lines pat start true mode =
      if mode = .normalizeToLf then lines.length - pat.length
      else max (lines.length - pat.length) start := by
  cases mode
  · rw [searchStart, if_pos (by simpa using short), if_pos rfl]
  · rw [searchStart, if_pos (by simpa using short), if_neg (by decide)]

theorem seekSequence_eof_eq_some_iff (filled : pat ≠ []) :
    seekSequence lines pat start true mode = some index ↔
      index = lines.length - pat.length ∧ MatchesAt lines pat index ∧
        (mode = .preserveLineEndings → start ≤ index) := by
  constructor
  · intro hit
    obtain ⟨early, matched⟩ := seekSequence_eq_some filled hit
    have bound := matched.bound filled
    have late : lines.length - pat.length ≤ index := by
      rw [searchStart_eof (by omega)] at early
      split at early
      · exact early
      · exact le_trans (le_max_left _ _) early
    exact ⟨by omega, matched, fun keeps => start_le_of_seekSequence hit (.inr keeps)⟩
  rintro ⟨rfl, matched, forward⟩
  have bound := matched.bound filled
  have early : searchStart lines pat start true mode ≤ lines.length - pat.length := by
    rw [searchStart_eof (by omega)]
    cases mode
    · exact le_rfl
    · exact max_le le_rfl (forward rfl)
  obtain ⟨hit, seeks⟩ := isSome_iff_exists.mp (seekSequence_isSome filled matched early)
  obtain ⟨late, y⟩ := seekSequence_eq_some filled seeks
  have := y.bound filled
  have least : lines.length - pat.length ≤ searchStart lines pat start true mode := by
    rw [searchStart_eof (by omega)]
    split
    · exact le_rfl
    · exact le_max_left _ _
  rw [seeks, show hit = lines.length - pat.length by omega]

/-- The anchored search is right exactly if it needs no fallback and checks that the end is not
before `start`. -/
theorem seekSequence_eof_complete_iff (lines pat : List Text) (start : Nat)
    (mode : ApplyPatchFileUpdateMode) (filled : pat ≠ []) :
    ((start ≤ lines.length - pat.length → MatchesAt lines pat (lines.length - pat.length) →
          seekSequence lines pat start true mode = some (lines.length - pat.length)) ∧
        (∀ index, start ≤ index → MatchesAt lines pat index →
          (seekSequence lines pat start true mode).isSome = true) ∧
        (∀ index, seekSequence lines pat start true mode = some index → start ≤ index)) ↔
      (∀ index, start ≤ index → MatchesAt lines pat index →
          MatchesAt lines pat (lines.length - pat.length)) ∧
        (mode = .normalizeToLf → MatchesAt lines pat (lines.length - pat.length) →
          start ≤ lines.length - pat.length) := by
  constructor
  · rintro ⟨-, complete, later⟩
    constructor
    · intro index early matched
      obtain ⟨hit, seeks⟩ := isSome_iff_exists.mp (complete index early matched)
      obtain ⟨rfl, atEnd, -⟩ := (seekSequence_eof_eq_some_iff filled).mp seeks
      exact atEnd
    rintro rfl atEnd
    exact later _ ((seekSequence_eof_eq_some_iff filled).mpr ⟨rfl, atEnd, nofun⟩)
  rintro ⟨unneeded, past⟩
  refine ⟨fun early atEnd => ?_, fun index early matched => ?_, fun index hit => ?_⟩
  · exact (seekSequence_eof_eq_some_iff filled).mpr ⟨rfl, atEnd, fun _ => early⟩
  · have bound := matched.bound filled
    have seeks : seekSequence lines pat start true mode = some (lines.length - pat.length) :=
      (seekSequence_eof_eq_some_iff filled).mpr
        ⟨rfl, unneeded index early matched, fun _ => by omega⟩
    rw [seeks]
    rfl
  obtain ⟨rfl, atEnd, forward⟩ := (seekSequence_eof_eq_some_iff filled).mp hit
  cases mode
  · exact past rfl atEnd
  · exact forward rfl

theorem seekSequence_eof_complete_end :
    ((1 ≤ 1 → MatchesAt ["a", "b"] ["b"] 1 →
          seekSequence ["a", "b"] ["b"] 1 true .normalizeToLf = some 1) ∧
        (∀ index, 1 ≤ index → MatchesAt ["a", "b"] ["b"] index →
          (seekSequence ["a", "b"] ["b"] 1 true .normalizeToLf).isSome =
            true) ∧
        ∀ index, seekSequence ["a", "b"] ["b"] 1 true .normalizeToLf =
          some index → 1 ≤ index) :=
  (seekSequence_eof_complete_iff ["a", "b"] ["b"] 1 .normalizeToLf
    (by decide)).mpr ⟨fun _ _ _ => ⟨id, by simp [lineViews], by decide⟩, fun _ _ => le_rfl⟩

/-- A match from `start` on is missed, and one at the end of the file is found before `start`. -/
theorem seekSequence_eof_misses :
    (MatchesAt ["a", "b"] ["a"] 0 ∧
      ∀ mode, seekSequence ["a", "b"] ["a"] 0 true mode = none) ∧
    seekSequence ["a"] ["a"] 1 true .normalizeToLf = some 0 := by
  refine ⟨⟨⟨id, by simp [lineViews], by decide⟩, fun mode => ?_⟩, by decide⟩
  cases mode
  all_goals decide

end

open Splice (Ordered stop)

structure Placement where
  chunk : UpdateFileChunk
  start : Nat
  pattern : List Text
  newSlice : List Text

namespace Placement

def behind (spot : Placement) : Nat := spot.start + spot.pattern.length

def nextCursor (spot : Placement) (cur : Nat) : Nat :=
  if spot.chunk.oldLines.isEmpty then cur else spot.behind

def replacements (mode : ApplyPatchFileUpdateMode) (spot : Placement) : List Replacement :=
  if spot.chunk.oldLines.isEmpty then [(spot.start, 0, spot.newSlice)]
  else match mode with
    | .normalizeToLf => [(spot.start, spot.pattern.length, spot.newSlice)]
    | .preserveLineEndings => contextReplacements spot.start spot.pattern
        spot.newSlice 0 0 spot.chunk.contextLineIndices

end Placement

section

variable (lines : List Text) (mode : ApplyPatchFileUpdateMode)

def cursorBehindContext (cur : Nat) (chunk : UpdateFileChunk) : Option Nat :=
  match chunk.changeContext with
  | none => some cur
  | some contextLine => (seekSequence lines [contextLine] cur false mode).map (· + 1)

def placeChunk (cur : Nat) (chunk : UpdateFileChunk) : Option Placement :=
  if chunk.oldLines.isEmpty then some ⟨chunk, insertionIndex lines mode, [], chunk.newLines⟩
  else (locateChunk lines cur mode chunk).map fun place => ⟨chunk, place.1, place.2.1, place.2.2⟩

def placeChunks (cur : Nat) : List UpdateFileChunk → Option (List Placement)
  | [] => some []
  | chunk :: chunks => do
      let cur ← cursorBehindContext lines mode cur chunk
      let spot ← placeChunk lines mode cur chunk
      let places ← placeChunks (spot.nextCursor cur) chunks
      return spot :: places

end

variable {lines : List Text} {path : Text} {mode : ApplyPatchFileUpdateMode} {cur next : Nat}
  {chunk : UpdateFileChunk} {chunks : List UpdateFileChunk} {spot : Placement}
  {places : List Placement} {replacements : List Replacement}

theorem placeChunks_cons : placeChunks lines mode cur (chunk :: chunks) = some places ↔
    ∃ behind spot rest, cursorBehindContext lines mode cur chunk = some behind ∧
      placeChunk lines mode behind chunk = some spot ∧
      placeChunks lines mode (spot.nextCursor behind) chunks = some rest ∧
      places = spot :: rest := by
  rw [placeChunks]
  simp only [bind, bind_eq_some_iff, pure, Option.some.injEq]
  constructor
  · rintro ⟨behind, ctx, spot, placed, rest, others, rfl⟩
    exact ⟨behind, spot, rest, ctx, placed, others, rfl⟩
  rintro ⟨behind, spot, rest, ctx, placed, others, rfl⟩
  exact ⟨behind, ctx, spot, placed, rest, others, rfl⟩

def placeReplacements (lines : List Text) (path : Text) (mode : ApplyPatchFileUpdateMode)
    (behind : Nat) (chunk : UpdateFileChunk) : Except ApplyPatchError (Nat × List Replacement) :=
  match placeChunk lines mode behind chunk with
  | none => .error (.computeReplacements (linesNotFoundMessage path chunk.oldLines))
  | some spot => .ok (spot.nextCursor behind, spot.replacements mode)

theorem chunkReplacements_eq : chunkReplacements lines path mode cur chunk =
    (cursorBehindContext lines mode cur chunk).elim
      (.error (.computeReplacements (contextNotFoundMessage (chunk.changeContext.getD []) path)))
      fun behind => placeReplacements lines path mode behind chunk := by
  -- Behind its context line a chunk is placed like one without.
  have place : ∀ behind, chunkReplacements lines path mode behind
      { chunk with changeContext := none } = placeReplacements lines path mode behind chunk := by
    intro behind
    rw [placeReplacements, placeChunk]
    unfold chunkReplacements
    have eq : locateChunk lines behind mode { chunk with changeContext := none } =
        locateChunk lines behind mode chunk := rfl
    by_cases pure : chunk.oldLines.isEmpty = true
    · simp only [if_pos pure, Placement.nextCursor, Placement.replacements]
      rfl
    simp only [if_neg pure, pure_bind, eq]
    cases locateChunk lines behind mode chunk with
    | none => rfl
    | some place =>
      simp only [map_some, Placement.nextCursor, Placement.replacements, if_neg pure]
      cases mode <;> rfl
  rw [cursorBehindContext]
  unfold chunkReplacements
  cases chunk.changeContext with
  | none => exact place cur
  | some contextLine =>
    dsimp only
    cases seekSequence lines [contextLine] cur false mode with
    | none => rfl
    | some idx => exact place (idx + 1)

theorem chunkReplacements_eq_ok (val :
    chunkReplacements lines path mode cur chunk = .ok (next, replacements)) :
    ∃ behind spot, cursorBehindContext lines mode cur chunk = some behind ∧
      placeChunk lines mode behind chunk = some spot ∧
      next = spot.nextCursor behind ∧ replacements = spot.replacements mode := by
  rw [chunkReplacements_eq] at val
  cases reached : cursorBehindContext lines mode cur chunk with
  | none =>
    rw [reached] at val
    cases val
  | some behind =>
    rw [reached] at val
    change placeReplacements lines path mode behind chunk = _ at val
    rw [placeReplacements] at val
    cases placed : placeChunk lines mode behind chunk with
    | none =>
      rw [placed] at val
      cases val
    | some spot =>
      rw [placed] at val
      obtain ⟨rfl, rfl⟩ := Prod.mk.inj (Except.ok.inj val)
      exact ⟨behind, spot, rfl, placed, rfl, rfl⟩

theorem placeChunks_of_foldlM {pre all : List Replacement} {last : Nat} (folded :
    chunks.foldlM (fun (st : Nat × List Replacement) chunk => do
      let (cur, more) ← chunkReplacements lines path mode st.1 chunk
      return (cur, st.2 ++ more)) (cur, pre) = .ok (last, all)) :
    ∃ places, placeChunks lines mode cur chunks = some places ∧
      all = pre ++ places.flatMap (·.replacements mode) := by
  induction chunks generalizing cur pre with
  | nil =>
    obtain ⟨-, rfl⟩ := Prod.mk.inj (Except.ok.inj folded)
    exact ⟨[], rfl, (append_nil _).symm⟩
  | cons chunk chunks ih =>
    rw [foldlM_cons, bind_eq_ok_iff] at folded
    obtain ⟨st, fst, tl⟩ := folded
    obtain ⟨⟨next, more⟩, val, out⟩ := bind_eq_ok_iff.mp fst
    cases out
    obtain ⟨behind, spot, ctx, placed, rfl, rfl⟩ := chunkReplacements_eq_ok val
    obtain ⟨places, others, rfl⟩ := ih tl
    exact ⟨spot :: places, placeChunks_cons.mpr
      ⟨behind, spot, places, ctx, placed, others, rfl⟩, by
        rw [flatMap_cons, append_assoc]⟩

theorem computeReplacements_eq_ok (val :
    computeReplacements lines path chunks mode = .ok replacements) :
    ∃ places, placeChunks lines mode 0 chunks = some places ∧
      replacements = (places.flatMap (·.replacements mode)).insertionSort
        (fun left right => left.1 ≤ right.1) := by
  rw [computeReplacements, bind_eq_ok_iff] at val
  obtain ⟨⟨last, all⟩, folded, ord⟩ := val
  cases ord
  obtain ⟨places, placed, eq⟩ := placeChunks_of_foldlM folded
  exact ⟨places, placed, by rw [eq, nil_append]⟩

inductive Placed (lines : List Text) (mode : ApplyPatchFileUpdateMode) (cur : Nat)
    (chunk : UpdateFileChunk) : Placement → Prop
  | insertion : chunk.oldLines = [] →
      Placed lines mode cur chunk ⟨chunk, insertionIndex lines mode, [], chunk.newLines⟩
  | found {start} : chunk.oldLines ≠ [] →
      seekSequence lines chunk.oldLines cur chunk.isEndOfFile mode = some start →
      Placed lines mode cur chunk ⟨chunk, start, chunk.oldLines, chunk.newLines⟩
  | retried {start} {front} : chunk.oldLines = front ++ [[]] →
      seekSequence lines chunk.oldLines cur chunk.isEndOfFile mode = none →
      seekSequence lines front cur chunk.isEndOfFile mode = some start →
      Placed lines mode cur chunk ⟨chunk, start, front, dropFinalEmpty chunk.newLines⟩

theorem exists_of_final_empty (ends : lines.getLast?.any (·.isEmpty) = true) :
    ∃ front, lines = front ++ [[]] := by
  rcases eq_nil_or_concat lines with rfl | ⟨front, last, rfl⟩
  · cases ends
  rw [concat_eq_append, getLast?_concat] at ends
  exact ⟨front, by rw [concat_eq_append, List.isEmpty_iff.mp ends]⟩

theorem placed_of_placeChunk (placed : placeChunk lines mode cur chunk = some spot) :
    Placed lines mode cur chunk spot := by
  rw [placeChunk] at placed
  split at placed
  · rename_i pure
    obtain rfl := some.inj placed
    exact .insertion (List.isEmpty_iff.mp pure)
  rename_i impure
  obtain ⟨⟨start, pattern, newSlice⟩, located, rfl⟩ := map_eq_some_iff.mp placed
  rw [locateChunk] at located
  split at located
  · rename_i hit
    cases located
    exact .found (by simpa using impure) hit
  rename_i missing
  split at located
  · rename_i ends
    obtain ⟨idx, hit, eq⟩ := map_eq_some_iff.mp located
    cases eq
    obtain ⟨front, split⟩ := exists_of_final_empty ends
    rw [split, dropLast_concat] at hit ⊢
    exact .retried split missing hit
  · cases located

variable {pattern : List Text} {start oldStart newStart : Nat} {newSlice : List Text}

theorem seekSequence_bounds {eof : Bool} (ins : cur ≤ lines.length)
    (hit : seekSequence lines pattern cur eof mode = some start) :
    start + pattern.length ≤ lines.length ∧ (cur ≤ start ∨ mode = .normalizeToLf ∧
      eof = true ∧ pattern ≠ [] ∧ start + pattern.length = lines.length) := by
  by_cases filled : pattern = []
  · subst filled
    obtain rfl : cur = start := some.inj hit
    exact ⟨ins, .inl le_rfl⟩
  obtain ⟨early, matched⟩ := seekSequence_eq_some filled hit
  have bound := matched.bound filled
  refine ⟨bound, ?_⟩
  cases eof with
  | false => exact .inl early
  | true =>
    cases mode with
    | preserveLineEndings => exact .inl (start_le_of_seekSequence hit (.inr rfl))
    | normalizeToLf =>
      obtain ⟨rfl, -, -⟩ := (seekSequence_eof_eq_some_iff filled).mp hit
      exact .inr ⟨rfl, rfl, filled, by omega⟩

theorem insertionIndex_le : insertionIndex lines mode ≤ lines.length := by
  cases mode with
  | normalizeToLf =>
    rw [insertionIndex]
    split <;> omega
  | preserveLineEndings => exact le_rfl

theorem cursorBehindContext_bounds (ins : cur ≤ lines.length)
    (reached : cursorBehindContext lines mode cur chunk = some next) :
    cur ≤ next ∧ next ≤ lines.length := by
  rw [cursorBehindContext] at reached
  cases line : chunk.changeContext with
  | none =>
    rw [line] at reached
    obtain rfl := some.inj reached
    exact ⟨le_rfl, ins⟩
  | some contextLine =>
    rw [line] at reached
    obtain ⟨idx, hit, rfl⟩ := map_eq_some_iff.mp reached
    obtain ⟨bound, early | ⟨-, never, -⟩⟩ := seekSequence_bounds ins hit
    · exact ⟨by omega, bound⟩
    · cases never

namespace Placed

section

variable (placed : Placed lines mode cur chunk spot)
include placed

theorem chunk_eq : spot.chunk = chunk := by
  cases placed <;> rfl

theorem behind_le (ins : cur ≤ lines.length) : spot.behind ≤ lines.length := by
  cases placed with
  | insertion => exact insertionIndex_le
  | found _ found => exact (seekSequence_bounds ins found).1
  | retried _ _ found => exact (seekSequence_bounds ins found).1

theorem start_cases (ins : cur ≤ lines.length) (filled : chunk.oldLines ≠ []) :
    cur ≤ spot.start ∨ mode = .normalizeToLf ∧ chunk.isEndOfFile = true ∧
      spot.pattern ≠ [] ∧ spot.behind = lines.length := by
  cases placed with
  | insertion empty => exact absurd empty filled
  | found _ found => exact (seekSequence_bounds ins found).2
  | retried _ _ found => exact (seekSequence_bounds ins found).2

theorem cursor_le_nextCursor (ins : cur ≤ lines.length) :
    cur ≤ spot.nextCursor cur ∧ spot.nextCursor cur ≤ lines.length := by
  rw [Placement.nextCursor, placed.chunk_eq]
  split
  · exact ⟨le_rfl, ins⟩
  rename_i filled
  refine ⟨?_, placed.behind_le ins⟩
  rcases placed.start_cases ins (by simpa using filled) with early | ⟨-, -, -, atEnd⟩
  · exact early.trans (Nat.le_add_right _ _)
  rw [atEnd]
  exact ins

end

end Placed

theorem finish_ordered (ins : oldStart ≤ pattern.length) :
    Ordered (contextReplacements.finish start pattern newSlice oldStart newStart) ∧
      ∀ repl ∈ contextReplacements.finish start pattern newSlice oldStart newStart,
        start + oldStart ≤ repl.1 ∧ stop repl ≤ start + pattern.length := by
  rw [contextReplacements.finish]
  split
  · refine ⟨pairwise_singleton _ _, forall_mem_singleton.mpr ⟨le_rfl, ?_⟩⟩
    change start + oldStart + (pattern.length - oldStart) ≤ _
    omega
  · exact ⟨.nil, by simp⟩

theorem contextReplacements_ordered {idxs : List (Nat × Nat)} (ins : oldStart ≤ pattern.length)
    (mono : idxs.Pairwise fun fst snd => fst.1 < snd.1)
    (behind : ∀ pair ∈ idxs, oldStart ≤ pair.1) :
    Ordered (contextReplacements start pattern newSlice oldStart newStart idxs) ∧
      ∀ repl ∈ contextReplacements start pattern newSlice oldStart newStart idxs,
        start + oldStart ≤ repl.1 ∧ stop repl ≤ start + pattern.length := by
  induction idxs generalizing oldStart newStart with
  | nil => exact finish_ordered ins
  | cons pair idxs ih =>
    obtain ⟨oldContext, newContext⟩ := pair
    obtain ⟨least, mono⟩ := pairwise_cons.mp mono
    have here : oldStart ≤ oldContext := behind _ mem_cons_self
    rw [contextReplacements]
    split
    · exact finish_ordered ins
    rename_i known
    push Not at known
    obtain ⟨ord, le⟩ := @ih (oldContext + 1) (newContext + 1) known.1
      mono least
    constructor
    · refine pairwise_append.mpr ⟨?_, ord, fun fst mem snd later => ?_⟩
      · split
        · exact pairwise_singleton _ _
        · exact .nil
      split at mem
      · rw [mem_singleton.mp mem]
        change start + oldStart + (oldContext - oldStart) ≤ _
        have := (le snd later).1
        omega
      · cases mem
    refine forall_mem_append.mpr ⟨fun repl mem => ?_, fun repl mem => ?_⟩
    · split at mem
      · rw [mem_singleton.mp mem]
        refine ⟨le_rfl, ?_⟩
        change start + oldStart + (oldContext - oldStart) ≤ _
        omega
      · cases mem
    obtain ⟨early, late⟩ := le repl mem
    exact ⟨by omega, late⟩

theorem contextIndices_increasing (old new : Nat) (script : List ChunkLine) :
    (contextIndices old new script).Pairwise (fun fst snd => fst.1 < snd.1) ∧
      ∀ pair ∈ contextIndices old new script, old ≤ pair.1 := by
  induction script generalizing old new with
  | nil => exact ⟨.nil, by simp [contextIndices]⟩
  | cons line script ih =>
    cases line with
    | context line =>
      obtain ⟨mono, least⟩ := ih (old + 1) (new + 1)
      exact ⟨pairwise_cons.mpr ⟨least, mono⟩, forall_mem_cons.mpr
        ⟨le_rfl, fun pair mem => (Nat.le_succ old).trans (least pair mem)⟩⟩
    | added line => exact ih old (new + 1)
    | removed line =>
      obtain ⟨mono, least⟩ := ih (old + 1) new
      exact ⟨mono, fun pair mem => (Nat.le_succ old).trans (least pair mem)⟩

theorem Placement.replacements_of_pure (pure : spot.chunk.oldLines.isEmpty = true) :
    spot.replacements mode = [(spot.start, 0, spot.newSlice)] :=
  if_pos pure

theorem Placement.replacements_of_impure (impure : ¬ spot.chunk.oldLines.isEmpty = true) :
    spot.replacements mode = match mode with
      | .normalizeToLf => [(spot.start, spot.pattern.length, spot.newSlice)]
      | .preserveLineEndings => contextReplacements spot.start spot.pattern
          spot.newSlice 0 0 spot.chunk.contextLineIndices :=
  if_neg impure

theorem Placement.replacements_ordered {script : List ChunkLine}
    (scripted : spot.chunk.Scripted script) (mode : ApplyPatchFileUpdateMode) :
    Ordered (spot.replacements mode) ∧ ∀ repl ∈ spot.replacements mode,
      spot.start ≤ repl.1 ∧ stop repl ≤ spot.behind := by
  by_cases pure : spot.chunk.oldLines.isEmpty = true
  · rw [Placement.replacements_of_pure pure]
    exact ⟨pairwise_singleton _ _, forall_mem_singleton.mpr ⟨le_rfl, Nat.le_add_right _ _⟩⟩
  rw [Placement.replacements_of_impure pure]
  cases mode with
  | normalizeToLf =>
    exact ⟨pairwise_singleton _ _, forall_mem_singleton.mpr ⟨le_rfl, le_rfl⟩⟩
  | preserveLineEndings =>
    obtain ⟨mono, least⟩ := contextIndices_increasing 0 0 script
    rw [← scripted.contextLineIndices] at mono least
    exact contextReplacements_ordered (Nat.zero_le _) mono least

/-- What comes later is placed later, except for insertions at the end of the file. -/
theorem preserved_replacements (ins : cur ≤ lines.length)
    (scripted : ∀ chunk ∈ chunks, ∃ script, chunk.Scripted script)
    (placed : placeChunks lines .preserveLineEndings cur chunks = some places) :
    ((places.flatMap (·.replacements .preserveLineEndings)).Pairwise fun fst snd =>
        stop fst ≤ snd.1 ∨ fst.1 = lines.length ∧ fst.2.1 = 0) ∧
      ∀ repl ∈ places.flatMap (·.replacements .preserveLineEndings),
        cur ≤ repl.1 ∧ stop repl ≤ lines.length := by
  induction chunks generalizing cur places with
  | nil =>
    obtain rfl := some.inj placed
    exact ⟨.nil, by simp⟩
  | cons chunk chunks ih =>
    obtain ⟨behind, spot, tl, reached, fst, others, rfl⟩ := placeChunks_cons.mp placed
    obtain ⟨⟨script, read⟩, scripted⟩ := forall_mem_cons.mp scripted
    obtain ⟨moved, bound⟩ := cursorBehindContext_bounds ins reached
    have place := placed_of_placeChunk fst
    rw [← place.chunk_eq] at read
    obtain ⟨forward, next⟩ := place.cursor_le_nextCursor bound
    obtain ⟨pairs, within⟩ := ih next scripted others
    obtain ⟨ord, own⟩ := Placement.replacements_ordered read .preserveLineEndings
    have atEnd := place.behind_le bound
    rw [flatMap_cons, pairwise_append, forall_mem_append]
    by_cases pure : spot.chunk.oldLines.isEmpty = true
    · have here : spot.start = lines.length := by
        cases place with
        | insertion => rfl
        | found filled => exact absurd (List.isEmpty_iff.mp pure) filled
        | retried split => simp [split] at pure
      rw [Placement.nextCursor, if_pos pure] at within
      rw [Placement.replacements_of_pure pure]
      refine ⟨⟨pairwise_singleton _ _, pairs, ?_⟩, ?_, fun repl mem => ?_⟩
      · exact forall_mem_singleton.mpr fun _ _ => .inr ⟨here, rfl⟩
      · exact forall_mem_singleton.mpr ⟨here ▸ ins, here.le⟩
      obtain ⟨early, late⟩ := within repl mem
      exact ⟨moved.trans early, late⟩
    have early : behind ≤ spot.start := by
      rcases place.start_cases bound (by simpa [place.chunk_eq] using pure) with
        early | ⟨never, -⟩
      · exact early
      · cases never
    rw [Placement.nextCursor, if_neg pure] at within
    refine ⟨⟨ord.imp .inl, pairs, fun one mem y later => ?_⟩,
      fun repl mem => ?_, fun repl mem => ?_⟩
    · exact .inl ((own one mem).2.trans (within y later).1)
    · obtain ⟨starts, ends⟩ := own repl mem
      exact ⟨moved.trans (early.trans starts), ends.trans atEnd⟩
    obtain ⟨starts, ends⟩ := within repl mem
    exact ⟨(moved.trans (early.trans (Nat.le_add_right _ _))).trans starts, ends⟩

instance : Std.Total (fun left right : Replacement => left.1 ≤ right.1) where
  total left right := Nat.le_total left.1 right.1

instance : IsTrans Replacement (fun left right => left.1 ≤ right.1) where
  trans _ _ _ := Nat.le_trans

theorem sorted_insertionSort (replacements : List Replacement) :
    (replacements.insertionSort fun left right => left.1 ≤ right.1).Pairwise
      fun left right => left.1 ≤ right.1 :=
  pairwise_insertionSort _ _

theorem preserved_ordered (scripted : ∀ chunk ∈ chunks, ∃ script, chunk.Scripted script)
    (val : computeReplacements lines path chunks .preserveLineEndings = .ok replacements) :
    Ordered replacements ∧ ∀ repl ∈ replacements, stop repl ≤ lines.length := by
  obtain ⟨places, placed, rfl⟩ := computeReplacements_eq_ok val
  obtain ⟨pairs, le⟩ := preserved_replacements (Nat.zero_le _) scripted placed
  constructor
  · refine Splice.pairwise_insertionSort_iff.mpr ?_
    refine List.Pairwise.imp_of_mem ?_ pairs
    intro fst snd _ later case
    constructor
    · intro ord
      rcases case with behind | ⟨atEnd, nothing⟩
      · exact behind
      · rwa [stop, nothing, Nat.add_zero]
    intro unsorted
    rcases case with behind | ⟨atEnd, nothing⟩
    · exact absurd (le_trans (Nat.le_add_right _ _) behind) unsorted
    rw [atEnd]
    exact (le snd later).2
  exact fun repl mem =>
    (le repl ((mem_insertionSort _).mp mem)).2

def sourceIndexBehind (replacements : List Replacement) : Nat :=
  replacements.foldl (fun _ repl => repl.1 + repl.2.1) 0

theorem sourceIndexBehind_le {front back : List Replacement} {repl : Replacement}
    (ord : Ordered (front ++ repl :: back)) : sourceIndexBehind front ≤ repl.1 := by
  rcases eq_nil_or_concat front with rfl | ⟨pre, last, rfl⟩
  · exact Nat.zero_le _
  rw [concat_eq_append] at ord ⊢
  have behind := (pairwise_append.mp ord).2.2 last (by simp) repl (by simp)
  rw [sourceIndexBehind, foldl_append]
  exact behind

/-- The replacements are sorted, within the file and disjoint, and the rebuild is never behind the
next. -/
theorem computeReplacements_preserved_disjoint (text : Text) (args : ApplyPatchArgs)
    (filePath : Text) (movePath : Option Text) (chunks : List UpdateFileChunk)
    (originalLines : List Text) (path : Text) (replacements : List Replacement)
    (parsed : parsePatch text = .ok args)
    (updates : .updateFile filePath movePath chunks ∈ args.hunks)
    (value : computeReplacements originalLines path chunks .preserveLineEndings =
      .ok replacements) :
    (replacements.Pairwise fun left right => left.1 ≤ right.1) ∧
      (∀ repl ∈ replacements, repl.1 + repl.2.1 ≤ originalLines.length) ∧
      (replacements.Pairwise fun left right => left.1 + left.2.1 ≤ right.1) ∧
      ∀ front repl back, replacements = front ++ repl :: back →
        sourceIndexBehind front ≤ repl.1 := by
  have scripted := exists_scripts_of_parsePatch parsed updates
  obtain ⟨ordered, within⟩ := preserved_ordered (fun chunk mem => (scripted chunk mem).2)
    value
  refine ⟨ordered.imp (le_trans (Nat.le_add_right _ _)), within, ordered, ?_⟩
  rintro front repl back rfl
  exact sourceIndexBehind_le ordered

def appendingPatch : Text :=
  "*** Begin Patch\n*** Update File: f\n@@\n+z\n@@\n-a\n+b\n*** End Patch"

theorem computeReplacements_preserved_disjoint_appendingPatch :
    computeReplacements ["a", "c"] "f"
        [{ newLines := ["z"] }, { oldLines := ["a"], newLines := ["b"] }]
        .preserveLineEndings =
      .ok [(0, 1, ["b"]), (2, 0, ["z"])] ∧
    ([(0, 1, ["b"]), (2, 0, ["z"])] : List Replacement).Pairwise
      fun left right => left.1 + left.2.1 ≤ right.1 := by
  have val : computeReplacements ["a", "c"] "f"
      [{ newLines := ["z"] }, { oldLines := ["a"], newLines := ["b"] }]
      .preserveLineEndings = .ok [(0, 1, ["b"]), (2, 0, ["z"])] := by rfl
  have res := computeReplacements_preserved_disjoint appendingPatch _ "f" none _ _ _ _
    (by rfl) (by exact mem_singleton.mpr rfl) val
  exact ⟨val, res.2.2.1⟩

end Codex.ApplyPatch
