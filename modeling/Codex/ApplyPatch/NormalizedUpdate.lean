import Codex.ApplyPatch.Placement

/-!
# Updates that normalize line endings

Chunks are placed behind each other, except at the end of the file.
-/

namespace Codex.ApplyPatch

open Splice List

def trackReplacements (count : Nat) (replacements : List Replacement) : List (Origin Text) :=
  (label 0 replacements).reverse.foldl applyEdit (keptRange 0 count)

def resolveOrigin (lines : List Text) : Origin Text → Text
  | .kept index => lines[index]?.getD []
  | .inserted _ line => line

/-- The ranges are disjoint, exactly their lines are removed, and all new lines are in the result.
-/
structure KeepsEdits (count : Nat) (replacements : List Replacement) : Prop where
  disjoint : replacements.Pairwise fun first snd =>
    first.1 + first.2.1 ≤ snd.1 ∨ snd.1 + snd.2.1 ≤ first.1
  removed : ∀ pos < count, .kept pos ∈ trackReplacements count replacements ↔
    ¬ ∃ repl ∈ replacements, repl.1 ≤ pos ∧ pos < repl.1 + repl.2.1
  inserted : ∀ index (repl : Replacement), replacements[index]? = some repl →
    repl.2.2.map (.inserted index) <:+: trackReplacements count replacements

/-- What is looked for: the old lines, and those before a final empty line. -/
def UpdateFileChunk.patterns (chunk : UpdateFileChunk) : List (List Text) :=
  if chunk.oldLines.getLast? = some [] then [chunk.oldLines, chunk.oldLines.dropLast]
  else [chunk.oldLines]

/-- Somewhere in the file the chunk matches lines that reach into the last `count` ones. -/
def ReachesInto (lines : List Text) (count : Nat) (chunk : UpdateFileChunk) : Prop :=
  ∃ pattern ∈ chunk.patterns, ∃ start ≤ lines.length, MatchesAt lines pattern start ∧
    lines.length < start + pattern.length + count

/-- The chunk matches more than `count` lines at the end of the file. -/
def MatchesEnd (lines : List Text) (count : Nat) (chunk : UpdateFileChunk) : Prop :=
  ∃ pattern ∈ chunk.patterns, count < pattern.length ∧
    MatchesAt lines pattern (lines.length - pattern.length)

instance (lines : List Text) (count : Nat) (chunk : UpdateFileChunk) :
    Decidable (ReachesInto lines count chunk) :=
  inferInstanceAs (Decidable (∃ pattern ∈ _, ∃ start ≤ _, (∃ view ∈ lineViews, _) ∧ _))

instance (lines : List Text) (count : Nat) (chunk : UpdateFileChunk) :
    Decidable (MatchesEnd lines count chunk) :=
  inferInstanceAs (Decidable (∃ pattern ∈ _, _ ∧ ∃ view ∈ lineViews, _))

/-- What keeps two chunks of a patch apart at the end of the file. -/
structure EndClear (lines : List Text) (first snd : UpdateFileChunk) : Prop where
  /-- No match of the first one reaches into the lines of an end-of-file chunk. -/
  atEnd : snd.isEndOfFile = true → snd.oldLines ≠ [] →
    ¬ ReachesInto lines snd.oldLines.length first
  /-- Behind an insertion before a final empty line no chunk matches that line and others. -/
  insertionFirst : lines.getLast? = some [] → first.oldLines = [] → ¬ MatchesEnd lines 1 snd
  /-- Before an insertion before a final empty line no chunk matches that line. -/
  insertionSecond : lines.getLast? = some [] → snd.oldLines = [] → ¬ MatchesEnd lines 0 first

variable {lines : List Text} {path : Text} {mode : ApplyPatchFileUpdateMode} {cur next : Nat}
  {chunk : UpdateFileChunk} {chunks : List UpdateFileChunk} {spot : Placement}
  {places : List Placement} {replacements : List Replacement}

section

variable (sorted : replacements.Pairwise fun left right => left.1 ≤ right.1)

include sorted

theorem sorted_label : (label 0 replacements).Pairwise fun left right => left.1 ≤ right.1 :=
  (pairwise_label fun _ _ _ _ => Iff.rfl).mpr sorted

theorem trackReplacements_eq {count : Nat} (bounds : ∀ repl ∈ replacements, repl.1 ≤ count) :
    trackReplacements count replacements =
      (label 0 replacements).foldr splice (keptRange 0 count) := by
  refine (foldl_applyEdit (sorted_label sorted) ?_).1
  rw [length_keptRange]
  exact (forall_mem_label fun _ _ => Iff.rfl).mpr bounds

theorem applyReplacements_eq_track (bounds : ∀ repl ∈ replacements, repl.1 ≤ lines.length) :
    applyReplacements lines replacements =
      (trackReplacements lines.length replacements).map (resolveOrigin lines) := by
  have src : (keptRange 0 lines.length).map (resolveOrigin lines) = lines := by
    rw [keptRange, map_map]
    refine ext_getElem (by simp) fun idx _ ins => ?_
    simp [resolveOrigin, getElem?_eq_getElem ins]
  have direct : applyReplacements lines replacements = replacements.foldr splice lines :=
    (foldl_applyEdit sorted bounds).1
  rw [direct, trackReplacements_eq sorted bounds, map_foldr_splice, src,
    map_label fun _ _ => rfl, map_mapEdit_id]

theorem keepsEdits_of_ordered {count : Nat} (ord : Ordered replacements)
    (bounds : ∀ repl ∈ replacements, stop repl ≤ count) : KeepsEdits count replacements := by
  have starts : ∀ repl ∈ replacements, repl.1 ≤ count := fun repl mem =>
    (Nat.le_add_right _ _).trans (bounds repl mem)
  have labelled : Ordered (label 0 replacements) :=
    (pairwise_label fun _ _ _ _ => Iff.rfl).mpr ord
  have le : ∀ edit ∈ label 0 replacements, stop edit ≤ count :=
    (forall_mem_label fun _ _ => Iff.rfl).mpr bounds
  have onePass : trackReplacements count replacements =
      rebuild (keptRange 0 count) 0 (label 0 replacements) := by
    rw [trackReplacements_eq sorted starts]
    refine foldr_splice labelled (Nat.zero_le _) fun edit mem => ⟨Nat.zero_le _, ?_⟩
    rw [length_keptRange]
    exact le edit mem
  refine ⟨ord.imp .inl, fun pos ins => ?_, fun idx repl hit => ?_⟩
  · rw [onePass, kept_mem_iff, filterMap_index?_rebuild labelled (fresh_label _ _)
      fun edit mem => ⟨Nat.zero_le _, (le edit mem).trans (Nat.zero_add _).ge⟩,
      mem_filter, mem_range'_1, decide_eq_true_eq, removes_label]
    exact and_iff_right ⟨Nat.zero_le _, by rwa [Nat.zero_add]⟩
  have mem : mapEdit (.inserted idx) repl ∈ label 0 replacements := by
    have mem := @mem_label _ 0 _ _ _ hit
    rwa [Nat.zero_add] at mem
  rw [onePass]
  exact infix_rebuild mem _ _

end

structure PlacedBehind (lines : List Text) (mode : ApplyPatchFileUpdateMode) (cur : Nat)
    (spot : Placement) : Prop where
  behind_le : spot.behind ≤ lines.length
  insertion : spot.chunk.oldLines = [] → spot.start = insertionIndex lines mode ∧
    spot.pattern = [] ∧ spot.newSlice = spot.chunk.newLines
  start_cases : spot.chunk.oldLines ≠ [] → cur ≤ spot.start ∨
    spot.chunk.isEndOfFile = true ∧ spot.pattern ≠ [] ∧ spot.behind = lines.length
  matched : spot.chunk.oldLines ≠ [] →
    spot.pattern ∈ spot.chunk.patterns ∧ MatchesAt lines spot.pattern spot.start

theorem matchesAt_of_seekSequence {pat : List Text} {eof : Bool} {start : Nat}
    (hit : seekSequence lines pat cur eof mode = some start) : MatchesAt lines pat start := by
  by_cases filled : pat = []
  · subst filled
    exact ⟨id, mem_cons_self, by simp⟩
  · exact (seekSequence_eq_some filled hit).2

theorem Placed.placedBehind (placed : Placed lines mode cur chunk spot)
    (ins : cur ≤ lines.length) : PlacedBehind lines mode cur spot where
  behind_le := placed.behind_le ins
  insertion pure := by
    cases placed with
    | insertion => exact ⟨rfl, rfl, rfl⟩
    | found filled => exact absurd pure filled
    | retried split => simp [split] at pure
  start_cases filled := by
    rw [placed.chunk_eq] at filled ⊢
    exact (placed.start_cases ins filled).imp_right And.right
  matched filled := by
    cases placed with
    | insertion pure => exact absurd pure filled
    | found _ hit =>
      refine ⟨?_, matchesAt_of_seekSequence hit⟩
      rw [UpdateFileChunk.patterns]
      split_ifs <;> exact mem_cons_self
    | retried split _ hit =>
      refine ⟨?_, matchesAt_of_seekSequence hit⟩
      rw [UpdateFileChunk.patterns, split, getLast?_concat, if_pos rfl, dropLast_concat]
      exact mem_cons_of_mem _ mem_cons_self

theorem PlacedBehind.mono (place : PlacedBehind lines mode next spot) (early : cur ≤ next) :
    PlacedBehind lines mode cur spot :=
  ⟨place.behind_le, place.insertion, fun filled => (place.start_cases filled).imp_left early.trans,
    place.matched⟩

open Placement

theorem PlacedBehind.behind_eq_start (place : PlacedBehind lines mode cur spot)
    (pure : spot.chunk.oldLines = []) : spot.behind = spot.start := by
  rw [behind, (place.insertion pure).2.1]
  rfl

theorem placeChunks_pairs (ins : cur ≤ lines.length)
    (placed : placeChunks lines mode cur chunks = some places) :
    (places.Pairwise fun fst snd => fst.chunk.oldLines ≠ [] →
        PlacedBehind lines mode fst.behind snd) ∧
      ∀ spot ∈ places, spot.chunk ∈ chunks ∧ PlacedBehind lines mode cur spot := by
  induction chunks generalizing cur places with
  | nil =>
    obtain rfl := Option.some.inj placed
    exact ⟨.nil, by simp⟩
  | cons chunk chunks ih =>
    obtain ⟨behind, spot, tl, reached, fst, others, rfl⟩ := placeChunks_cons.mp placed
    obtain ⟨moved, bound⟩ := cursorBehindContext_bounds ins reached
    have place := placed_of_placeChunk fst
    obtain ⟨forward, limit⟩ := place.cursor_le_nextCursor bound
    obtain ⟨pairs, known⟩ := ih limit others
    refine ⟨pairwise_cons.mpr ⟨fun y mem filled => ?_, pairs⟩,
      forall_mem_cons.mpr ⟨⟨?_, (place.placedBehind bound).mono moved⟩, fun y mem => ?_⟩⟩
    · have later := (known y mem).2
      rwa [nextCursor, if_neg (by simpa using filled)] at later
    · rw [place.chunk_eq]
      exact mem_cons_self
    obtain ⟨inChunks, later⟩ := known y mem
    exact ⟨.tail _ inChunks, later.mono (moved.trans forward)⟩

theorem map_chunk_placeChunks (placed : placeChunks lines mode cur chunks = some places) :
    places.map (·.chunk) = chunks := by
  induction chunks generalizing cur places with
  | nil =>
    obtain rfl := Option.some.inj placed
    rfl
  | cons chunk chunks ih =>
    obtain ⟨behind, spot, rest, -, fst, others, rfl⟩ := placeChunks_cons.mp placed
    rw [map_cons, ih others, (placed_of_placeChunk fst).chunk_eq]

theorem PlacedBehind.replacements_eq (place : PlacedBehind lines .normalizeToLf cur spot) :
    spot.replacements .normalizeToLf = [(spot.start, spot.pattern.length, spot.newSlice)] := by
  by_cases pure : spot.chunk.oldLines.isEmpty = true
  · rw [replacements_of_pure pure, (place.insertion (List.isEmpty_iff.mp pure)).2.1]
    rfl
  · rw [replacements_of_impure pure]

theorem insertionIndex_cases (lines : List Text) :
    insertionIndex lines .normalizeToLf = lines.length ∧ lines.getLast? ≠ some [] ∨
      insertionIndex lines .normalizeToLf + 1 = lines.length ∧ lines.getLast? = some [] := by
  rw [insertionIndex]
  split
  · rename_i ends
    obtain ⟨front, rfl⟩ := exists_of_final_empty ends
    exact .inr ⟨by simp, by simp⟩
  rename_i filled
  refine .inl ⟨rfl, fun ends => filled ?_⟩
  rw [ends]
  rfl

theorem length_le_of_mem_patterns {pattern : List Text}
    (mem : pattern ∈ chunk.patterns) : pattern.length ≤ chunk.oldLines.length := by
  rw [UpdateFileChunk.patterns] at mem
  split_ifs at mem
  · rcases mem_pair.mp mem with rfl | rfl
    · exact le_rfl
    · exact (dropLast_sublist _).length_le
  · exact (mem_singleton.mp mem ▸ le_rfl)

theorem PlacedBehind.matchesEnd (place : PlacedBehind lines mode cur spot) {count : Nat}
    (filled : spot.chunk.oldLines ≠ []) (atEnd : spot.behind = lines.length)
    (long : count < spot.pattern.length) : MatchesEnd lines count spot.chunk := by
  obtain ⟨mem, hit⟩ := place.matched filled
  refine ⟨_, mem, long, ?_⟩
  rw [Placement.behind] at atEnd
  rwa [← atEnd, Nat.add_sub_cancel]

/-- Two placed chunks do not overlap, whichever of them comes first in the file. -/
theorem apart_of_endClear {fst snd : Placement} (place : PlacedBehind lines .normalizeToLf 0 fst)
    (later : PlacedBehind lines .normalizeToLf 0 snd)
    (forward : fst.chunk.oldLines ≠ [] → PlacedBehind lines .normalizeToLf fst.behind snd)
    (clear : EndClear lines fst.chunk snd.chunk) :
    (fst.start ≤ snd.start → fst.behind ≤ snd.start) ∧
      (¬ fst.start ≤ snd.start → snd.behind ≤ fst.start) := by
  have firstEnd := place.behind_le
  have secondEnd := later.behind_le
  have firstRange : fst.behind = fst.start + fst.pattern.length := rfl
  have secondRange : snd.behind = snd.start + snd.pattern.length := rfl
  by_cases pure1 : fst.chunk.oldLines = []
  · have here := (place.insertion pure1).1
    have point := place.behind_eq_start pure1
    by_cases pure2 : snd.chunk.oldLines = []
    · have there := (later.insertion pure2).1
      have otherPoint := later.behind_eq_start pure2
      omega
    refine ⟨by omega, fun before => ?_⟩
    rcases insertionIndex_cases lines with ⟨eq, -⟩ | ⟨eq, ends⟩
    · omega
    by_contra out
    exact clear.insertionFirst ends pure1 (later.matchesEnd pure2 (by omega) (by omega))
  by_cases pure2 : snd.chunk.oldLines = []
  · have there := (later.insertion pure2).1
    have point := later.behind_eq_start pure2
    refine ⟨fun before => ?_, by omega⟩
    rcases insertionIndex_cases lines with ⟨eq, -⟩ | ⟨eq, ends⟩
    · omega
    by_contra out
    exact clear.insertionSecond ends pure2 (place.matchesEnd pure1 (by omega) (by omega))
  -- only an end-of-file chunk can be placed before the end of an earlier one
  rcases (forward pure1).start_cases pure2 with behind | ⟨eof, -, atEnd⟩
  · exact ⟨fun _ => behind, by omega⟩
  have short := length_le_of_mem_patterns (later.matched pure2).1
  obtain ⟨mem, hit⟩ := place.matched pure1
  have far : ¬ lines.length < fst.start + fst.pattern.length + snd.chunk.oldLines.length :=
    fun into => clear.atEnd eof pure2 ⟨_, mem, _, by omega, hit, into⟩
  omega

def sameLinePatch : Text :=
  ("*** Begin Patch\n*** Update File: f\n@@\n-b\n+x\n@@\n-b\n+y\n" ++
    "*** End of File\n*** End Patch").toList

def finalEmptyPatch : Text :=
  "*** Begin Patch\n*** Update File: f\n@@\n-a\n-\n+b\n@@\n+c\n*** End Patch"

def insertionFirstPatch : Text :=
  "*** Begin Patch\n*** Update File: f\n@@\n+c\n@@\n-a\n-\n+b\n*** End Patch"

def sameLineChunks : List UpdateFileChunk :=
  [{ oldLines := ["b"], newLines := ["x"] },
    { oldLines := ["b"], newLines := ["y"], isEndOfFile := true }]

def finalEmptyChunk : UpdateFileChunk := { oldLines := ["a", []], newLines := ["b"] }

def insertionChunk : UpdateFileChunk := { newLines := ["c"] }

end Codex.ApplyPatch
