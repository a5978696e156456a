import Codex.ApplyPatch.Region

/-!
# Agreement of the batch and the streaming parser

The batch parser removes a carriage return at the end of a line twice.
-/

namespace Codex.ApplyPatch

open List Option Text StreamingPatchParser

def singleReturns : Region → List Text → Bool
  | _, [] => true
  | region, line :: lines =>
    !(['\r', '\r'].isSuffixOf line && region.stores line) &&
      singleReturns (region.next (stripCarriageReturn line)) lines

private theorem isSuffixOf_returns_iff (line : Text) :
    ['\r', '\r'].isSuffixOf (line ++ ['\r']) = true ↔ line.getLast? = some '\r' := by
  rw [isSuffixOf_iff_suffix, getLast?_eq_some_iff]
  constructor
  · rintro ⟨front, whole⟩
    exact ⟨front, (append_cancel_right (by simpa using whole)).symm⟩
  rintro ⟨front, rfl⟩
  exact ⟨front, by simp⟩

private theorem stripCarriageReturn_twice (line : Text) :
    stripCarriageReturn line = stripCarriageReturn (stripCarriageReturn line) ++
      if ['\r', '\r'].isSuffixOf line then ['\r'] else [] := by
  rcases stripCarriageReturn_cases line with ⟨final, eq⟩ | ended
  · have single : ¬ ['\r', '\r'].isSuffixOf line = true := by
      intro double
      obtain ⟨front, rfl⟩ := isSuffixOf_iff_suffix.mp double
      simp at final
    rw [eq, eq, if_neg single, append_nil]
  have double := isSuffixOf_returns_iff (stripCarriageReturn line)
  rw [← ended] at double
  rcases stripCarriageReturn_cases (stripCarriageReturn line) with
    ⟨final, eq⟩ | endedTwice
  · rw [eq, if_neg (fun twice => final (double.mp twice)), append_nil]
  rw [if_pos (double.mpr (by rw [endedTwice]; simp))]
  exact endedTwice

variable {line : Text} {lines patchLines : List Text} {fst : Text} {tl : List Text}
  {text : Text} {args : ApplyPatchArgs} {result : List Hunk × Option Text}

private theorem stores_stripCarriageReturn (region : Region) (ne : stripCarriageReturn line ≠ []) :
    region.stores (stripCarriageReturn line) = region.stores line := by
  rcases stripCarriageReturn_cases line with ⟨-, eq⟩ | ended
  · rw [eq]
  conv_rhs => rw [ended]
  cases stripped : stripCarriageReturn line with
  | nil => exact absurd stripped ne
  | cons fst tl => cases region <;> rfl

/-- Two parsers with the same skeleton, the first ahead of the second by `excess` characters. -/
structure Lockstep (excess : Nat) (streaming batch : StreamingPatchParser) : Prop where
  lineNumber : streaming.lineNumber = batch.lineNumber
  skeleton : SameSkeleton streaming.state batch.state
  size : contentSize streaming.state.hunks = contentSize batch.state.hunks + excess
  exact : excess = 0 → streaming.state.hunks = batch.state.hunks

def StreamingPatchParser.region (self : StreamingPatchParser) : Region :=
  Region.ofParser self.state.mode self.state.hunks.getLast?

open Except Or

namespace Lockstep

variable {excess : Nat} {streaming batch streaming' batch' : StreamingPatchParser}

theorem hunks_eq_iff (lock : Lockstep excess streaming batch) :
    streaming.state.hunks = batch.state.hunks ↔ excess = 0 := by
  refine ⟨fun eq => ?_, lock.exact⟩
  have size := lock.size
  rw [eq] at size
  omega

theorem read_eq {st y : StreamingParserState} (eq : SameSkeleton st y) (num : Nat) (line : Text) :
    LineAction.read st.mode st.hunks.getLast? num line =
      LineAction.read y.mode y.hunks.getLast? num line := by
  rw [← LineAction.read_skeleton st.mode, ← LineAction.read_skeleton y.mode,
    ← getLast?_map, ← getLast?_map, eq.mode, eq.hunks]

theorem processLine (lock : Lockstep excess streaming batch) {tail : Text}
    (short : tail = [] ∨ tail = ['\r'])
    (left : streaming.processLine (line ++ tail) = .ok streaming')
    (right : batch.processLine line = .ok batch') :
    ∃ growth, Lockstep (excess + growth) streaming' batch' ∧
      (growth = 0 ↔ tail = [] ∨ streaming.region.stores (line ++ tail) = false) := by
  obtain ⟨extended, leftStep, leftSame⟩ := StreamingPatchParser.lineStep_of_processLine left
  obtain ⟨action, step, rightSame⟩ := StreamingPatchParser.lineStep_of_processLine right
  have rightRead := step.read
  rw [← read_eq lock.skeleton, ← lock.lineNumber] at rightRead
  have ext : extended = action.mapContent (· ++ tail) := by
    rcases short with rfl | rfl
    · have eq := leftStep.read
      rw [append_nil, rightRead] at eq
      rw [← some.inj eq, LineAction.mapContent_append_nil]
    · exact LineAction.read_append_return leftStep.read rightRead
  refine ⟨action.copies * tail.length, ⟨?_, ?_, ?_, ?_⟩, ?_⟩
  · rw [leftSame, rightSame]
    exact lock.lineNumber
  · rw [leftStep.result, step.result, ext]
    exact lock.skeleton.apply action _
  · rw [leftStep.contentSize, step.contentSize, lock.size, ext,
      LineAction.size_mapContent_append]
    omega
  · intro balanced
    obtain ⟨balance, unstored⟩ := Nat.add_eq_zero_iff.mp balanced
    have eq : extended = action := by
      rw [ext]
      rcases Nat.mul_eq_zero.mp unstored with none | empty
      · exact LineAction.mapContent_of_copies_eq_zero _ none
      rw [length_eq_zero_iff.mp empty]
      exact action.mapContent_append_nil
    have states : streaming.state = batch.state :=
      lock.skeleton.eq_of_hunks (lock.exact balance)
    rw [leftStep.result, step.result, eq, states]
  rw [Nat.mul_eq_zero, length_eq_zero_iff, or_comm]
  refine or_congr_right' fun ne => ?_
  have stored := leftStep.stores_iff (by simp [ne])
  rw [ext, LineAction.copies_mapContent] at stored
  rw [Bool.eq_false_iff]
  exact not_iff_not.mp (by rw [not_not]; exact stored)

theorem run (lock : Lockstep excess streaming batch)
    (left : lines.foldlM StreamingPatchParser.pushLine streaming = .ok streaming')
    (right : (lines.map stripCarriageReturn).foldlM StreamingPatchParser.pushLine batch =
      .ok batch') :
    ∃ growth, Lockstep (excess + growth) streaming' batch' ∧
      (growth = 0 ↔ singleReturns streaming.region lines = true) := by
  induction lines generalizing excess streaming batch with
  | nil =>
    obtain rfl : streaming = streaming' := ok.inj left
    obtain rfl : batch = batch' := ok.inj right
    exact ⟨0, lock, by simp [singleReturns]⟩
  | cons line lines ih =>
    rw [foldlM_cons, bind_eq_ok_iff] at left
    rw [map_cons, foldlM_cons, bind_eq_ok_iff] at right
    obtain ⟨leftNext, leftFirst, left⟩ := left
    obtain ⟨rightNext, rightFirst, right⟩ := right
    have cnt : Lockstep excess { streaming with lineNumber := streaming.lineNumber + 1 }
        { batch with lineNumber := batch.lineNumber + 1 } :=
      ⟨congrArg (· + 1) lock.lineNumber, lock.skeleton, lock.size, lock.exact⟩
    rw [StreamingPatchParser.pushLine, stripCarriageReturn_twice] at leftFirst
    obtain ⟨fst, lockNext, firstIff⟩ := cnt.processLine (by split <;> simp) leftFirst rightFirst
    obtain ⟨tl, lockLast, restIff⟩ := ih lockNext left right
    refine ⟨fst + tl, by rwa [← Nat.add_assoc], ?_⟩
    obtain ⟨act, step, -⟩ := StreamingPatchParser.lineStep_of_processLine leftFirst
    rw [Nat.add_eq_zero_iff, firstIff, restIff, singleReturns]
    rw [← stripCarriageReturn_twice] at step ⊢
    have region : leftNext.region = streaming.region.next (stripCarriageReturn line) := step.region
    rw [region, Bool.and_eq_true]
    refine and_congr_left' ?_
    cases double : ['\r', '\r'].isSuffixOf line with
    | false => simp
    | true =>
      have ne : stripCarriageReturn line ≠ [] := by
        rw [stripCarriageReturn_twice, double]
        simp
      rw [← stores_stripCarriageReturn _ ne]
      simp [StreamingPatchParser.region]

end Lockstep

theorem singleReturns_blank (blank : ∀ line ∈ lines, Blank line) :
    singleReturns .outside lines = true := by
  induction lines with
  | nil => rfl
  | cons line lines ih =>
    have empty := trim_eq_nil_of_blank (blank line (by simp)).stripCarriageReturn
    have unstored : Region.outside.stores line = false := by
      cases line with
      | nil => rfl
      | cons fst tl =>
        have space := blank (fst :: tl) (by simp) fst (by simp)
        have y : fst ≠ '+' := by
          rintro rfl
          exact absurd space (by decide)
        simpa [Region.stores] using y
    have region : Region.outside.next (stripCarriageReturn line) = .outside := by
      simp only [Region.next, empty]
      decide
    rw [singleReturns, unstored, region]
    simpa using ih fun y mem => blank y (by simp [mem])

theorem LineStep.ended {num : Nat} {act : LineAction}
    {pre after : StreamingParserState} (step : LineStep num line act pre after)
    (ended : after.mode = .endedPatch) :
    (pre.mode = .endedPatch ∧ trim line = [] ∧ act = .blank) ∨
      (headerText pre.mode line = endPatchMarker ∧ act = .header .endPatch) := by
  rw [step.result] at ended
  rcases LineAction.read_cases step.read with
    ⟨mode, marker, rfl⟩ | ⟨mode, empty, rfl⟩ | ⟨-, notEnded, ⟨header, read, rfl⟩ | ⟨-, read⟩⟩
  · cases ended
  · exact inl ⟨mode, empty, rfl⟩
  · rcases Header.read_cases read with ⟨_, -, -, rfl⟩ | ⟨text, rfl⟩ | ⟨_, -, rfl⟩ |
      ⟨_, -, rfl⟩ | ⟨_, -, rfl⟩
    · exact absurd ended notEnded
    · exact inr ⟨text, rfl⟩
    all_goals cases ended
  rcases LineAction.readContent_cases read with
    ⟨_, _, _, -, -, -, rfl⟩ | ⟨_, _, _, _, _, -, -, -, rfl⟩
  all_goals exact absurd ended notEnded

namespace StreamingPatchParser

variable {self next : StreamingPatchParser} {final : StreamingPatchParser} {hunks : List Hunk}

theorem processLine_blank (past : self.processLine line = .ok next) (blank : Blank line)
    (ended : next.state.mode = .endedPatch) :
    self.state.mode = .endedPatch ∧ next.state = self.state := by
  obtain ⟨act, step, -⟩ := lineStep_of_processLine past
  rcases step.ended ended with ⟨mode, -, rfl⟩ | ⟨hdr, -⟩
  · exact ⟨mode, step.result⟩
  have empty : headerText self.state.mode line = [] := by
    cases self.state.mode <;>
      simp [headerText, trim_eq_nil_of_blank blank, (trimEnd_eq_nil_iff line).mpr blank]
  exact absurd (empty.symm.trans hdr) (by decide)

theorem foldlM_blank (run : lines.foldlM pushLine self = .ok next)
    (blank : ∀ line ∈ lines, Blank line) (ended : next.state.mode = .endedPatch) :
    self.state.mode = .endedPatch ∧ next.state = self.state := by
  induction lines generalizing self with
  | nil =>
    obtain rfl : self = next := ok.inj run
    exact ⟨ended, rfl⟩
  | cons line lines ih =>
    rw [foldlM_cons, bind_eq_ok_iff] at run
    obtain ⟨middle, fst, tl⟩ := run
    obtain ⟨middleEnded, eq⟩ := ih tl fun y mem => blank y (by simp [mem])
    obtain ⟨fst, snd⟩ :=
      processLine_blank fst (blank line (by simp)).stripCarriageReturn middleEnded
    exact ⟨fst, eq.trans snd⟩

theorem finish_cases (done : finish { self with lineBuffer := line } = .ok (hunks, final)) :
    final.state.mode = .endedPatch ∧ hunks = final.state.hunks ∧
      (line = [] ∧ final.state = self.state ∨
        trim line = endPatchMarker ∧ self.state.LastUpdateFilled ∧
          final.state = { self.state with mode := .endedPatch } ∨
        trim line ≠ endPatchMarker ∧
          processLine { self with lineBuffer := [], lineNumber := self.lineNumber + 1 } line =
            .ok final) := by
  obtain ⟨last, lastLine, tl⟩ := bind_eq_ok_iff.mp done
  split at tl
  · rename_i ended
    obtain ⟨rfl, rfl⟩ := Prod.mk.inj (ok.inj tl)
    refine ⟨ended, rfl, ?_⟩
    simp only [finishLine] at lastLine
    split at lastLine
    · rename_i empty
      obtain rfl := ok.inj lastLine
      exact inl ⟨List.isEmpty_iff.mp empty, rfl⟩
    split at lastLine
    · rename_i marker
      obtain ⟨filled, rfl⟩ := endPatch_ok lastLine
      exact inr (inl ⟨marker, filled, rfl⟩)
    rename_i plain
    exact inr (inr ⟨plain, lastLine⟩)
  · cases tl

theorem finish_endPatch (marker : trim line = endPatchMarker)
    (done : finish { self with lineBuffer := line } = .ok (hunks, final)) :
    hunks = self.state.hunks ∧ final.state.environmentId = self.state.environmentId := by
  obtain ⟨-, rfl, ⟨rfl, -⟩ | ⟨-, -, eq⟩ | ⟨plain, -⟩⟩ := finish_cases done
  · exact absurd marker (by decide)
  · rw [eq]
    exact ⟨rfl, rfl⟩
  · exact absurd marker plain

theorem finish_blank (blank : Blank line)
    (done : finish { self with lineBuffer := line } = .ok (hunks, final)) :
    self.state.mode = .endedPatch ∧ hunks = self.state.hunks ∧
      final.state.environmentId = self.state.environmentId := by
  obtain ⟨ended, rfl, ⟨-, eq⟩ | ⟨marker, -⟩ | ⟨-, past⟩⟩ := finish_cases done
  · rw [eq] at ended ⊢
    exact ⟨ended, rfl, rfl⟩
  · rw [trim_eq_nil_of_blank blank] at marker
    exact absurd marker (by decide)
  obtain ⟨mode, eq⟩ := processLine_blank past blank ended
  exact ⟨mode, by rw [eq], by rw [eq]⟩

/-- Behind the last content line a successful run keeps the hunks. -/
theorem finish_trailing {trail : Text} (marker : trim line = endPatchMarker) (blank : Blank trail)
    (run : (splitLinesFrom line trail).1.foldlM pushLine self = .ok next)
    (done : finish { next with lineBuffer := (splitLinesFrom line trail).2 } =
      .ok (hunks, final)) :
    hunks = self.state.hunks ∧ final.state.environmentId = self.state.environmentId ∧
      singleReturns self.region (splitLinesFrom line trail).1 = true := by
  obtain ⟨blanks, blankRest⟩ := blank_splitLines blank
  rw [splitLinesFrom_buffer] at run done ⊢
  cases split : splitLines trail with
  | mk trailing tl =>
    rw [split] at run done blanks blankRest
    cases trailing with
    | nil =>
      obtain rfl : self = next := ok.inj run
      have ended : trim (line ++ tl) = endPatchMarker := by
        rw [trim_append_blank _ blankRest, marker]
      obtain ⟨sameHunks, same⟩ := finish_endPatch ended done
      exact ⟨sameHunks, same, rfl⟩
    | cons fst trailing =>
      rw [foldlM_cons, bind_eq_ok_iff] at run
      obtain ⟨middle, firstLine, run⟩ := run
      obtain ⟨nextEnded, sameHunks, same⟩ := finish_blank blankRest done
      obtain ⟨middleEnded, eq⟩ :=
        foldlM_blank run (fun y mem => blanks y (by simp [mem])) nextEnded
      obtain ⟨act, step, -⟩ := lineStep_of_processLine firstLine
      have firstMarker : trim (stripCarriageReturn (line ++ fst)) = endPatchMarker := by
        rw [trim_stripCarriageReturn, trim_append_blank _ (blanks fst (by simp)), marker]
      rcases step.ended middleEnded with ⟨-, empty, -⟩ | ⟨-, rfl⟩
      · exact absurd (empty.symm.trans firstMarker) (by decide)
      have kept : next.state = { self.state with mode := .endedPatch } :=
        eq.trans step.result
      refine ⟨by rw [sameHunks, kept], by rw [same, kept], ?_⟩
      have ne : stripCarriageReturn (line ++ fst) ≠ [] := by
        intro empty
        rw [empty] at firstMarker
        exact absurd firstMarker (by decide)
      have unstored : self.region.stores (line ++ fst) = false := by
        rw [← stores_stripCarriageReturn _ ne, Bool.eq_false_iff]
        exact fun stored => (step.stores_iff ne).mpr stored rfl
      have region : self.region.next (stripCarriageReturn (line ++ fst)) = .outside := by
        rw [StreamingPatchParser.region, ← step.region]
        simp [middleEnded, Region.ofParser]
      simp only [singleReturns, unstored, region, Bool.and_false, Bool.not_false, Bool.true_and]
      exact singleReturns_blank fun y mem => blanks y (by simp [mem])

theorem singleReturns_append (run : lines.foldlM pushLine self = .ok next) (more : List Text) :
    singleReturns self.region (lines ++ more) =
      (singleReturns self.region lines && singleReturns next.region more) := by
  induction lines generalizing self with
  | nil =>
    obtain rfl : self = next := ok.inj run
    rfl
  | cons line lines ih =>
    rw [foldlM_cons, bind_eq_ok_iff] at run
    obtain ⟨middle, fst, tl⟩ := run
    obtain ⟨act, step, -⟩ := lineStep_of_processLine fst
    have region : middle.region = self.region.next (stripCarriageReturn line) := step.region
    rw [cons_append, singleReturns, singleReturns, ← region, ih tl, Bool.and_assoc]

theorem pushLine_first (pushed : pushLine {} line = .ok next) : trim line = beginPatchMarker ∧
      next = { lineNumber := 1, state := { mode := .startedPatch } } := by
  obtain ⟨act, step, eq⟩ := lineStep_of_processLine pushed
  rcases LineAction.read_cases step.read with
    ⟨-, marker, rfl⟩ | ⟨mode, -⟩ | ⟨notStarted, -⟩
  · rw [trim_stripCarriageReturn] at marker
    refine ⟨marker, ?_⟩
    rw [eq, step.result]
    rfl
  · cases mode
  · exact absurd rfl notStarted

end StreamingPatchParser

theorem checkPatchBoundariesStrict_ok
    (checked : checkPatchBoundariesStrict lines = .ok patchLines) :
    patchLines = lines ∧ ∃ fst last, lines.head? = some fst ∧ lines.getLast? = some last ∧
      trim fst = beginPatchMarker ∧ trim last = endPatchMarker := by
  obtain ⟨_, bounds, out⟩ := bind_eq_ok_iff.mp checked
  obtain rfl : lines = patchLines := ok.inj out
  unfold checkStartAndEndLinesStrict at bounds
  split at bounds
  · rename_i trimmed firstLine
    split at bounds
    · rename_i markers
      obtain ⟨fst, head, rfl⟩ := map_eq_some_iff.mp firstLine
      obtain ⟨last, final, ended⟩ := map_eq_some_iff.mp markers.2
      exact ⟨rfl, fst, last, head, final, markers.1, ended⟩
    · split at bounds <;> cases bounds
  · cases bounds

theorem checkPatchBoundariesLenient_ok (bare : fst ∉ heredocOpeners)
    (checked : checkPatchBoundariesLenient (fst :: tl) = .ok patchLines) :
    checkPatchBoundariesStrict (fst :: tl) = .ok patchLines := by
  unfold checkPatchBoundariesLenient at checked
  split at checked
  · rename_i lines strict
    rw [strict, checked]
  split at checked
  · rename_i whole
    cases whole
    simp [bare] at checked
  · cases checked

theorem parseDeltas_of_parsePatch (parsed : parsePatch text = .ok args) :
    parseDeltas [args.patch] = .ok (args.hunks, args.environmentId) := by
  obtain ⟨patchLines, -, fed⟩ := bind_eq_ok_iff.mp parsed
  obtain ⟨⟨hunks, self⟩, pushed, full⟩ := bind_eq_ok_iff.mp fed
  obtain ⟨⟨hunks', self'⟩, done, result⟩ := bind_eq_ok_iff.mp full
  cases result
  have fold : [['\n'].intercalate patchLines].foldlM
      (fun self delta => Prod.snd <$> pushDelta self delta) {} = .ok self := by
    rw [foldlM_cons, pushed]
    rfl
  exact bind_eq_ok_iff.mpr ⟨self, fold, bind_eq_ok_iff.mpr ⟨_, done, rfl⟩⟩

/-- The batch parser checks a patch that starts with its begin marker strictly and feeds its
lines. -/
theorem parsePatch_ok (lines : Text.lines (trim text) = fst :: tl)
    (begins : trim fst = beginPatchMarker) (parsed : parsePatch text = .ok args) :
    (∃ last, (fst :: tl).getLast? = some last ∧ trim last = endPatchMarker) ∧
      parseDeltas [['\n'].intercalate (fst :: tl)] = .ok (args.hunks, args.environmentId) := by
  have bare : fst ∉ heredocOpeners := by
    intro opener
    have mismatch : ∀ line ∈ heredocOpeners, trim line ≠ beginPatchMarker := by decide
    exact mismatch fst opener begins
  obtain ⟨patchLines, checked, fed⟩ := bind_eq_ok_iff.mp parsed
  rw [lines] at checked
  obtain ⟨rfl, _, last, -, final, -, ended⟩ :=
    checkPatchBoundariesStrict_ok (checkPatchBoundariesLenient_ok bare checked)
  refine ⟨⟨last, final, ended⟩, ?_⟩
  obtain ⟨_, -, full⟩ := bind_eq_ok_iff.mp fed
  obtain ⟨_, -, result⟩ := bind_eq_ok_iff.mp full
  have patch : args.patch = ['\n'].intercalate (fst :: tl) :=
    congrArg ApplyPatchArgs.patch (ok.inj result).symm
  rw [← patch]
  exact parseDeltas_of_parsePatch parsed

theorem parseDeltas_ok (parsed : parseDeltas [text] = .ok result) :
    ∃ self final, (splitLines text).1.foldlM StreamingPatchParser.pushLine {} = .ok self ∧
      StreamingPatchParser.finish { self with lineBuffer := (splitLines text).2 } =
        .ok (result.1, final) ∧ result.2 = final.state.environmentId := by
  rw [parseDeltas_singleton] at parsed
  obtain ⟨self, run, full⟩ := bind_eq_ok_iff.mp parsed
  obtain ⟨⟨hunks, final⟩, done, out⟩ := bind_eq_ok_iff.mp full
  cases out
  exact ⟨self, final, run, done, rfl⟩

theorem parsePatch_endPatchMarker (marker : trim text = endPatchMarker) :
    parsePatch text ≠ .ok args := by
  have rejected : checkPatchBoundariesLenient (Text.lines endPatchMarker) =
      .error (.invalidPatchError firstLineMessage) := by decide
  intro parsed
  obtain ⟨patchLines, checked, -⟩ := bind_eq_ok_iff.mp parsed
  rw [marker] at checked
  cases rejected.symm.trans checked

theorem exists_first (batch : parsePatch text = .ok args)
    (streaming : parseDeltas [text] = .ok result) :
    ∃ fst tl, (splitLines text).1 = fst :: tl ∧ trim fst = beginPatchMarker := by
  obtain ⟨self, final, run, done, -⟩ := parseDeltas_ok streaming
  cases lines : (splitLines text).1 with
  | nil =>
    exfalso
    have whole : splitLines text = ([], text) := splitLinesFrom_of_fst_eq_nil lines
    rw [lines] at run
    obtain rfl := ok.inj run
    rw [whole] at done
    obtain ⟨ended, -, ⟨-, eq⟩ | ⟨marker, -⟩ | ⟨plain, past⟩⟩ :=
      finish_cases done
    · rw [eq] at ended
      cases ended
    · exact parsePatch_endPatchMarker marker batch
    obtain ⟨act, step, -⟩ := StreamingPatchParser.lineStep_of_processLine past
    rcases step.ended ended with ⟨mode, -⟩ | ⟨marker, -⟩
    · cases mode
    · exact plain marker
  | cons fst tl =>
    rw [lines, foldlM_cons, bind_eq_ok_iff] at run
    obtain ⟨next, pushed, -⟩ := run
    exact ⟨fst, tl, rfl, (pushLine_first pushed).1⟩

theorem exists_frame (batch : parsePatch text = .ok args)
    (streaming : parseDeltas [text] = .ok result) :
    ∃ lead fst middle last trail, Blank lead ∧ Blank trail ∧
      trim fst = beginPatchMarker ∧ trim last = endPatchMarker ∧
      splitLines text = ((lead ++ fst) :: middle ++ (splitLinesFrom last trail).1,
        (splitLinesFrom last trail).2) ∧
      splitLines (['\n'].intercalate ((fst :: middle).map stripCarriageReturn ++ [last])) =
        ((fst :: middle).map stripCarriageReturn, last) ∧
      parseDeltas [['\n'].intercalate ((fst :: middle).map stripCarriageReturn ++ [last])] =
        .ok (args.hunks, args.environmentId) := by
  obtain ⟨lead, trail, blankLead, blankTrail, whole⟩ := exists_trim text
  obtain ⟨opening, others, rawLines, begins⟩ := exists_first batch streaming
  have unbroken := notMem_splitLines (trim text)
  -- The leading whitespace cannot contain a line feed: the first line would be blank.
  have leading : splitLines lead = ([], lead) := by
    apply splitLinesFrom_of_fst_eq_nil
    cases leadLines : (splitLinesFrom [] lead).1 with
    | nil => rfl
    | cons blankLine tl =>
      have blank := (blank_splitLines blankLead).1 blankLine (by simp [splitLines, leadLines])
      have eq : blankLine = opening := by
        rw [whole, splitLines, splitLinesFrom_append, leadLines] at rawLines
        exact (List.cons.inj rawLines).1
      rw [← eq, trim_eq_nil_of_blank blank] at begins
      exact absurd begins (by decide)
  have raw : splitLines text = splitLinesFrom lead (trim text ++ trail) := by
    conv_lhs => rw [whole, splitLines, splitLinesFrom_append]
    rw [← splitLines, leading]
    rfl
  rw [splitLinesFrom_append, splitLinesFrom_buffer] at raw
  cases core : splitLines (trim text) with
  | mk lines last =>
    rw [core] at raw unbroken
    cases lines with
    | nil =>
      exfalso
      have single : trim last = beginPatchMarker := by
        rw [raw, splitLinesFrom_buffer] at rawLines
        cases split : splitLines trail with
        | mk trailing tl =>
          rw [split] at rawLines
          cases trailing with
          | nil => cases rawLines
          | cons head trailing =>
            have blank := (blank_splitLines blankTrail).1 head (by simp [split])
            rwa [← (List.cons.inj rawLines).1, trim_append_blank _ blank,
              trim_blank_append blankLead] at begins
      have ne : last ≠ [] := by
        rintro rfl
        exact absurd single (by decide)
      have lines : Text.lines (trim text) = [last] := by
        simp [Text.lines, core, ne]
      obtain ⟨⟨final, isLast, ends⟩, -⟩ := parsePatch_ok lines single batch
      obtain rfl : last = final := by simpa using isLast
      exact absurd (single.symm.trans ends) (by decide)
    | cons fst middle =>
      have ne : last ≠ [] := by
        intro empty
        have full : (splitLines (trim text)).2 = [] := by rw [core, empty]
        have visible : trim text ≠ [] := by
          intro empty
          rw [empty] at core
          cases core
        have space := isWhitespace_of_getLast?_trim
          (getLast?_of_splitLines_eq_nil full visible)
        exact absurd space (by decide)
      have lines : Text.lines (trim text) = (fst :: middle).map stripCarriageReturn ++ [last] := by
        simp [Text.lines, core, ne]
      have firstBegins : trim fst = beginPatchMarker := by
        rw [raw] at rawLines
        rwa [← (List.cons.inj rawLines).1, trim_blank_append blankLead] at begins
      obtain ⟨⟨final, isLast, ends⟩, parsed⟩ := parsePatch_ok lines
        (by rw [trim_stripCarriageReturn, firstBegins]) batch
      have concat : ((fst :: middle).map stripCarriageReturn ++ [last]).getLast? =
          some final := isLast
      obtain rfl : last = final := some.inj (getLast?_concat.symm.trans concat)
      refine ⟨lead, fst, middle, last, trail, blankLead, blankTrail, firstBegins, ends, raw, ?_,
        parsed⟩
      refine splitLines_intercalate (fun line mem => ?_) unbroken.2
      obtain ⟨raw, rawMember, rfl⟩ := List.mem_map.mp mem
      exact fun mark =>
        unbroken.1 raw rawMember (mem_of_mem_stripCarriageReturn mark)

/-- The parsers agree exactly when no stored line ends in two carriage returns. -/
theorem parsePatch_agrees_iff {text : Text} {args : ApplyPatchArgs}
    {result : List Hunk × Option Text} (batch : parsePatch text = .ok args)
    (streaming : parseDeltas [text] = .ok result) :
    (args.hunks, args.environmentId) = result ↔
      singleReturns .outside (splitLines text).1 = true := by
  obtain ⟨lead, fst, middle, last, trail, blankLead, blankTrail, begins, ends, raw, joined,
    parsed⟩ := exists_frame batch streaming
  obtain ⟨batchParser, batchFinal, batchRun, batchFinished, batchEnvironment⟩ :=
    parseDeltas_ok parsed
  obtain ⟨self, final, run, finished, env⟩ := parseDeltas_ok streaming
  rw [joined] at batchRun batchFinished
  rw [raw] at run finished ⊢
  obtain ⟨batchHunks, batchKept⟩ := finish_endPatch ends batchFinished
  rw [foldlM_append, bind_eq_ok_iff] at run
  obtain ⟨body, contentRun, trailingRun⟩ := run
  obtain ⟨hunks, kept, trailing⟩ :=
    finish_trailing ends blankTrail trailingRun finished
  have opening : trim (lead ++ fst) = beginPatchMarker := by
    rw [trim_blank_append blankLead, begins]
  have content_eq := singleReturns_append contentRun
    (splitLinesFrom last trail).1
  rw [trailing, Bool.and_true] at content_eq
  rw [foldlM_cons, bind_eq_ok_iff] at contentRun
  obtain ⟨started, pushed, middleRun⟩ := contentRun
  have opened : [lead ++ fst].foldlM StreamingPatchParser.pushLine {} = .ok started := by
    rw [foldlM_cons, pushed]
    rfl
  have middle_eq := singleReturns_append opened middle
  have first_eq : singleReturns .outside [lead ++ fst] = true := by
    simp [singleReturns, stores_of_trim opening]
  rw [map_cons, foldlM_cons, bind_eq_ok_iff] at batchRun
  obtain ⟨batchStarted, batchPushed, batchRun⟩ := batchRun
  obtain rfl : started = batchStarted :=
    (pushLine_first pushed).2.trans
      (pushLine_first batchPushed).2.symm
  have equal : Lockstep 0 started started := ⟨rfl, ⟨rfl, rfl, rfl⟩, rfl, fun _ => rfl⟩
  obtain ⟨growth, lock, agrees⟩ := equal.run middleRun batchRun
  have condition : singleReturns .outside
      ((lead ++ fst) :: middle ++ (splitLinesFrom last trail).1) =
        singleReturns started.region middle := by
    calc
      _ = singleReturns .outside ((lead ++ fst) :: middle) := content_eq
      _ = (singleReturns .outside [lead ++ fst] && singleReturns started.region middle) :=
        middle_eq
      _ = _ := by rw [first_eq, Bool.true_and]
  have hunks_eq := lock.hunks_eq_iff
  rw [Nat.zero_add] at hunks_eq
  rw [condition, ← agrees, ← hunks_eq, ← hunks, ← batchHunks]
  obtain ⟨resultHunks, resultEnvironment⟩ := result
  have eq : args.environmentId = resultEnvironment := by
    calc
      args.environmentId = batchParser.state.environmentId := batchEnvironment.trans batchKept
      _ = body.state.environmentId := lock.skeleton.environmentId.symm
      _ = resultEnvironment := (env.trans kept).symm
  simp only [Prod.mk.injEq, eq, and_true]
  exact eq_comm

def windowsPatch : Text := "*** Begin Patch\r\n*** Add File: a\r\n+x\r\n*** End Patch"

theorem parsePatch_agrees_on_windowsPatch : parsePatch windowsPatch = .ok
        { patch := "*** Begin Patch\n*** Add File: a\n+x\n*** End Patch"
          hunks := [.addFile ['a'] ['x', '\n']], workdir := none, environmentId := none } ∧
      parseDeltas [windowsPatch] = .ok ([.addFile ['a'] ['x', '\n']], none) ∧
      singleReturns .outside (splitLines windowsPatch).1 = true := by
  have batch : parsePatch windowsPatch = .ok
      { patch := "*** Begin Patch\n*** Add File: a\n+x\n*** End Patch"
        hunks := [.addFile ['a'] ['x', '\n']], workdir := none, environmentId := none } := by
    decide +kernel
  have streaming : parseDeltas [windowsPatch] = .ok ([.addFile ['a'] ['x', '\n']], none) := by
    decide +kernel
  exact ⟨batch, streaming, (parsePatch_agrees_iff batch streaming).mp rfl⟩

/-- The batch parser drops both carriage returns, the streaming parser keeps one. -/
def doubleReturnPatch : Text := "*** Begin Patch\n*** Add File: a\n+x\r\r\n*** End Patch"

theorem parsePatch_disagrees_on_doubleReturnPatch :
    ∃ args result, parsePatch doubleReturnPatch = .ok args ∧
      parseDeltas [doubleReturnPatch] = .ok result ∧
      (args.hunks, args.environmentId) ≠ result := by
  refine ⟨⟨"*** Begin Patch\n*** Add File: a\n+x\r\n*** End Patch",
    [.addFile ['a'] ['x', '\n']], none, none⟩, ([.addFile ['a'] ['x', '\r', '\n']], none), ?_⟩
  decide +kernel

def endsPatch (mode : StreamingParserMode) (line : Text) : Bool :=
  match mode with
  | .notStarted | .endedPatch => false
  | mode => headerText mode line = endPatchMarker

def unterminated (last : Text) : List Text := if last = [] then [] else [last]

open LineAction

namespace StreamingPatchParser

def endMarkers (self : StreamingPatchParser) : List Text → List Bool
  | [] => []
  | line :: lines =>
    endsPatch self.state.mode (stripCarriageReturn line) ::
      match self.pushLine line with
      | .ok next => next.endMarkers lines
      | .error _ => []

def allEndMarkers (text : Text) : List Bool :=
  endMarkers {} (splitLines text).1 ++ (unterminated (splitLines text).2).map fun last =>
      decide (trim last = endPatchMarker)

/-- A begin marker, later one end marker, and blank lines behind it. -/
def Framed (text : Text) : Prop :=
  ∃ first body ending trailing, (splitLines text).1 ++ unterminated (splitLines text).2 =
        first :: body ++ ending :: trailing ∧
      trim first = beginPatchMarker ∧
      allEndMarkers text =
        List.replicate (body.length + 1) false ++ true :: List.replicate trailing.length false ∧
      ∀ line ∈ trailing, trim line = []

/-- An unterminated end marker is not the only line and follows no other end marker. -/
def EndsOnce (text : Text) : Prop :=
  trim (splitLines text).2 = endPatchMarker →
    (splitLines text).1 ≠ [] ∧ true ∉ endMarkers {} (splitLines text).1

section

variable {self next : StreamingPatchParser}

theorem processLine_of_ended (ended : self.state.mode = .endedPatch)
    (past : self.processLine line = .ok next) : trim line = [] ∧ next.state.mode = .endedPatch := by
  obtain ⟨act, step, -⟩ := lineStep_of_processLine past
  rcases read_cases step.read with ⟨mode, -⟩ | ⟨-, empty, rfl⟩ | ⟨-, notEnded, -⟩
  · cases ended.symm.trans mode
  · exact ⟨empty, by rw [step.result]; exact ended⟩
  · exact absurd ended notEnded

theorem pushLine_of_ended (ended : self.state.mode = .endedPatch)
    (pushed : self.pushLine line = .ok next) : trim line = [] ∧ next.state.mode = .endedPatch := by
  have cnt : { self with lineNumber := self.lineNumber + 1 }.state.mode = .endedPatch :=
    ended
  rw [← trim_stripCarriageReturn line]
  exact processLine_of_ended cnt pushed

theorem endsPatch_eq {mode : StreamingParserMode} (started : mode ≠ .notStarted)
    (running : mode ≠ .endedPatch) :
    endsPatch mode line = decide (headerText mode line = endPatchMarker) := by
  cases mode with
  | notStarted => exact absurd rfl started
  | endedPatch => exact absurd rfl running
  | startedPatch | addFile | deleteFile | updateFile => rfl

theorem read_endPatchMarker (mode : StreamingParserMode) (num : Nat) :
    Header.read mode num endPatchMarker = some .endPatch := by
  cases mode <;> rfl

theorem endsPatch_iff_of_pushLine (running : self.state.mode ≠ .endedPatch)
    (pushed : self.pushLine line = .ok next) :
    endsPatch self.state.mode (stripCarriageReturn line) = true ↔
      next.state.mode = .endedPatch := by
  obtain ⟨act, step, -⟩ := lineStep_of_processLine pushed
  rcases read_cases step.read with
    ⟨mode, -, rfl⟩ | ⟨mode, -⟩ | ⟨started, -, hdr⟩
  · have mode : self.state.mode = .notStarted := mode
    rw [mode, step.result]
    simp [endsPatch, apply]
  · exact absurd mode running
  rw [endsPatch_eq started running, decide_eq_true_iff]
  constructor
  · intro marker
    have read := read_endPatchMarker self.state.mode (self.lineNumber + 1)
    rw [← marker] at read
    rcases hdr with ⟨hdr, recognised, rfl⟩ | ⟨unrecognised, -⟩
    · cases recognised.symm.trans read
      rw [step.result]
      rfl
    · cases unrecognised.symm.trans read
  intro ended
  rcases step.ended ended with ⟨mode, -⟩ | ⟨marker, -⟩
  · exact absurd mode running
  · exact marker

theorem trim_of_ended (running : self.state.mode ≠ .endedPatch) (past : processLine { self with
      lineBuffer := [], lineNumber := self.lineNumber + 1 } line = .ok next)
    (ended : next.state.mode = .endedPatch) : trim line = endPatchMarker := by
  obtain ⟨act, step, -⟩ := lineStep_of_processLine past
  rcases step.ended ended with ⟨mode, -⟩ | ⟨marker, -⟩
  · exact absurd mode running
  change headerText self.state.mode line = endPatchMarker at marker
  cases mode : self.state.mode with
  | updateFile hunkLine =>
    rw [mode] at marker
    -- The marker has no leading whitespace, so neither has the line.
    obtain ⟨tl, rfl⟩ := @eq_cons_of_trimEnd line _ _ marker
    exact marker
  | notStarted | startedPatch | addFile | deleteFile | endedPatch =>
    rw [mode] at marker
    exact marker

theorem endMarkers_cons (pushed : self.pushLine line = .ok next) (lines : List Text) :
    self.endMarkers (line :: lines) =
      endsPatch self.state.mode (stripCarriageReturn line) :: next.endMarkers lines := by
  rw [endMarkers, pushed]

theorem endMarkers_of_ended (ended : self.state.mode = .endedPatch)
    (run : lines.foldlM pushLine self = .ok next) :
    next.state.mode = .endedPatch ∧ self.endMarkers lines = List.replicate lines.length false ∧
      ∀ line ∈ lines, trim line = [] := by
  induction lines generalizing self with
  | nil =>
    obtain rfl : self = next := ok.inj run
    exact ⟨ended, rfl, by simp⟩
  | cons line lines ih =>
    rw [foldlM_cons, bind_eq_ok_iff] at run
    obtain ⟨mid, pushed, tl⟩ := run
    obtain ⟨blank, stillEnded⟩ := pushLine_of_ended ended pushed
    obtain ⟨final, markers, blanks⟩ := ih stillEnded tl
    refine ⟨final, ?_, ?_⟩
    · rw [endMarkers_cons pushed, markers, ended]
      rfl
    intro y mem
    rcases mem_cons.mp mem with rfl | later
    · exact blank
    · exact blanks y later

theorem endMarkers_of_running (running : self.state.mode ≠ .endedPatch)
    (run : lines.foldlM pushLine self = .ok next) :
    next.state.mode ≠ .endedPatch ∧ self.endMarkers lines = List.replicate lines.length false ∨
      next.state.mode = .endedPatch ∧ ∃ body ending trailing, lines = body ++ ending :: trailing ∧
        self.endMarkers lines =
          List.replicate body.length false ++ true :: List.replicate trailing.length false ∧
        ∀ line ∈ trailing, trim line = [] := by
  induction lines generalizing self with
  | nil =>
    obtain rfl : self = next := ok.inj run
    exact .inl ⟨running, rfl⟩
  | cons line lines ih =>
    rw [foldlM_cons, bind_eq_ok_iff] at run
    obtain ⟨mid, pushed, tl⟩ := run
    have ends := endsPatch_iff_of_pushLine running pushed
    rw [endMarkers_cons pushed]
    by_cases ended : mid.state.mode = .endedPatch
    · obtain ⟨final, markers, blanks⟩ := endMarkers_of_ended ended tl
      refine .inr ⟨final, [], line, lines, rfl, ?_, blanks⟩
      rw [ends.mpr ended, markers]
      rfl
    have kept : endsPatch self.state.mode (stripCarriageReturn line) = false :=
      Bool.eq_false_iff.mpr fun marker => ended (ends.mp marker)
    rw [kept]
    rcases ih ended tl with
      ⟨unended, markers⟩ | ⟨final, body, ending, trailing, rfl, markers, blanks⟩
    · exact .inl ⟨unended, by rw [markers]; rfl⟩
    refine .inr ⟨final, line :: body, ending, trailing, rfl, ?_, blanks⟩
    rw [markers]
    rfl

end

/-- An accepted patch is framed unless an unterminated end marker ends it again or at its beginning.
-/
theorem parseDeltas_framed_iff (deltas : List Text) {result : List Hunk × Option Text}
    (taken : parseDeltas deltas = .ok result) :
    Framed deltas.flatten ↔ EndsOnce deltas.flatten := by
  have whole : parseDeltas [deltas.flatten] = .ok result := by
    rw [← taken, parseDeltas_eq, parseDeltas_eq, flatten_singleton]
  obtain ⟨self, final, run, finished, -⟩ := parseDeltas_ok whole
  have started : ({} : StreamingPatchParser).state.mode ≠ .endedPatch := by decide
  have runs := endMarkers_of_running started run
  obtain ⟨ended, -, full⟩ := finish_cases finished
  rw [Framed, EndsOnce, allEndMarkers]
  generalize splitLines deltas.flatten = split at *
  obtain ⟨lines, last⟩ := split
  dsimp only at *
  constructor
  · rintro ⟨fst, body, ending, trailing, shape, -, markers, -⟩ marker
    have nonempty : last ≠ [] := by
      rintro rfl
      exact absurd marker (by decide)
    rw [unterminated, if_neg nonempty] at shape markers
    refine ⟨?_, fun twice => ?_⟩
    · rintro rfl
      simp at shape
    have counted := congrArg (List.count true) markers
    have pre := count_pos_iff.mpr twice
    simp [marker, count_replicate] at counted
    omega
  intro once
  cases lines with
  | nil =>
    exfalso
    obtain rfl := ok.inj run
    rcases full with ⟨-, eq⟩ | ⟨marker, -⟩ | ⟨notMarker, past⟩
    · rw [eq] at ended
      cases ended
    · exact (once marker).1 rfl
    · exact notMarker (trim_of_ended started past ended)
  | cons fst tl =>
    rw [foldlM_cons, bind_eq_ok_iff] at run
    obtain ⟨mid, pushed, run⟩ := run
    obtain ⟨begins, rfl⟩ := pushLine_first pushed
    have markers := endMarkers_cons pushed tl
    have unmarked : endsPatch ({} : StreamingPatchParser).state.mode
        (stripCarriageReturn fst) = false := rfl
    rw [unmarked] at markers
    rcases endMarkers_of_running (by decide) run with
      ⟨running, unended⟩ | ⟨parserEnded, body, ending, trailing, rfl, once', blanks⟩
    · rcases full with ⟨-, eq⟩ | ⟨marker, -⟩ | ⟨notMarker, past⟩
      · rw [eq] at ended
        exact absurd ended running
      · have nonempty : last ≠ [] := by
          rintro rfl
          exact absurd marker (by decide)
        refine ⟨fst, tl, last, [], ?_, begins, ?_, by simp⟩
        · rw [unterminated, if_neg nonempty]
        rw [unterminated, if_neg nonempty, markers, unended]
        simp [marker, replicate_succ]
      · exact absurd (trim_of_ended running past ended) notMarker
    have blankLast : last = [] ∨ trim last = [] := by
      rcases full with ⟨empty, -⟩ | ⟨marker, -⟩ | ⟨-, past⟩
      · exact .inl empty
      · refine absurd ?_ (once marker).2
        rw [markers, once']
        simp
      have counted : ({ self with lineBuffer := [], lineNumber := self.lineNumber + 1 } :
          StreamingPatchParser).state.mode = .endedPatch := parserEnded
      exact .inr (processLine_of_ended counted past).1
    have unmarked : (unterminated last).map (fun last =>
        decide (trim last = endPatchMarker)) = List.replicate (unterminated last).length false := by
      rcases blankLast with rfl | blank
      · rfl
      have ne : trim last ≠ endPatchMarker := by
        rw [blank]
        decide
      rw [unterminated]
      split_ifs
      · rfl
      rw [map_singleton, decide_eq_false ne]
      rfl
    refine ⟨fst, body, ending, trailing ++ unterminated last, by simp, begins, ?_, ?_⟩
    · rw [markers, once', unmarked]
      simp [replicate_succ]
    intro line mem
    rcases mem_append.mp mem with pre | isLast
    · exact blanks line pre
    rw [unterminated] at isLast
    split_ifs at isLast with empty
    · cases isLast
    rw [mem_singleton.mp isLast]
    exact blankLast.resolve_left empty

theorem parseDeltas_framed_emptyPatch :
    Framed ["*** Begin Patch\n*** End".toList, " Patch".toList].flatten :=
  (parseDeltas_framed_iff ["*** Begin Patch\n*** End".toList, " Patch".toList] rfl).mpr
    fun _ => ⟨by decide, by decide⟩

/-- An unterminated end marker alone is accepted. -/
theorem parseDeltas_accepts_unbegun :
    parseDeltas ["*** End Patch".toList] = .ok ([], none) ∧
      ¬ Framed ["*** End Patch".toList].flatten := by
  refine ⟨by decide, ?_⟩
  rintro ⟨fst, body, ending, trailing, shape, -⟩
  have lines : ((splitLines ["*** End Patch".toList].flatten).1 ++
      unterminated (splitLines ["*** End Patch".toList].flatten).2).length = 1 := by decide
  rw [shape, length_append, length_cons, length_cons] at lines
  omega

end StreamingPatchParser
end Codex.ApplyPatch
