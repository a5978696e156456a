import Codex.StreamParser.InlineHiddenTag
import Codex.StreamParser.TaggedLine

/-!
# Assistant text

Citations are taken out first, then proposed plans in plan mode.
-/

namespace Codex.StreamParser

open List TaggedLineParser InlineHiddenTagParser

inductive CitationTag
  | citation
  deriving DecidableEq

inductive PlanTag
  | proposedPlan
  deriving DecidableEq

def citationSpec : InlineTagSpec CitationTag where
  tag := .citation
  openText := "<oai-mem-citation>"
  closeText := "</oai-mem-citation>"
  open_ne := by decide
  close_ne := by decide

def planSpec : TagSpec PlanTag where
  openText := "<proposed_plan>"
  closeText := "</proposed_plan>"
  tag := .proposedPlan

inductive ProposedPlanSegment
  | normal (text : Text)
  | proposedPlanStart
  | proposedPlanDelta (text : Text)
  | proposedPlanEnd

namespace ProposedPlanSegment

def ofLine : TaggedLineSegment PlanTag → ProposedPlanSegment
  | .normal text => .normal text
  | .tagStart .proposedPlan => .proposedPlanStart
  | .tagDelta .proposedPlan text => .proposedPlanDelta text
  | .tagEnd .proposedPlan => .proposedPlanEnd

def toLine : ProposedPlanSegment → TaggedLineSegment PlanTag
  | .normal text => .normal text
  | .proposedPlanStart => .tagStart .proposedPlan
  | .proposedPlanDelta text => .tagDelta .proposedPlan text
  | .proposedPlanEnd => .tagEnd .proposedPlan

def normalText : ProposedPlanSegment → Text
  | .normal text => text
  | .proposedPlanStart | .proposedPlanDelta _ | .proposedPlanEnd => []

def text (segment : ProposedPlanSegment) : Text :=
  segment.toLine.text

variable (segments : List ProposedPlanSegment)

def merge : List ProposedPlanSegment :=
  (StreamParser.merge (segments.map toLine)).map ofLine

@[simp] theorem toLine_ofLine (segment : TaggedLineSegment PlanTag) :
    (ofLine segment).toLine = segment := by
  cases segment <;> rfl

def normalChar? : Atom PlanTag → Option Char
  | .normal ch => some ch
  | .delta _ _ | .start _ | .stop _ => none

theorem flatMap_normalText (segs : List ProposedPlanSegment) :
    segs.flatMap normalText = (atoms (segs.map toLine)).filterMap normalChar? := by
  induction segs with
  | nil => rfl
  | cons seg segs ih =>
    rw [flatMap_cons, map_cons, atoms_cons, filterMap_append, ih]
    cases seg <;>
      simp [normalText, toLine, TaggedLineSegment.atoms, normalChar?, filterMap_map,
        Function.comp_def]

theorem flatMap_text :
    segments.flatMap text = (atoms (segments.map toLine)).filterMap Atom.char? := by
  rw [filterMap_char?_atoms, flatMap_map]
  rfl

end ProposedPlanSegment

def mapSegments (segments : List (TaggedLineSegment PlanTag)) :
    StreamTextChunk ProposedPlanSegment :=
  let mapped := segments.map ProposedPlanSegment.ofLine
  ⟨mapped.flatMap ProposedPlanSegment.normalText, mapped⟩

structure AssistantTextChunk where
  visibleText : Text := []
  citations : List Text := []
  planSegments : List ProposedPlanSegment := []

instance : Append AssistantTextChunk where
  append first second :=
    ⟨first.visibleText ++ second.visibleText, first.citations ++ second.citations,
      first.planSegments ++ second.planSegments⟩

structure AssistantTextStreamParser where
  planMode : Bool
  citations : InlineHiddenTagParser CitationTag := { specs := [citationSpec] }
  plan : TaggedLineParser PlanTag := { specs := [planSpec] }

namespace AssistantTextStreamParser

def parseVisibleText (visibleText : Text) (parser : AssistantTextStreamParser) :
    AssistantTextChunk × AssistantTextStreamParser :=
  if !parser.planMode then ({ visibleText := visibleText }, parser)
  else
    let parsed := parse visibleText parser.plan
    let planChunk := mapSegments parsed.1
    ({ visibleText := planChunk.visibleText, planSegments := planChunk.extracted },
      { parser with plan := parsed.2 })

def pushStr (chunk : Text) (parser : AssistantTextStreamParser) :
    AssistantTextChunk × AssistantTextStreamParser :=
  let citationChunk := parser.citations.pushStr chunk
  let out := parseVisibleText citationChunk.1.visibleText
    { parser with citations := citationChunk.2 }
  ({ out.1 with citations := citationChunk.1.extracted.map (·.content) }, out.2)

def finishPlan (out : AssistantTextChunk × AssistantTextStreamParser) :
    AssistantTextChunk × AssistantTextStreamParser :=
  if out.2.planMode then
    let finished := TaggedLineParser.finish out.2.plan
    let tail := mapSegments finished.1
    ({ out.1 with
        visibleText := out.1.visibleText ++ tail.visibleText
        planSegments := out.1.planSegments ++ tail.extracted },
      { out.2 with plan := finished.2 })
  else out

def finish (parser : AssistantTextStreamParser) : AssistantTextChunk × AssistantTextStreamParser :=
  let citationChunk := parser.citations.finish
  let out := finishPlan (parseVisibleText citationChunk.1.visibleText
    { parser with citations := citationChunk.2 })
  ({ out.1 with citations := citationChunk.1.extracted.map (·.content) }, out.2)

def pushAll : List Text → AssistantTextStreamParser → AssistantTextChunk × AssistantTextStreamParser
  | [], parser => ({}, parser)
  | chunk :: chunks, parser =>
    ((pushStr chunk parser).1 ++ (pushAll chunks (pushStr chunk parser).2).1,
      (pushAll chunks (pushStr chunk parser).2).2)

def run (planMode : Bool) (chunks : List Text) : AssistantTextChunk :=
  (pushAll chunks { planMode := planMode }).1 ++
    (finish (pushAll chunks { planMode := planMode }).2).1

structure Shows (parser : AssistantTextStreamParser) (visible : Text) (out : AssistantTextChunk)
    (next : AssistantTextStreamParser) : Prop where
  mode : next.planMode = parser.planMode
  plain : parser.planMode = false → out.visibleText = visible ∧ out.planSegments = []
  plan : parser.planMode = true →
    out.visibleText = out.planSegments.flatMap ProposedPlanSegment.normalText ∧
      atoms (out.planSegments.map ProposedPlanSegment.toLine) = (fedAll visible parser.plan).1 ∧
      next.plan = (fedAll visible parser.plan).2

theorem map_toLine_mapSegments (segments : List (TaggedLineSegment PlanTag)) :
    (mapSegments segments).extracted.map ProposedPlanSegment.toLine = segments := by
  simp [mapSegments, Function.comp_def]

variable {parser mid next : AssistantTextStreamParser} {visible more : Text}
  {out tl : AssistantTextChunk}

theorem Shows.nil (parser : AssistantTextStreamParser) : Shows parser [] {} parser where
  mode := rfl
  plain _ := ⟨rfl, rfl⟩
  plan _ := ⟨rfl, rfl, rfl⟩

theorem Shows.append (fst : Shows parser visible out mid)
    (snd : Shows mid more tl next) : Shows parser (visible ++ more) (out ++ tl) next where
  mode := snd.mode.trans fst.mode
  plain := by
    intro off
    obtain ⟨shown, none⟩ := fst.plain off
    obtain ⟨later, noneLater⟩ := snd.plain (fst.mode.trans off)
    exact ⟨congrArg₂ _ shown later, congrArg₂ _ none noneLater⟩
  plan := by
    intro on
    obtain ⟨shown, segs, st⟩ := fst.plan on
    obtain ⟨later, segmentsLater, stateLater⟩ := snd.plan (fst.mode.trans on)
    rw [fedAll_append, ← st, ← stateLater, ← segs, ← segmentsLater, ← atoms_append, ← map_append]
    refine ⟨?_, rfl, rfl⟩
    exact (congrArg₂ _ shown later).trans flatMap_append.symm

theorem shows_parseVisibleText (visible : Text) (parser : AssistantTextStreamParser) :
    Shows parser visible (parseVisibleText visible parser).1
      (parseVisibleText visible parser).2 := by
  rw [parseVisibleText]
  cases mode : parser.planMode with
  | false => exact ⟨rfl, fun _ => ⟨rfl, rfl⟩, fun on => nomatch mode.symm.trans on⟩
  | true =>
    obtain ⟨st, emitted⟩ := parse_spec visible parser.plan
    refine ⟨mode.symm ▸ rfl, fun off => (nomatch mode.symm.trans off), fun _ => ⟨rfl, ?_, st⟩⟩
    exact (congrArg atoms (map_toLine_mapSegments _)).trans emitted

theorem shows_pushStr (chunk : Text) (parser : AssistantTextStreamParser) :
    Shows parser (parser.citations.pushStr chunk).1.visibleText (pushStr chunk parser).1
      (pushStr chunk parser).2 := by
  have shown := shows_parseVisibleText (parser.citations.pushStr chunk).1.visibleText
    { parser with citations := (parser.citations.pushStr chunk).2 }
  exact ⟨shown.mode, shown.plain, shown.plan⟩

theorem citations_parseVisibleText (visible : Text) (parser : AssistantTextStreamParser) :
    (parseVisibleText visible parser).2.citations = parser.citations := by
  rw [parseVisibleText]
  cases parser.planMode <;> rfl

theorem pushAll_spec (chunks : List Text) (parser : AssistantTextStreamParser) :
    (pushAll chunks parser).1.citations =
        (parser.citations.pushAll chunks).1.extracted.map (·.content) ∧
      (pushAll chunks parser).2.citations = (parser.citations.pushAll chunks).2 ∧
      Shows parser (parser.citations.pushAll chunks).1.visibleText (pushAll chunks parser).1
        (pushAll chunks parser).2 := by
  induction chunks generalizing parser with
  | nil => exact ⟨rfl, rfl, Shows.nil parser⟩
  | cons chunk chunks ih =>
    obtain ⟨cited, st, shown⟩ := ih (pushStr chunk parser).2
    have kept : (pushStr chunk parser).2.citations = (parser.citations.pushStr chunk).2 :=
      citations_parseVisibleText _ _
    rw [kept] at cited st shown
    rw [pushAll, InlineHiddenTagParser.pushAll]
    refine ⟨?_, st, (shows_pushStr chunk parser).append shown⟩
    rw [StreamTextChunk.extracted_append, map_append, ← cited]
    rfl

theorem finishPlan_spec {out : AssistantTextChunk × AssistantTextStreamParser}
    (shown : Shows parser visible out.1 out.2) :
    (parser.planMode = false →
        (finishPlan out).1.visibleText = visible ∧ (finishPlan out).1.planSegments = []) ∧
      (parser.planMode = true → (finishPlan out).1.visibleText =
            (finishPlan out).1.planSegments.flatMap ProposedPlanSegment.normalText ∧
          atoms ((finishPlan out).1.planSegments.map ProposedPlanSegment.toLine) =
            (fedAll visible parser.plan).1 ++ atoms (TaggedLineParser.finish
                (fedAll visible parser.plan).2).1) := by
  rw [finishPlan, shown.mode]
  cases mode : parser.planMode with
  | false => exact ⟨fun _ => shown.plain mode, nofun⟩
  | true =>
    obtain ⟨txt, segs, st⟩ := shown.plan mode
    refine ⟨nofun, fun _ => ⟨?_, ?_⟩⟩
    · simp only [if_true, txt, flatMap_append]
      rfl
    · simp [atoms_append, segs, st, map_toLine_mapSegments]

theorem finishPlan_append (fst : AssistantTextChunk)
    (out : AssistantTextChunk × AssistantTextStreamParser) :
    (fst ++ (finishPlan out).1).visibleText = (finishPlan (fst ++ out.1, out.2)).1.visibleText ∧
      (fst ++ (finishPlan out).1).planSegments =
        (finishPlan (fst ++ out.1, out.2)).1.planSegments := by
  rw [finishPlan, finishPlan]
  cases out.2.planMode with
  | false => exact ⟨rfl, rfl⟩
  | true => exact ⟨(append_assoc _ _ _).symm, (append_assoc _ _ _).symm⟩

theorem shows_before_finish (fst : Shows parser visible out mid) :
    Shows parser (visible ++ mid.citations.finish.1.visibleText)
      (out ++ (parseVisibleText mid.citations.finish.1.visibleText
        { mid with citations := mid.citations.finish.2 }).1)
      (parseVisibleText mid.citations.finish.1.visibleText
        { mid with citations := mid.citations.finish.2 }).2 := by
  have last := shows_parseVisibleText mid.citations.finish.1.visibleText
    { mid with citations := mid.citations.finish.2 }
  exact fst.append ⟨last.mode, last.plain, last.plan⟩

def citationTotal (text : Text) : StreamTextChunk (ExtractedInlineTag CitationTag) :=
  total ⟨[citationSpec], text, none⟩

theorem citationTotal_eq (chunks : List Text) : citationTotal chunks.flatten =
      (InlineHiddenTagParser.pushAll chunks { specs := [citationSpec] }).1 ++
        (InlineHiddenTagParser.pushAll chunks { specs := [citationSpec] }).2.finish.1 := by
  rw [pushAll_eq_parse (Separated.singleton _) rfl]
  rfl

def planLines (visible : Text) : List (TaggedLineSegment PlanTag) :=
  lineSegments [planSpec] none (Text.splitLines visible).1
    (Text.splitLines visible).2

theorem atoms_planLines (visible : Text) : (fedAll visible { specs := [planSpec] }).1 ++
        atoms (TaggedLineParser.finish
          (fedAll visible { specs := [planSpec] }).2).1 =
      atoms (planLines visible) := by
  obtain ⟨unbroken, last⟩ := Text.notMem_splitLines visible
  have lines := atoms_fedAll_finish [planSpec] none unbroken last
  rwa [Text.flatMap_splitLines] at lines

theorem run_spec (planMode : Bool) (chunks : List Text) : (run planMode chunks).citations =
        (citationTotal chunks.flatten).extracted.map (·.content) ∧
      (planMode = false →
          (run planMode chunks).visibleText = (citationTotal chunks.flatten).visibleText ∧
          (run planMode chunks).planSegments = []) ∧
      (planMode = true → (run planMode chunks).visibleText =
            (run planMode chunks).planSegments.flatMap ProposedPlanSegment.normalText ∧
          atoms ((run planMode chunks).planSegments.map ProposedPlanSegment.toLine) =
            atoms (planLines (citationTotal chunks.flatten).visibleText)) := by
  obtain ⟨cited, st, shown⟩ := pushAll_spec chunks { planMode := planMode }
  have finished := shows_before_finish shown
  have joined := finishPlan_append (pushAll chunks { planMode := planMode }).1
    (parseVisibleText
      (pushAll chunks { planMode := planMode }).2.citations.finish.1.visibleText
      { (pushAll chunks { planMode := planMode }).2 with
        citations := (pushAll chunks { planMode := planMode }).2.citations.finish.2 })
  have visible : (run planMode chunks).visibleText = _ := joined.1
  have segs : (run planMode chunks).planSegments = _ := joined.2
  have outcome := @finishPlan_spec _ _ (_, _) finished
  rw [← visible, ← segs] at outcome
  rw [citationTotal_eq, ← atoms_planLines, StreamTextChunk.visibleText_append,
    StreamTextChunk.extracted_append, map_append, ← cited, ← st]
  exact ⟨rfl, outcome⟩

/-- The output does not depend on the cuts, and no character outside the tags is lost. -/
theorem run_chunkIndependent (planMode : Bool) (chunks : List Text) :
    (run planMode chunks).visibleText = (run planMode [chunks.flatten]).visibleText ∧
      (run planMode chunks).citations = (run planMode [chunks.flatten]).citations ∧
      ProposedPlanSegment.merge (run planMode chunks).planSegments =
        ProposedPlanSegment.merge (run planMode [chunks.flatten]).planSegments ∧
      ∃ visible hidden, Scan [citationSpec] chunks.flatten visible hidden ∧
        (run planMode chunks).citations = hidden.map (·.content) ∧
        if planMode then
          (run planMode chunks).planSegments.flatMap ProposedPlanSegment.text =
              keptText [planSpec] none (Text.splitLines visible).1 (Text.splitLines visible).2 ∧
            (run planMode chunks).visibleText =
              (run planMode chunks).planSegments.flatMap ProposedPlanSegment.normalText
        else
          (run planMode chunks).visibleText = visible ∧
            (run planMode chunks).planSegments = [] := by
  obtain ⟨cited, plain, plan⟩ := run_spec planMode chunks
  obtain ⟨citedWhole, plainWhole, planWhole⟩ := run_spec planMode [chunks.flatten]
  rw [flatten_singleton] at citedWhole plainWhole planWhole
  have scan := scan_total
    (Separated.singleton citationSpec) chunks.flatten
  cases planMode with
  | false =>
    obtain ⟨shown, none⟩ := plain rfl
    obtain ⟨shownWhole, noneWhole⟩ := plainWhole rfl
    refine ⟨shown.trans shownWhole.symm, cited.trans citedWhole.symm, ?_, _, _, scan, cited,
      shown, none⟩
    rw [none, noneWhole]
  | true =>
    obtain ⟨shown, segs⟩ := plan rfl
    obtain ⟨shownWhole, segmentsWhole⟩ := planWhole rfl
    have eq := segs.trans segmentsWhole.symm
    refine ⟨?_, cited.trans citedWhole.symm, ?_, _, _, scan, cited, ?_, shown⟩
    · rw [shown, shownWhole, ProposedPlanSegment.flatMap_normalText,
        ProposedPlanSegment.flatMap_normalText, eq]
    · rw [ProposedPlanSegment.merge, ProposedPlanSegment.merge, merge_eq_of_atoms eq]
    rw [ProposedPlanSegment.flatMap_text, segs, filterMap_char?_atoms, planLines,
      flatMap_text_lineSegments]
    rfl

end AssistantTextStreamParser
end Codex.StreamParser
