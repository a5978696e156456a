import Codex.Foundation.Text

/-!
# Tags that stand alone on a line

Streamed text is divided into normal text and the blocks between tag lines.
-/

namespace Codex.StreamParser

open List Text

structure TagSpec (T : Type) where
  openText : Text
  closeText : Text
  tag : T
  deriving DecidableEq

inductive TaggedLineSegment (T : Type)
  | normal (text : Text)
  | tagStart (tag : T)
  | tagDelta (tag : T) (text : Text)
  | tagEnd (tag : T)

variable {T : Type} [DecidableEq T] (segments : List (TaggedLineSegment T))

def pushSegment (segment : TaggedLineSegment T) : List (TaggedLineSegment T) :=
  match segment with
  | .normal delta =>
    if delta.isEmpty then segments
    else
      match segments.getLast? with
      | some (.normal old) => segments.dropLast ++ [.normal (old ++ delta)]
      | _ => segments ++ [.normal delta]
  | .tagDelta tag delta =>
    if delta.isEmpty then segments
    else
      match segments.getLast? with
      | some (.tagDelta existingTag old) =>
        if existingTag = tag then segments.dropLast ++ [.tagDelta existingTag (old ++ delta)]
        else segments ++ [.tagDelta tag delta]
      | _ => segments ++ [.tagDelta tag delta]
  | .tagStart tag => segments ++ [.tagStart tag]
  | .tagEnd tag => segments ++ [.tagEnd tag]

structure TaggedLineParser (T : Type) where
  specs : List (TagSpec T)
  activeTag : Option T := none
  detectTag : Bool := true
  lineBuffer : Text := []

namespace TaggedLineParser

variable (specs : List (TagSpec T))

def isTagPrefix (slug : Text) : Bool :=
  specs.any fun spec =>
    (trimEnd slug).isPrefixOf spec.openText || (trimEnd slug).isPrefixOf spec.closeText

def mayBeTag (line : Text) : Bool :=
  (trimStart line).isEmpty || isTagPrefix specs (trimStart line)

def matchOpen (slug : Text) : Option T :=
  (specs.find? (·.openText == slug)).map (·.tag)

def matchClose (slug : Text) : Option T :=
  (specs.find? (·.closeText == slug)).map (·.tag)

def textSegment (activeTag : Option T) (text : Text) : TaggedLineSegment T :=
  match activeTag with
  | some tag => .tagDelta tag text
  | none => .normal text

def pushText (parser : TaggedLineParser T) (text : Text) (segments : List (TaggedLineSegment T)) :
    List (TaggedLineSegment T) :=
  pushSegment segments (textSegment parser.activeTag text)

/-- What a complete line is: a tag that opens or ends a block, or text. -/
def lineSegment (activeTag : Option T) (slug line : Text) : TaggedLineSegment T × Option T :=
  match matchOpen specs slug, activeTag with
  | some tag, none => (.tagStart tag, some tag)
  | _, none => (.normal line, none)
  | _, some active =>
    if matchClose specs slug = some active then (.tagEnd active, none)
    else (.tagDelta active line, some active)

structure Loop (T : Type) where
  parser : TaggedLineParser T
  segments : List (TaggedLineSegment T) := []
  run : Text := []

variable (loop : Loop T)

def finishLine (line : Text) : Loop T :=
  let without := if line.getLast? = some '\n' then line.dropLast else line
  let settled := lineSegment loop.parser.specs loop.parser.activeTag (trim without) line
  { loop with
    parser := { loop.parser with activeTag := settled.2, detectTag := true, lineBuffer := [] }
    segments := pushSegment loop.segments settled.1 }

def detect (ch : Char) : Loop T :=
  let line := loop.parser.lineBuffer ++ [ch]
  if ch = '\n' then finishLine loop line
  else if mayBeTag loop.parser.specs line then
    { loop with parser := { loop.parser with lineBuffer := line } }
  else
    { loop with
      parser := { loop.parser with detectTag := false, lineBuffer := [] }
      segments := pushText loop.parser line loop.segments }

def flush : Loop T :=
  if loop.run.isEmpty then loop
  else { loop with segments := pushText loop.parser loop.run loop.segments, run := [] }

def feed (ch : Char) : Loop T :=
  if loop.parser.detectTag then detect (flush loop) ch
  else if ch = '\n' then
    { parser := { loop.parser with detectTag := true }
      segments := pushText loop.parser (loop.run ++ [ch]) loop.segments
      run := [] }
  else { loop with run := loop.run ++ [ch] }

def parse (delta : Text) (parser : TaggedLineParser T) :
    List (TaggedLineSegment T) × TaggedLineParser T :=
  let loop := flush (delta.foldl feed { parser := parser })
  (loop.segments, loop.parser)

def finish (parser : TaggedLineParser T) : List (TaggedLineSegment T) × TaggedLineParser T :=
  let loop := if parser.lineBuffer.isEmpty then { parser := parser }
    else finishLine { parser := parser } parser.lineBuffer
  let segments := match loop.parser.activeTag with
    | some tag => pushSegment loop.segments (.tagEnd tag)
    | none => loop.segments
  (segments, { loop.parser with activeTag := none, detectTag := true })

end TaggedLineParser

inductive Atom (T : Type)
  | normal (ch : Char)
  | delta (tag : T) (ch : Char)
  | start (tag : T)
  | stop (tag : T)

def Atom.segment : Atom T → TaggedLineSegment T
  | .normal ch => .normal [ch]
  | .delta tag ch => .tagDelta tag [ch]
  | .start tag => .tagStart tag
  | .stop tag => .tagEnd tag

def TaggedLineSegment.atoms : TaggedLineSegment T → List (Atom T)
  | .normal text => text.map .normal
  | .tagDelta tag text => text.map (.delta tag)
  | .tagStart tag => [.start tag]
  | .tagEnd tag => [.stop tag]

def TaggedLineSegment.text : TaggedLineSegment T → Text
  | .normal text | .tagDelta _ text => text
  | .tagStart _ | .tagEnd _ => []

def Atom.char? : Atom T → Option Char
  | .normal ch | .delta _ ch => some ch
  | .start _ | .stop _ => none

def merge : List (TaggedLineSegment T) :=
  segments.foldl pushSegment []

def atoms : List (Atom T) :=
  segments.flatMap TaggedLineSegment.atoms

omit [DecidableEq T] in
@[simp] theorem atoms_append (fst second : List (TaggedLineSegment T)) :
    atoms (fst ++ second) = atoms fst ++ atoms second :=
  flatMap_append

omit [DecidableEq T] in
@[simp] theorem atoms_nil : atoms ([] : List (TaggedLineSegment T)) = [] :=
  rfl

omit [DecidableEq T] in
@[simp] theorem atoms_cons (segment : TaggedLineSegment T) (segments : List (TaggedLineSegment T)) :
    atoms (segment :: segments) = segment.atoms ++ atoms segments :=
  flatMap_cons

omit [DecidableEq T] in
theorem filterMap_char?_atoms :
    (atoms segments).filterMap Atom.char? = segments.flatMap TaggedLineSegment.text := by
  induction segments with
  | nil => rfl
  | cons seg segments ih =>
    rw [atoms_cons, filterMap_append, ih, flatMap_cons]
    cases seg <;>
      simp [TaggedLineSegment.atoms, TaggedLineSegment.text, Atom.char?, filterMap_map,
        Function.comp_def]

variable (segments : List (TaggedLineSegment T))

theorem atoms_pushSegment (seg : TaggedLineSegment T) :
    atoms (pushSegment segments seg) = atoms segments ++ seg.atoms := by
  cases seg with
  | tagStart | tagEnd => simp [pushSegment]
  | normal delta =>
    rw [pushSegment]
    split
    · rename_i empty
      simp [List.isEmpty_iff.mp empty, TaggedLineSegment.atoms]
    split
    · rename_i old final
      conv_rhs => rw [← dropLast_append_getLast? _ final]
      simp [TaggedLineSegment.atoms]
    · simp
  | tagDelta tag delta =>
    rw [pushSegment]
    split
    · rename_i empty
      simp [List.isEmpty_iff.mp empty, TaggedLineSegment.atoms]
    split
    · rename_i existingTag old final
      split
      · rename_i eq
        conv_rhs => rw [← dropLast_append_getLast? _ final]
        simp [TaggedLineSegment.atoms, eq]
      · simp
    · simp

theorem pushSegment_normal_concat (text : Text)
    (ch : Char) : pushSegment segments (.normal (text ++ [ch])) =
      pushSegment (pushSegment segments (.normal text)) (.normal [ch]) := by
  cases text with
  | nil => simp [pushSegment]
  | cons fst text =>
    simp only [pushSegment, cons_append, isEmpty_cons, Bool.false_eq_true, if_false]
    split
    all_goals simp

theorem pushSegment_delta_concat (tag : T) (text : Text)
    (ch : Char) : pushSegment segments (.tagDelta tag (text ++ [ch])) =
      pushSegment (pushSegment segments (.tagDelta tag text)) (.tagDelta tag [ch]) := by
  cases text with
  | nil => simp [pushSegment]
  | cons fst text =>
    simp only [pushSegment, cons_append, isEmpty_cons, Bool.false_eq_true, if_false]
    split
    · split
      · rename_i eq
        simp [eq]
      · simp
    · simp

theorem pushSegment_eq_foldl (seg : TaggedLineSegment T) : pushSegment segments seg =
      seg.atoms.foldl (fun merged atom => pushSegment merged atom.segment) segments := by
  cases seg with
  | tagStart | tagEnd => rfl
  | normal text =>
    induction text using reverseRecOn with
    | nil => rfl
    | append_singleton text ch ih =>
      rw [pushSegment_normal_concat, ih]
      simp [TaggedLineSegment.atoms, Atom.segment]
  | tagDelta tag text =>
    induction text using reverseRecOn with
    | nil => rfl
    | append_singleton text ch ih =>
      rw [pushSegment_delta_concat, ih]
      simp [TaggedLineSegment.atoms, Atom.segment]

theorem merge_eq_of_atoms {fst second : List (TaggedLineSegment T)}
    (eq : atoms fst = atoms second) : merge fst = merge second := by
  have spread : ∀ segments : List (TaggedLineSegment T), merge segments =
      (atoms segments).foldl (fun merged atom => pushSegment merged atom.segment) [] := by
    intro segments
    rw [atoms, foldl_flatMap, merge]
    exact congrArg (fun push => List.foldl push [] segments)
      (funext fun merged => funext fun seg => pushSegment_eq_foldl merged seg)
  rw [spread, spread, eq]

namespace TaggedLineParser

def fed (parser : TaggedLineParser T) (ch : Char) : List (Atom T) × TaggedLineParser T :=
  if parser.detectTag then
    let line := parser.lineBuffer ++ [ch]
    if ch = '\n' then
      let settled := lineSegment parser.specs parser.activeTag (trim parser.lineBuffer) line
      (settled.1.atoms, { parser with activeTag := settled.2, lineBuffer := [] })
    else if mayBeTag parser.specs line then
      ([], { parser with lineBuffer := line })
    else
      ((textSegment parser.activeTag line).atoms,
        { parser with detectTag := false, lineBuffer := [] })
  else ((textSegment parser.activeTag [ch]).atoms, { parser with detectTag := ch = '\n' })

def fedAll (text : Text) (parser : TaggedLineParser T) : List (Atom T) × TaggedLineParser T :=
  text.foldl (fun fedBefore ch =>
    (fedBefore.1 ++ (fed fedBefore.2 ch).1, (fed fedBefore.2 ch).2)) ([], parser)

def Loop.atoms (loop : Loop T) : List (Atom T) :=
  StreamParser.atoms loop.segments ++ (textSegment loop.parser.activeTag loop.run).atoms

variable (activeTag : Option T)

omit [DecidableEq T] in
theorem atoms_textSegment_append (fst snd : Text) :
    (textSegment activeTag (fst ++ snd)).atoms =
      (textSegment activeTag fst).atoms ++ (textSegment activeTag snd).atoms := by
  cases activeTag <;> simp [textSegment, TaggedLineSegment.atoms]

omit [DecidableEq T] in
@[simp] theorem atoms_textSegment_nil : (textSegment activeTag []).atoms = [] := by
  cases activeTag <;> rfl

theorem atoms_flush (loop : Loop T) : StreamParser.atoms (flush loop).segments = loop.atoms ∧
      (flush loop).parser = loop.parser := by
  rw [flush, Loop.atoms]
  split
  · rename_i empty
    rw [List.isEmpty_iff.mp empty]
    simp
  · exact ⟨atoms_pushSegment _ _, rfl⟩

theorem feed_spec {loop : Loop T} (tidy : loop.parser.detectTag = true → loop.run = [])
    (ch : Char) :
    (feed loop ch).parser = (fed loop.parser ch).2 ∧
      (feed loop ch).atoms = loop.atoms ++ (fed loop.parser ch).1 ∧
      ((feed loop ch).parser.detectTag = true → (feed loop ch).run = []) := by
  rw [feed, fed]
  cases mode : loop.parser.detectTag with
  | true =>
    have flushed : flush loop = loop := by rw [flush, tidy mode]; rfl
    simp only [if_true, flushed, detect]
    by_cases newline : ch = '\n'
    · simp [newline, finishLine, Loop.atoms, atoms_pushSegment, tidy mode]
    cases undecided : mayBeTag loop.parser.specs (loop.parser.lineBuffer ++ [ch]) with
    | true => simp [newline, Loop.atoms, tidy mode, mode]
    | false => simp [newline, Loop.atoms, tidy mode, pushText, atoms_pushSegment]
  | false =>
    simp only [Bool.false_eq_true, if_false]
    by_cases newline : ch = '\n'
    · simp [newline, Loop.atoms, pushText, atoms_pushSegment, atoms_textSegment_append]
    simp only [newline, if_false, decide_false, Loop.atoms, atoms_textSegment_append,
      append_assoc, mode, Bool.false_eq_true, false_implies, and_true]
    rw [← mode]

theorem parse_spec (delta : Text) (parser : TaggedLineParser T) :
    (parse delta parser).2 = (fedAll delta parser).2 ∧
      StreamParser.atoms (parse delta parser).1 = (fedAll delta parser).1 := by
  have loops : (delta.foldl feed { parser := parser }).parser = (fedAll delta parser).2 ∧
      (delta.foldl feed { parser := parser }).atoms = (fedAll delta parser).1 ∧
      ((delta.foldl feed { parser := parser }).parser.detectTag = true →
        (delta.foldl feed { parser := parser }).run = []) := by
    induction delta using reverseRecOn with
    | nil => simp [fedAll, Loop.atoms, StreamParser.atoms]
    | append_singleton delta ch ih =>
      obtain ⟨eq, emitted, tidy⟩ := ih
      have next := feed_spec tidy ch
      rw [eq, emitted] at next
      simp only [foldl_append, foldl_cons, foldl_nil, fedAll] at next ⊢
      exact next
  obtain ⟨eq, emitted, -⟩ := loops
  obtain ⟨flushed, kept⟩ := atoms_flush (delta.foldl feed { parser := parser })
  exact ⟨kept.trans eq, flushed.trans emitted⟩

def Refuted (specs : List (TagSpec T)) (line : Text) : Prop :=
  ∃ front, front <+: line ∧ mayBeTag specs front = false

theorem fedAll_concat (text : Text) (ch : Char) (prs : TaggedLineParser T) :
    fedAll (text ++ [ch]) prs = ((fedAll text prs).1 ++ (fed (fedAll text prs).2 ch).1,
        (fed (fedAll text prs).2 ch).2) := by
  simp [fedAll]

theorem fedAll_append (fst snd : Text) (prs : TaggedLineParser T) : fedAll (fst ++ snd) prs =
      ((fedAll fst prs).1 ++ (fedAll snd (fedAll fst prs).2).1,
        (fedAll snd (fedAll fst prs).2).2) := by
  induction snd using reverseRecOn with
  | nil => simp [fedAll]
  | append_singleton snd ch ih =>
    rw [← append_assoc, fedAll_concat, ih, fedAll_concat, append_assoc]

/-- From every state, a cut anywhere in the text leaves the state and the merged segments alone. -/
theorem parse_append (fst snd : Text) (parser : TaggedLineParser T) :
    (parse snd (parse fst parser).2).2 = (parse (fst ++ snd) parser).2 ∧
      merge ((parse fst parser).1 ++ (parse snd (parse fst parser).2).1) =
        merge (parse (fst ++ snd) parser).1 := by
  obtain ⟨state, segments⟩ := parse_spec fst parser
  obtain ⟨later, more⟩ := parse_spec snd (parse fst parser).2
  obtain ⟨whole, all⟩ := parse_spec (fst ++ snd) parser
  rw [fedAll_append, ← state] at whole all
  refine ⟨later.trans whole.symm, merge_eq_of_atoms ?_⟩
  rw [all, ← segments, ← more]
  exact flatMap_append

variable {line : Text} {specs : List (TagSpec T)} {last : Text}

theorem fedAll_line (specs : List (TagSpec T)) (activeTag : Option T) (unbroken : '\n' ∉ line) :
    fedAll line ⟨specs, activeTag, true, []⟩ = ([], ⟨specs, activeTag, true, line⟩) ∨
      Refuted specs line ∧ fedAll line ⟨specs, activeTag, true, []⟩ =
        ((textSegment activeTag line).atoms, ⟨specs, activeTag, false, []⟩) := by
  induction line using reverseRecOn with
  | nil => exact Or.inl rfl
  | append_singleton line ch ih =>
    have plain : ch ≠ '\n' := fun eq => unbroken (by simp [eq])
    rw [fedAll_concat]
    rcases ih fun mem => unbroken (by simp [mem]) with
      buffered | ⟨⟨front, beginning, hopeless⟩, emitted⟩
    · rw [buffered]
      cases undecided : mayBeTag specs (line ++ [ch]) with
      | true => exact Or.inl (by simp [fed, plain, undecided])
      | false =>
        exact Or.inr ⟨⟨_, prefix_rfl, undecided⟩, by simp [fed, plain, undecided]⟩
    rw [emitted]
    refine Or.inr ⟨⟨front, beginning.trans (prefix_append _ _), hopeless⟩, ?_⟩
    simp [fed, plain, atoms_textSegment_append]

omit [DecidableEq T] in
theorem Refuted.not_tag (refuted : Refuted specs line) :
    matchOpen specs (trim line) = none ∧ matchClose specs (trim line) = none := by
  obtain ⟨front, ⟨tl, rfl⟩, hopeless⟩ := refuted
  obtain ⟨nonempty, other⟩ := Bool.or_eq_false_iff.mp hopeless
  have begins : trimEnd (trimStart front) <+: trim (front ++ tl) := by
    rw [trim, trimStart_append, if_neg (by simpa using nonempty)]
    exact trimEnd_prefix_trimEnd (prefix_append _ _)
  have ne : ∀ spec ∈ specs, spec.openText ≠ trim (front ++ tl) ∧
      spec.closeText ≠ trim (front ++ tl) := by
    intro spec mem
    have apart := List.any_eq_false.mp other spec mem
    rw [Bool.not_eq_true, Bool.or_eq_false_iff] at apart
    constructor
    · intro eq
      rw [← eq] at begins
      exact absurd (List.isPrefixOf_iff_prefix.mpr begins) (by simp [apart.1])
    intro eq
    rw [← eq] at begins
    exact absurd (List.isPrefixOf_iff_prefix.mpr begins) (by simp [apart.2])
  constructor
  · simpa [matchOpen, find?_eq_none] using fun spec mem => (ne spec mem).1
  · simpa [matchClose, find?_eq_none] using fun spec mem => (ne spec mem).2

theorem Refuted.lineSegment (refuted : Refuted specs line) (activeTag : Option T) (text : Text) :
    lineSegment specs activeTag (trim line) text = (textSegment activeTag text, activeTag) := by
  obtain ⟨opens, closes⟩ := refuted.not_tag
  cases activeTag <;> simp [TaggedLineParser.lineSegment, opens, closes, textSegment]

variable (specs : List (TagSpec T)) (activeTag : Option T)

theorem fedAll_terminated (unbroken : '\n' ∉ line) :
    fedAll (line ++ ['\n']) ⟨specs, activeTag, true, []⟩ =
      ((lineSegment specs activeTag (trim line) (line ++ ['\n'])).1.atoms,
        ⟨specs, (lineSegment specs activeTag (trim line) (line ++ ['\n'])).2, true, []⟩) := by
  rw [fedAll_concat]
  rcases fedAll_line specs activeTag unbroken with buffered | ⟨refuted, emitted⟩
  · rw [buffered]
    simp [fed]
  rw [emitted, refuted.lineSegment]
  simp [fed, atoms_textSegment_append]

def closing : Option T → List (TaggedLineSegment T)
  | some tag => [.tagEnd tag]
  | none => []

def lineSegments (specs : List (TagSpec T)) : Option T → List Text → (last : Text) →
    List (TaggedLineSegment T)
  | activeTag, [], [] => closing activeTag
  | activeTag, [], ch :: last =>
    let settled := lineSegment specs activeTag (trim (ch :: last)) (ch :: last)
    settled.1 :: closing settled.2
  | activeTag, line :: lines, last =>
    let settled := lineSegment specs activeTag (trim line) (line ++ ['\n'])
    settled.1 :: lineSegments specs settled.2 lines last

theorem atoms_finish_emitted (mode : Bool) :
    StreamParser.atoms (finish ⟨specs, activeTag, mode, []⟩).1 =
      StreamParser.atoms (closing activeTag) := by
  cases activeTag <;> rfl

theorem atoms_finish_buffered {ch : Char} (unbroken : '\n' ∉ ch :: last) :
    StreamParser.atoms (finish ⟨specs, activeTag, true, ch :: last⟩).1 =
      StreamParser.atoms (lineSegments specs activeTag [] (ch :: last)) := by
  have unterminated : (ch :: last).getLast? ≠ some '\n' := fun final =>
    unbroken (mem_of_getLast? final)
  simp only [finish, isEmpty_cons, Bool.false_eq_true, if_false, finishLine, if_neg unterminated,
    lineSegments]
  cases settled : (lineSegment specs activeTag (trim (ch :: last)) (ch :: last)).2 with
  | none | some => simp [closing, atoms_pushSegment]

theorem atoms_fedAll_finish {lines : List Text}
    (unbroken : ∀ line ∈ lines, '\n' ∉ line) (lastUnbroken : '\n' ∉ last) :
    (fedAll (lines.flatMap (· ++ ['\n']) ++ last) ⟨specs, activeTag, true, []⟩).1 ++
        StreamParser.atoms (finish
          (fedAll (lines.flatMap (· ++ ['\n']) ++ last) ⟨specs, activeTag, true, []⟩).2).1 =
      StreamParser.atoms (lineSegments specs activeTag lines last) := by
  induction lines generalizing activeTag with
  | nil =>
    rw [flatMap_nil, nil_append]
    rcases fedAll_line specs activeTag lastUnbroken with buffered | ⟨refuted, emitted⟩
    · rw [buffered, nil_append]
      cases last with
      | nil => exact atoms_finish_emitted specs activeTag true
      | cons ch last => exact atoms_finish_buffered specs activeTag lastUnbroken
    rw [emitted, atoms_finish_emitted]
    cases last with
    | nil => simp [lineSegments]
    | cons ch last =>
      simp [lineSegments, refuted.lineSegment]
  | cons line lines ih =>
    have rest := ih (lineSegment specs activeTag (trim line) (line ++ ['\n'])).2
      fun other mem => unbroken other (by simp [mem])
    rw [flatMap_cons, append_assoc, fedAll_append,
      fedAll_terminated specs activeTag (unbroken line (by simp)), append_assoc, rest]
    simp [lineSegments]

/-- Reading character by character agrees with reading whole lines. -/
theorem parse_finish_lineSegments (specs : List (TagSpec T)) (activeTag : Option T) (text : Text) :
    merge ((parse text ⟨specs, activeTag, true, []⟩).1 ++
        (finish (parse text ⟨specs, activeTag, true, []⟩).2).1) =
      merge (lineSegments specs activeTag (splitLines text).1 (splitLines text).2) := by
  obtain ⟨state, segments⟩ := parse_spec text ⟨specs, activeTag, true, []⟩
  obtain ⟨unbroken, last⟩ := notMem_splitLines text
  have lines := atoms_fedAll_finish specs activeTag unbroken last
  rw [flatMap_splitLines, ← state, ← segments, ← atoms_append] at lines
  exact merge_eq_of_atoms lines

def isTagLine (slug : Text) : Bool :=
  match activeTag with
  | none => (matchOpen specs slug).isSome
  | some active => matchClose specs slug = some active

def nextTag (slug : Text) : Option T :=
  match activeTag with
  | none => matchOpen specs slug
  | some active => if matchClose specs slug = some active then none else some active

def keptText (specs : List (TagSpec T)) : Option T → List Text → (last : Text) → Text
  | activeTag, [], last => if isTagLine specs activeTag (trim last) then [] else last
  | activeTag, line :: lines, last =>
    (if isTagLine specs activeTag (trim line) then [] else line ++ ['\n']) ++
      keptText specs (nextTag specs activeTag (trim line)) lines last

theorem lineSegment_snd (slug line : Text) :
    (lineSegment specs activeTag slug line).2 = nextTag specs activeTag slug := by
  cases activeTag with
  | none => cases opens : matchOpen specs slug <;> simp [lineSegment, nextTag, opens]
  | some active => by_cases closes : matchClose specs slug = some active <;>
      simp [lineSegment, nextTag, closes]

theorem text_lineSegment (slug line : Text) : (lineSegment specs activeTag slug line).1.text =
      if isTagLine specs activeTag slug then [] else line := by
  cases activeTag with
  | none => cases opens : matchOpen specs slug <;>
      simp [lineSegment, isTagLine, opens, TaggedLineSegment.text]
  | some active => by_cases closes : matchClose specs slug = some active <;>
      simp [lineSegment, isTagLine, closes, TaggedLineSegment.text]

omit [DecidableEq T] in
theorem flatMap_text_closing : (closing activeTag).flatMap TaggedLineSegment.text = [] := by
  cases activeTag <;> rfl

theorem flatMap_text_lineSegments (specs : List (TagSpec T)) (activeTag : Option T)
    (lines : List Text) (last : Text) :
    (lineSegments specs activeTag lines last).flatMap TaggedLineSegment.text =
      keptText specs activeTag lines last := by
  induction lines generalizing activeTag with
  | nil =>
    cases last with
    | nil => simp [lineSegments, keptText, flatMap_text_closing]
    | cons ch last => simp [lineSegments, keptText, flatMap_text_closing, text_lineSegment]
  | cons line lines ih =>
    simp [lineSegments, keptText, text_lineSegment, lineSegment_snd, ih]

end TaggedLineParser
end Codex.StreamParser
