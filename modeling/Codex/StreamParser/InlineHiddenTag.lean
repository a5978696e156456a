import Codex.Foundation.Search
import Codex.Foundation.Text
import Mathlib.Data.List.MinMax
import Mathlib.Data.List.Pairwise
import Mathlib.Data.Prod.Lex

/-!
# Inline tags in streamed text

The parser hides tags such as citations and extracts their contents.
-/

namespace Codex.StreamParser

open List Option Search

structure StreamTextChunk (E : Type) where
  visibleText : Text := []
  extracted : List E := []
  deriving DecidableEq

instance {E : Type} : Append (StreamTextChunk E) where
  append first second :=
    ⟨first.visibleText ++ second.visibleText, first.extracted ++ second.extracted⟩

namespace StreamTextChunk

variable {E : Type} (first second third : StreamTextChunk E)

@[simp] theorem visibleText_append :
    (first ++ second).visibleText = first.visibleText ++ second.visibleText :=
  rfl

@[simp] theorem extracted_append :
    (first ++ second).extracted = first.extracted ++ second.extracted :=
  rfl

theorem append_mk (visible more : Text) (hidden others : List E) :
    (⟨visible, hidden⟩ : StreamTextChunk E) ++ ⟨more, others⟩ =
      ⟨visible ++ more, hidden ++ others⟩ :=
  rfl

theorem append_assoc : first ++ second ++ third = first ++ (second ++ third) := by
  cases first
  cases second
  cases third
  simp [append_mk, append_assoc]

end StreamTextChunk

structure ExtractedInlineTag (T : Type) where
  tag : T
  content : Text
  deriving DecidableEq

structure InlineTagSpec (T : Type) where
  tag : T
  openText : Text
  closeText : Text
  open_ne : openText ≠ []
  close_ne : closeText ≠ []

structure ActiveTag (T : Type) where
  tag : T
  closeText : Text
  content : Text
  close_ne : closeText ≠ []

structure InlineHiddenTagParser (T : Type) where
  specs : List (InlineTagSpec T)
  pending : Text := []
  active : Option (ActiveTag T) := none

open Nat

namespace InlineHiddenTagParser

variable {T : Type}

def findNextOpen (parser : InlineHiddenTagParser T) : Option (Nat × InlineTagSpec T) :=
  ((parser.specs.zipIdx.filterMap fun entry =>
      (find entry.1.openText parser.pending).map fun pos => (pos, entry)).argmin
    fun found => toLex (found.1, toLex (OrderDual.toDual found.2.1.openText.length, found.2.2))).map
    fun found => (found.1, found.2.1)

def maxOpenPrefixSuffixLen (parser : InlineHiddenTagParser T) : Nat :=
  hold (parser.specs.map (·.openText)) parser.pending

def round (parser : InlineHiddenTagParser T) :
    Option (StreamTextChunk (ExtractedInlineTag T) × InlineHiddenTagParser T) :=
  match parser.active with
  | some active =>
    (find active.closeText parser.pending).map fun closeIdx =>
      ({ extracted := [⟨active.tag, active.content ++ parser.pending.take closeIdx⟩] },
        { parser with
          active := none
          pending := parser.pending.drop (closeIdx + active.closeText.length) })
  | none =>
    parser.findNextOpen.map fun found =>
      ({ visibleText := parser.pending.take found.1 }, { parser with
          active := some ⟨found.2.tag, found.2.closeText, [], found.2.close_ne⟩
          pending := parser.pending.drop (found.1 + found.2.openText.length) })

def drain (parser : InlineHiddenTagParser T) :
    StreamTextChunk (ExtractedInlineTag T) × InlineHiddenTagParser T :=
  match parser.active with
  | some active =>
    let keep := overlap parser.pending active.closeText
    let take := parser.pending.length - keep
    ({}, { parser with
      active := some { active with content := active.content ++ parser.pending.take take }
      pending := parser.pending.drop take })
  | none =>
    let take := parser.pending.length - parser.maxOpenPrefixSuffixLen
    ({ visibleText := parser.pending.take take },
      { parser with pending := parser.pending.drop take })

def rounds : (fuel : Nat) → InlineHiddenTagParser T →
    StreamTextChunk (ExtractedInlineTag T) × InlineHiddenTagParser T
  | 0, parser => parser.drain
  | fuel + 1, parser =>
    match parser.round with
    | none => parser.drain
    | some (out, next) => (out ++ (rounds fuel next).1, (rounds fuel next).2)

def pushStr (chunk : Text) (parser : InlineHiddenTagParser T) :
    StreamTextChunk (ExtractedInlineTag T) × InlineHiddenTagParser T :=
  let pending := parser.pending ++ chunk
  rounds pending.length { parser with pending := pending }

def finish (parser : InlineHiddenTagParser T) :
    StreamTextChunk (ExtractedInlineTag T) × InlineHiddenTagParser T :=
  match parser.active with
  | some active =>
    ({ extracted := [⟨active.tag, active.content ++ parser.pending⟩] },
      { parser with active := none, pending := [] })
  | none => ({ visibleText := parser.pending }, { parser with pending := [] })

def needles (parser : InlineHiddenTagParser T) : List Text :=
  match parser.active with
  | some active => [active.closeText]
  | none => parser.specs.map (·.openText)

structure Separated (specs : List (InlineTagSpec T)) : Prop where
  separate : Separate (specs.map (·.openText))
  distinct : (specs.map (·.openText)).Nodup

theorem Separated.singleton (spec : InlineTagSpec T) : Separated [spec] where
  separate := Separate.singleton spec.open_ne
  distinct := by simp

inductive Round (parser : InlineHiddenTagParser T) :
    StreamTextChunk (ExtractedInlineTag T) → InlineHiddenTagParser T → Prop
  | closes {active : ActiveTag T} {pos : Nat} (opened : parser.active = some active)
      (first : First [active.closeText] parser.pending pos active.closeText) :
      Round parser
        { extracted := [⟨active.tag, active.content ++ parser.pending.take pos⟩] }
        { parser with
          active := none
          pending := parser.pending.drop (pos + active.closeText.length) }
  | opens {spec : InlineTagSpec T} {pos : Nat} (closed : parser.active = none)
      (mem : spec ∈ parser.specs)
      (first : First (parser.specs.map (·.openText)) parser.pending pos
        spec.openText) :
      Round parser { visibleText := parser.pending.take pos }
        { parser with
          active := some ⟨spec.tag, spec.closeText, [], spec.close_ne⟩
          pending := parser.pending.drop (pos + spec.openText.length) }

variable {parser next : InlineHiddenTagParser T} {out : StreamTextChunk (ExtractedInlineTag T)}

theorem separate_needles (apart : Separated parser.specs) : Separate parser.needles := by
  rw [needles]
  cases parser.active with
  | some active => exact Separate.singleton active.close_ne
  | none => exact apart.separate

theorem mem_candidates {hit : Nat × InlineTagSpec T × Nat} :
    hit ∈ (parser.specs.zipIdx.filterMap fun ent =>
      (find ent.1.openText parser.pending).map fun pos => (pos, ent)) ↔
      hit.2 ∈ parser.specs.zipIdx ∧ find hit.2.1.openText parser.pending = some hit.1 := by
  obtain ⟨pos, ent⟩ := hit
  simp [mem_filterMap]

theorem first_of_findNextOpen {hit : Nat × InlineTagSpec T}
    (opening : parser.findNextOpen = some hit) :
    hit.2 ∈ parser.specs ∧
      First (parser.specs.map (·.openText)) parser.pending hit.1 hit.2.openText := by
  obtain ⟨best, least, rfl⟩ := map_eq_some_iff.mp opening
  obtain ⟨indexed, here⟩ := mem_candidates.mp (argmin_mem least)
  have first := first_of_find here
  have listed : best.2.1 ∈ parser.specs := fst_mem_of_mem_zipIdx indexed
  refine ⟨listed, mem_map_of_mem listed, first.occurs, ?_⟩
  intro old pre y opener occurs
  obtain ⟨spec, known, rfl⟩ := List.mem_map.mp opener
  obtain ⟨idx, place⟩ := mem_iff_getElem?.mp known
  cases there : find spec.openText parser.pending with
  | none =>
    exact absent_of_find spec.open_ne there old _ (mem_singleton_self _) occurs
  | some pos =>
    have cand := mem_candidates.mpr
      (⟨mk_mem_zipIdx_iff_getElem?.mpr place, there⟩ :
        (pos, spec, idx).2 ∈ parser.specs.zipIdx ∧ _)
    have least := le_of_mem_argmin cand least
    have ord : best.1 ≤ pos := (Prod.Lex.toLex_le_toLex.mp least).elim le_of_lt
      fun eq => eq.1.le
    have leftmost := (first_of_find there).earliest old (by omega) _
      (mem_singleton_self _)
    exact leftmost occurs

theorem absent_of_findNextOpen (missing : parser.findNextOpen = none) :
    Absent (parser.specs.map (·.openText)) parser.pending := by
  intro pos needle opener
  obtain ⟨spec, known, rfl⟩ := List.mem_map.mp opener
  obtain ⟨idx, place⟩ := mem_iff_getElem?.mp known
  refine absent_of_find spec.open_ne ?_ pos _ (mem_singleton_self _)
  have empty := argmin_eq_none.mp (map_eq_none_iff.mp missing)
  have refuted := filterMap_eq_nil_iff.mp empty (spec, idx)
    (mk_mem_zipIdx_iff_getElem?.mpr place)
  exact map_eq_none_iff.mp refuted

theorem round_of_round (hit : parser.round = some (out, next)) : Round parser out next := by
  rw [round] at hit
  cases opened : parser.active with
  | some active =>
    rw [opened] at hit
    obtain ⟨pos, here, eq⟩ := map_eq_some_iff.mp hit
    cases eq
    exact .closes opened (first_of_find here)
  | none =>
    rw [opened] at hit
    obtain ⟨opening, here, eq⟩ := map_eq_some_iff.mp hit
    cases eq
    obtain ⟨mem, first⟩ := first_of_findNextOpen here
    exact .opens opened mem first

theorem absent_of_round (missing : parser.round = none) : Absent parser.needles parser.pending := by
  rw [round] at missing
  rw [needles]
  cases opened : parser.active with
  | some active =>
    rw [opened] at missing
    exact absent_of_find active.close_ne (map_eq_none_iff.mp missing)
  | none =>
    rw [opened] at missing
    exact absent_of_findNextOpen (map_eq_none_iff.mp missing)

theorem Round.exists_first (hit : Round parser out next) :
    ∃ pos needle, First parser.needles parser.pending pos needle ∧
      next.pending = parser.pending.drop (pos + needle.length) := by
  cases hit with
  | @closes active pos opened first =>
    refine ⟨pos, active.closeText, ?_, rfl⟩
    rw [needles, opened]
    exact first
  | @opens spec pos closed mem first =>
    refine ⟨pos, spec.openText, ?_, rfl⟩
    rw [needles, closed]
    exact first

theorem round_of_described (apart : Separated parser.specs) (hit : Round parser out next) :
    parser.round = some (out, next) := by
  cases res : parser.round with
  | none =>
    obtain ⟨pos, needle, first, -⟩ := hit.exists_first
    exact absurd (absent_of_round res) first.not_absent
  | some y =>
    obtain ⟨otherOut, otherNext⟩ := y
    refine congrArg some ?_
    cases hit with
    | @closes active pos opened first =>
      cases round_of_round res with
      | @closes y again reopened second =>
        obtain rfl := some.inj (opened.symm.trans reopened)
        obtain ⟨rfl, -⟩ := first.unique second (Separate.singleton active.close_ne)
        rfl
      | opens closed _ _ => cases opened.symm.trans closed
    | @opens spec pos closed mem first =>
      cases round_of_round res with
      | closes reopened _ => cases closed.symm.trans reopened
      | @opens y again _ known second =>
        obtain ⟨rfl, eq⟩ := first.unique second apart.separate
        obtain rfl := inj_on_of_nodup_map apart.distinct mem known eq
        rfl

def extend (parser : InlineHiddenTagParser T) (more : Text) : InlineHiddenTagParser T :=
  { parser with pending := parser.pending ++ more }

def parse (parser : InlineHiddenTagParser T) :
    StreamTextChunk (ExtractedInlineTag T) × InlineHiddenTagParser T :=
  rounds parser.pending.length parser

theorem pushStr_eq (chunk : Text) (parser : InlineHiddenTagParser T) :
    pushStr chunk parser = parse (parser.extend chunk) :=
  rfl

theorem Round.specs_eq (hit : Round parser out next) : next.specs = parser.specs := by
  cases hit <;> rfl

theorem length_lt_of_round (apart : Separated parser.specs)
    (hit : parser.round = some (out, next)) : next.pending.length < parser.pending.length := by
  obtain ⟨pos, needle, first, tl⟩ := (round_of_round hit).exists_first
  obtain ⟨le, ne⟩ := first.lt_length (separate_needles apart)
  have positive := length_pos_of_ne_nil ne
  rw [tl, length_drop]
  omega

theorem rounds_eq_parse {fuel : Nat} (apart : Separated parser.specs)
    (enough : parser.pending.length ≤ fuel) : rounds fuel parser = parser.parse := by
  rw [parse]
  generalize size : parser.pending.length = length at enough
  induction length using Nat.strong_induction_on generalizing parser fuel with
  | _ length ih =>
    cases res : parser.round with
    | none => cases fuel <;> cases length <;> simp [rounds, res]
    | some hit =>
      obtain ⟨out, next⟩ := hit
      have smaller := length_lt_of_round apart res
      have specs := (round_of_round res).specs_eq
      obtain ⟨fuel, rfl⟩ := exists_eq_succ_of_ne_zero (show fuel ≠ 0 by omega)
      obtain ⟨length, rfl⟩ := exists_eq_succ_of_ne_zero (show length ≠ 0 by omega)
      have more := @ih next.pending.length (by omega) next fuel (specs ▸ apart) rfl
        (by omega)
      have less := @ih next.pending.length (by omega) next length (specs ▸ apart)
        rfl (by omega)
      simp [rounds, res, more, less]

theorem parse_of_none (missing : parser.round = none) : parser.parse = parser.drain := by
  rw [parse]
  cases parser.pending.length <;> simp [rounds, missing]

theorem parse_of_some (apart : Separated parser.specs) (hit : parser.round = some (out, next)) :
    parser.parse = (out ++ next.parse.1, next.parse.2) := by
  have smaller := length_lt_of_round apart hit
  have specs := (round_of_round hit).specs_eq
  rw [parse]
  obtain ⟨length, size⟩ := exists_eq_succ_of_ne_zero
    (show parser.pending.length ≠ 0 by omega)
  rw [size, rounds, hit]
  have tl := @rounds_eq_parse T next length (specs ▸ apart) (by omega)
  simp [tl]

theorem round_extend (apart : Separated parser.specs)
    (hit : parser.round = some (out, next)) (more : Text) :
    (parser.extend more).round = some (out, next.extend more) := by
  refine round_of_described apart ?_
  cases round_of_round hit with
  | @closes active pos opened first =>
    have within := (first.lt_length (Separate.singleton active.close_ne)).1
    have later := @Round.closes T (parser.extend more) active pos opened
      (first.append (Separate.singleton active.close_ne) more)
    simpa [extend, take_append_of_le_length (show pos ≤ parser.pending.length by omega),
      drop_append_of_le_length within] using later
  | @opens spec pos closed mem first =>
    have within := (first.lt_length apart.separate).1
    have later := @Round.opens T (parser.extend more) spec pos closed mem
      (first.append apart.separate more)
    simpa [extend, take_append_of_le_length (show pos ≤ parser.pending.length by omega),
      drop_append_of_le_length within] using later

theorem round_of_absent (absent : Absent parser.needles parser.pending) : parser.round = none := by
  cases res : parser.round with
  | none => rfl
  | some hit =>
    obtain ⟨pos, needle, first, -⟩ := (round_of_round res).exists_first
    exact absurd absent first.not_absent

def released (parser : InlineHiddenTagParser T) : Nat :=
  parser.pending.length - hold parser.needles parser.pending

theorem drain_of_active {active : ActiveTag T} (opened : parser.active = some active) :
    parser.drain = ({}, { parser with
        active := some { active with
          content := active.content ++ parser.pending.take parser.released }
        pending := parser.pending.drop parser.released }) := by
  simp [drain, opened, released, needles, hold_singleton]

theorem drain_of_inactive (closed : parser.active = none) : parser.drain =
      ({ visibleText := parser.pending.take parser.released },
        { parser with pending := parser.pending.drop parser.released }) := by
  rw [drain, released, needles, closed]
  rfl

theorem round_drain_extend (apart : Separated parser.specs) (missing : parser.round = none)
    {more : Text} (hit : (parser.drain.2.extend more).round = some (out, next)) :
    (parser.extend more).round = some (parser.drain.1 ++ out, next) := by
  have absent := absent_of_round missing
  refine round_of_described apart ?_
  cases opened : parser.active with
  | some active =>
    have ends : parser.needles = [active.closeText] := by rw [needles, opened]
    rw [drain_of_active opened] at hit ⊢
    rw [ends] at absent
    cases round_of_round hit with
    | @closes again pos reopened first =>
      obtain rfl := some.inj reopened
      simp only [extend, released, ends] at first
      have whole := first_released absent first
      have described := @Round.closes T (parser.extend more) active _ opened whole
      simpa only [extend, released, ends, take_append_add (sub_le _ _),
        Nat.add_assoc, drop_append_add (sub_le _ _), append_assoc,
        StreamTextChunk.append_mk, nil_append] using described
    | opens closed _ _ => cases closed
  | none =>
    have ends : parser.needles = parser.specs.map (·.openText) := by rw [needles, opened]
    rw [drain_of_inactive opened] at hit ⊢
    rw [ends] at absent
    cases round_of_round hit with
    | closes reopened _ => cases opened.symm.trans reopened
    | @opens spec pos closed mem first =>
      simp only [extend, released, ends] at first
      have whole := first_released absent first
      have described := @Round.opens T (parser.extend more) spec _ opened mem whole
      simpa only [extend, released, ends, take_append_add (sub_le _ _),
        Nat.add_assoc, drop_append_add (sub_le _ _), StreamTextChunk.append_mk,
        nil_append] using described

theorem drain_extend (separated : Separated parser.specs) (more : Text) :
    (parser.extend more).drain = (parser.drain.1 ++ (parser.drain.2.extend more).drain.1,
        (parser.drain.2.extend more).drain.2) := by
  have nonempty := (separate_needles separated).nonempty
  have taken := take_released nonempty parser.pending more
  have kept := drop_hold nonempty parser.pending more
  obtain ⟨specs, pend, active⟩ := parser
  cases active with
  | some active =>
    simp only [needles, hold_singleton] at taken kept
    simp only [drain, extend, taken, kept, StreamTextChunk.append_mk, append_assoc, nil_append]
  | none =>
    simp only [needles] at taken kept
    simp only [drain, extend, maxOpenPrefixSuffixLen, taken, kept, StreamTextChunk.append_mk,
      nil_append]

theorem specs_drain (parser : InlineHiddenTagParser T) : parser.drain.2.specs = parser.specs := by
  rw [drain]
  cases parser.active <;> rfl

theorem needles_drain (parser : InlineHiddenTagParser T) :
    parser.drain.2.needles = parser.needles := by
  rw [drain]
  cases opened : parser.active <;> simp [needles, opened]

theorem pending_drain (parser : InlineHiddenTagParser T) :
    parser.drain.2.pending = parser.pending.drop parser.released := by
  cases opened : parser.active with
  | some active => rw [drain_of_active opened]
  | none => rw [drain_of_inactive opened]

theorem parse_extend (apart : Separated parser.specs) (more : Text) :
    (parser.extend more).parse = (parser.parse.1 ++ (parser.parse.2.extend more).parse.1,
        (parser.parse.2.extend more).parse.2) := by
  induction size : parser.pending.length using Nat.strong_induction_on generalizing parser with
  | _ length ih =>
    cases res : parser.round with
    | some hit =>
      obtain ⟨out, next⟩ := hit
      have specs := (round_of_round res).specs_eq
      have shorter := length_lt_of_round apart res
      have tl := @ih next.pending.length (by omega) next (specs ▸ apart) rfl
      rw [@parse_of_some T (parser.extend more) _ _ apart
        (round_extend apart res more), parse_of_some apart res, tl,
        StreamTextChunk.append_assoc]
    | none =>
      rw [parse_of_none res]
      cases later : (parser.drain.2.extend more).round with
      | some hit =>
        obtain ⟨out, next⟩ := hit
        have specs : Separated (parser.drain.2.extend more).specs :=
          (specs_drain parser).symm ▸ apart
        rw [@parse_of_some T (parser.extend more) _ _ apart
          (round_drain_extend apart res later), parse_of_some specs later,
          StreamTextChunk.append_assoc]
      | none =>
        have absent : Absent parser.needles (parser.pending ++ more) := by
          refine absent_released (absent_of_round res) ?_
          have left : Absent parser.drain.2.needles
              (parser.drain.2.pending ++ more) := absent_of_round later
          rwa [needles_drain, pending_drain] at left
        rw [parse_of_none later, parse_of_none (@round_of_absent T (parser.extend more) absent),
          drain_extend apart]

def pushAll : List Text → InlineHiddenTagParser T →
    StreamTextChunk (ExtractedInlineTag T) × InlineHiddenTagParser T
  | [], parser => ({}, parser)
  | chunk :: chunks, parser =>
    ((pushStr chunk parser).1 ++ (pushAll chunks (pushStr chunk parser).2).1,
      (pushAll chunks (pushStr chunk parser).2).2)

/-- The earliest delimiter opens a tag, which ends at the first closing one or at the end. -/
inductive Scan (specs : List (InlineTagSpec T)) : Text → Text → List (ExtractedInlineTag T) → Prop
  | plain {text : Text} (absent : Absent (specs.map (·.openText)) text) :
      Scan specs text text []
  | unclosed {front content : Text} {spec : InlineTagSpec T} (mem : spec ∈ specs)
      (first : First (specs.map (·.openText)) (front ++ (spec.openText ++ content))
        front.length spec.openText)
      (absent : Absent [spec.closeText] content) :
      Scan specs (front ++ (spec.openText ++ content)) front [⟨spec.tag, content⟩]
  | closed {front content rest visible : Text} {hidden : List (ExtractedInlineTag T)}
      {spec : InlineTagSpec T} (mem : spec ∈ specs)
      (first : First (specs.map (·.openText))
        (front ++ (spec.openText ++ (content ++ (spec.closeText ++ rest)))) front.length
        spec.openText)
      (close : First [spec.closeText] (content ++ (spec.closeText ++ rest)) content.length
        spec.closeText)
      (remaining : Scan specs rest visible hidden) :
      Scan specs (front ++ (spec.openText ++ (content ++ (spec.closeText ++ rest))))
        (front ++ visible) (⟨spec.tag, content⟩ :: hidden)

def total (parser : InlineHiddenTagParser T) : StreamTextChunk (ExtractedInlineTag T) :=
  parser.parse.1 ++ parser.parse.2.finish.1

theorem extend_nil (parser : InlineHiddenTagParser T) : parser.extend [] = parser := by
  rw [extend, append_nil]

theorem extend_extend (parser : InlineHiddenTagParser T) (first second : Text) :
    (parser.extend first).extend second = parser.extend (first ++ second) := by
  rw [extend, extend, extend, append_assoc]

section

variable (apart : Separated parser.specs)
include apart

theorem specs_parse : parser.parse.2.specs = parser.specs := by
  induction size : parser.pending.length using Nat.strong_induction_on generalizing parser with
  | _ length ih =>
    cases res : parser.round with
    | none => rw [parse_of_none res, specs_drain]
    | some hit =>
      obtain ⟨out, next⟩ := hit
      have specs := (round_of_round res).specs_eq
      have shorter := length_lt_of_round apart res
      rw [parse_of_some apart res]
      exact (@ih _ (by omega) next (specs ▸ apart) rfl).trans specs

theorem parse_parse : parser.parse.2.parse = ({}, parser.parse.2) := by
  have again := parse_extend apart []
  rw [extend_nil, extend_nil] at again
  have out := congrArg Prod.fst again
  have st := congrArg Prod.snd again
  refine Prod.ext ?_ st.symm
  have visible := congrArg StreamTextChunk.visibleText out
  have hidden := congrArg StreamTextChunk.extracted out
  rw [StreamTextChunk.visibleText_append, self_eq_append_right] at visible
  rw [StreamTextChunk.extracted_append, self_eq_append_right] at hidden
  cases tl : parser.parse.2.parse.1 with
  | mk txt extracted =>
    rw [tl] at visible hidden
    cases visible
    cases hidden
    rfl

theorem pushAll_eq_parse (quiet : parser.parse = ({}, parser)) (chunks : List Text) :
    pushAll chunks parser = (parser.extend chunks.flatten).parse := by
  induction chunks generalizing parser with
  | nil => rw [pushAll, flatten_nil, extend_nil, quiet]
  | cons chunk chunks ih =>
    have specs := @specs_parse T (parser.extend chunk) apart
    have tl := @ih (parser.extend chunk).parse.2 (specs ▸ apart)
      (parse_parse (show Separated (parser.extend chunk).specs from apart))
    rw [pushAll, pushStr_eq, tl, flatten_cons, ← extend_extend,
      parse_extend (show Separated (parser.extend chunk).specs from apart)]

theorem total_of_some
    (hit : parser.round = some (out, next)) : parser.total = out ++ next.total := by
  rw [total, parse_of_some apart hit, total, StreamTextChunk.append_assoc]

theorem total_of_closed (closed : parser.active = none) :
    Absent (parser.specs.map (·.openText)) parser.pending ∧ parser.total = ⟨parser.pending, []⟩ ∨
      ∃ spec ∈ parser.specs, ∃ front tl, parser.pending = front ++ (spec.openText ++ tl) ∧
        First (parser.specs.map (·.openText)) parser.pending front.length spec.openText ∧
        parser.total = ⟨front, []⟩ ++
          total ⟨parser.specs, tl, some ⟨spec.tag, spec.closeText, [], spec.close_ne⟩⟩ := by
  cases res : parser.round with
  | none =>
    refine Or.inl ⟨?_, ?_⟩
    · have absent := absent_of_round res
      rwa [needles, closed] at absent
    rw [total, parse_of_none res, drain_of_inactive closed]
    simp [finish, closed, StreamTextChunk.append_mk]
  | some hit =>
    obtain ⟨out, next⟩ := hit
    rw [total_of_some apart res]
    cases round_of_round res with
    | closes opened _ => cases closed.symm.trans opened
    | @opens spec pos _ mem first =>
      obtain ⟨txt, front⟩ := first.split apart.separate
      refine Or.inr ⟨spec, mem, _, _, txt, ?_, rfl⟩
      rwa [front]

end

theorem total_of_opened {active : ActiveTag T} (apart : Separated parser.specs)
    (opened : parser.active = some active) (fresh : active.content = []) :
    Absent [active.closeText] parser.pending ∧ parser.total = ⟨[], [⟨active.tag, parser.pending⟩]⟩ ∨
      ∃ cont tl, parser.pending = cont ++ (active.closeText ++ tl) ∧
        First [active.closeText] parser.pending cont.length active.closeText ∧
        parser.total = ⟨[], [⟨active.tag, cont⟩]⟩ ++ total ⟨parser.specs, tl, none⟩ := by
  cases res : parser.round with
  | none =>
    refine Or.inl ⟨?_, ?_⟩
    · have absent := absent_of_round res
      rwa [needles, opened] at absent
    rw [total, parse_of_none res, drain_of_active opened]
    simp [finish, fresh, StreamTextChunk.append_mk]
  | some hit =>
    obtain ⟨out, next⟩ := hit
    rw [total_of_some apart res]
    cases round_of_round res with
    | opens closed _ _ => cases opened.symm.trans closed
    | @closes y pos reopened first =>
      obtain rfl := some.inj (opened.symm.trans reopened)
      obtain ⟨txt, cont⟩ := first.split (Separate.singleton active.close_ne)
      refine Or.inr ⟨_, _, txt, ?_, ?_⟩
      · rwa [cont]
      · rw [fresh, nil_append]

theorem scan_total {specs : List (InlineTagSpec T)} (apart : Separated specs) (txt : Text) :
    Scan specs txt (total ⟨specs, txt, none⟩).visibleText (total ⟨specs, txt, none⟩).extracted := by
  induction size : txt.length using Nat.strong_induction_on generalizing txt with
  | _ length ih =>
    rcases @total_of_closed T ⟨specs, txt, none⟩ apart rfl with
      ⟨absent, res⟩ | ⟨spec, mem, front, tl, split, first, res⟩
    · rw [res]
      exact .plain absent
    dsimp only at split
    subst split
    rw [res]
    rcases @total_of_opened T ⟨specs, tl, some ⟨spec.tag, spec.closeText, [],
      spec.close_ne⟩⟩ _ apart rfl rfl with
      ⟨absent, inner⟩ | ⟨cont, after, split, close, inner⟩
    · rw [inner]
      simpa using Scan.unclosed mem first absent
    dsimp only at split
    subst split
    rw [inner]
    have lt : after.length < length := by
      have positive := length_pos_of_ne_nil spec.open_ne
      simp only [length_append] at size
      omega
    simpa using Scan.closed mem first close (ih after.length lt after rfl)

def OpenersApart (first second : InlineTagSpec T) : Prop :=
  ¬ first.openText <:+: second.openText ∧ ¬ second.openText <:+: first.openText

instance : Std.Symm (OpenersApart (T := T)) where
  symm _ _ far := ⟨far.2, far.1⟩

instance (first second : InlineTagSpec T) : Decidable (OpenersApart first second) :=
  inferInstanceAs (Decidable (_ ∧ _))

def Apart (specs : List (InlineTagSpec T)) : Prop :=
  specs.Pairwise OpenersApart

instance (specs : List (InlineTagSpec T)) : Decidable (Apart specs) :=
  inferInstanceAs (Decidable (specs.Pairwise OpenersApart))

section

variable {specs : List (InlineTagSpec T)}

theorem Apart.separated (apart : Apart specs) : Separated specs where
  distinct := by
    rw [List.Nodup, pairwise_map]
    apply apart.imp
    intro first second far eq
    exact far.1 (eq ▸ infix_rfl)
  separate :=
    { nonempty := by
        intro empty
        obtain ⟨spec, -, isEmpty⟩ := List.mem_map.mp empty
        exact spec.open_ne isEmpty
      apart := by
        intro first firstMember second secondMember ins
        obtain ⟨one, oneMember, rfl⟩ := List.mem_map.mp firstMember
        obtain ⟨other, mem2, rfl⟩ := List.mem_map.mp secondMember
        by_contra ne
        have far : OpenersApart one other :=
          List.Pairwise.forall apart oneMember mem2 fun eq => ne (eq ▸ rfl)
        exact far.1 ins }

section

variable (apart : Separated specs)
include apart

theorem total_of_first_open {front tl : Text} {spec : InlineTagSpec T} (mem : spec ∈ specs)
    (first : First (specs.map (·.openText)) (front ++ (spec.openText ++ tl))
      front.length spec.openText) :
    total ⟨specs, front ++ (spec.openText ++ tl), none⟩ =
      ⟨front, []⟩ ++ total ⟨specs, tl, some ⟨spec.tag, spec.closeText, [], spec.close_ne⟩⟩ := by
  rcases @total_of_closed T ⟨specs, front ++ (spec.openText ++ tl), none⟩ apart rfl with
    ⟨absent, -⟩ | ⟨other, otherMember, pre, after, split, taken, res⟩
  · exact absurd absent first.not_absent
  obtain ⟨place, eq⟩ := first.unique taken apart.separate
  obtain rfl : spec = other := inj_on_of_nodup_map apart.distinct mem otherMember eq
  obtain ⟨rfl, left⟩ := append_inj split place
  obtain rfl := append_cancel_left left
  exact res

theorem total_of_first_close {cont tl : Text} {spec : InlineTagSpec T}
    (first : First [spec.closeText] (cont ++ (spec.closeText ++ tl))
      cont.length spec.closeText) :
    total ⟨specs, cont ++ (spec.closeText ++ tl),
        some ⟨spec.tag, spec.closeText, [], spec.close_ne⟩⟩ =
      ⟨[], [⟨spec.tag, cont⟩]⟩ ++ total ⟨specs, tl, none⟩ := by
  rcases @total_of_opened T ⟨specs, cont ++ (spec.closeText ++ tl),
      some ⟨spec.tag, spec.closeText, [], spec.close_ne⟩⟩ _ apart rfl rfl with
    ⟨absent, -⟩ | ⟨pre, after, split, taken, res⟩
  · exact absurd absent first.not_absent
  obtain ⟨place, -⟩ := first.unique taken (Separate.singleton spec.close_ne)
  obtain ⟨rfl, left⟩ := append_inj split place
  obtain rfl := append_cancel_left left
  exact res

theorem total_of_scan {txt visible : Text} {hidden : List (ExtractedInlineTag T)}
    (scan : Scan specs txt visible hidden) :
    total ⟨specs, txt, none⟩ = ⟨visible, hidden⟩ := by
  induction scan with
  | @plain txt absent =>
    rcases @total_of_closed T ⟨specs, txt, none⟩ apart rfl with
      ⟨-, res⟩ | ⟨spec, -, front, tl, -, first, -⟩
    · exact res
    · exact absurd absent first.not_absent
  | @unclosed front cont spec mem first absent =>
    rw [total_of_first_open apart mem first]
    rcases @total_of_opened T ⟨specs, cont,
        some ⟨spec.tag, spec.closeText, [], spec.close_ne⟩⟩ _ apart rfl rfl with
      ⟨-, res⟩ | ⟨pre, after, -, close, -⟩
    · rw [res, StreamTextChunk.append_mk, append_nil, nil_append]
    · exact absurd absent close.not_absent
  | @closed front cont tl visible hidden spec mem first close remaining ih =>
    rw [total_of_first_open apart mem first, total_of_first_close apart close, ih]
    rfl

def accumulated (specs : List (InlineTagSpec T)) (chunks : List Text) :
    StreamTextChunk (ExtractedInlineTag T) :=
  let pushed := pushAll chunks { specs := specs }
  pushed.1 ++ pushed.2.finish.1

theorem parse_fresh :
    parse (⟨specs, [], none⟩ : InlineHiddenTagParser T) = ({}, ⟨specs, [], none⟩) := by
  have absent : Absent (needles (⟨specs, [], none⟩ : InlineHiddenTagParser T)) [] := by
    intro pos needle mem occurs
    rw [drop_nil, prefix_nil] at occurs
    exact apart.separate.nonempty (occurs ▸ mem)
  rw [parse_of_none (round_of_absent absent), drain_of_inactive rfl]
  simp

end

/-- What is shown and hidden is the one scan of the whole text, however it is cut. -/
theorem accumulated_iff_scan (apart : Apart specs) (chunks : List Text)
    (out : StreamTextChunk (ExtractedInlineTag T)) :
    accumulated specs chunks = out ↔ Scan specs chunks.flatten out.visibleText out.extracted := by
  have whole : accumulated specs chunks = total ⟨specs, chunks.flatten, none⟩ := by
    rw [accumulated, pushAll_eq_parse apart.separated (parse_fresh apart.separated)]
    rfl
  rw [whole]
  constructor
  · rintro rfl
    exact scan_total apart.separated chunks.flatten
  intro scan
  exact total_of_scan apart.separated scan

end

def sampleSpec : InlineTagSpec Bool where
  tag := true
  openText := "<a>"
  closeText := "aab"
  open_ne := by decide
  close_ne := by decide

def otherSampleSpec : InlineTagSpec Bool where
  tag := false
  openText := "<é>"
  closeText := "é"
  open_ne := by decide
  close_ne := by decide

theorem accumulated_iff_scan_twoTags : Apart [sampleSpec, otherSampleSpec] ∧
      Scan [sampleSpec, otherSampleSpec] "x<a>aaaby<é>zéw<a>v" "xyw"
        [⟨true, "a"⟩, ⟨false, "z"⟩, ⟨true, "v"⟩] := by
  have apart : Apart [sampleSpec, otherSampleSpec] := by decide
  exact ⟨apart, (accumulated_iff_scan apart
    ["x<", "a>aa", "aby<é", ">zéw<a", ">v"]
    ⟨"xyw", [⟨true, "a"⟩, ⟨false, "z"⟩, ⟨true, "v"⟩]⟩).mp
      (by decide +kernel)⟩

end InlineHiddenTagParser
end Codex.StreamParser
