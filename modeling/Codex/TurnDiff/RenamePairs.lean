import Codex.Foundation.Lists
import Codex.TurnDiff.NetChange

/-!
# Renames

A move is shown as a rename if its origin is gone and its destination is new.
-/

namespace Codex.TurnDiff

open ApplyPatch List Option

open Map

namespace TurnDiffTracker

variable {P : Type} [DecidableEq P]

structure Paired (turn : TurnDiffTracker P) (originPath destPath : TrackedPath P) : Prop where
  origin : turn.originByCurrentPath.lookup destPath = some originPath
  other : destPath ≠ originPath
  gone : turn.currentByPath.lookup originPath = none
  present : turn.currentByPath.lookup destPath ≠ none
  existed : turn.baselineByPath.lookup originPath ≠ none
  created : turn.baselineByPath.lookup destPath = none

def OriginsDistinct (turn : TurnDiffTracker P) : Prop :=
  ∀ first snd origin, turn.originByCurrentPath.lookup first = some origin →
    turn.originByCurrentPath.lookup snd = some origin → first = snd

/-- The path is not the origin of another file, or the file has an origin itself. -/
def MovesUnclaimed (turn : TurnDiffTracker P) (envId : Text)
    (change : AppliedPatchChange P) : Prop :=
  match change.change with
  | .update (some movePath) _ _ _ =>
    movePath ≠ change.path → turn.originByCurrentPath.lookup ⟨envId, change.path⟩ = none →
        ∀ other, turn.originByCurrentPath.lookup other = some ⟨envId, change.path⟩ →
          other = ⟨envId, movePath⟩
  | _ => True

theorem originByCurrentPath_captureBaseline (turn : TurnDiffTracker P) (path : TrackedPath P)
    (held : Option Text) :
    (turn.captureBaseline path held).originByCurrentPath = turn.originByCurrentPath :=
  turn.view_captureBaseline path held (·.originByCurrentPath) fun _ => rfl

variable {turn : TurnDiffTracker P} {render : Renderer P}

theorem OriginsDistinct.congr {after : TurnDiffTracker P} (nodup : OriginsDistinct turn)
    (eq : after.originByCurrentPath = turn.originByCurrentPath) : OriginsDistinct after := by
  unfold OriginsDistinct
  rw [eq]
  exact nodup

theorem OriginsDistinct.removeOrigin (nodup : OriginsDistinct turn) (path : TrackedPath P) :
    OriginsDistinct (turn.removeOrigin path) := by
  intro fst snd origin left right
  exact nodup fst snd origin (of_lookup_erase left).2 (of_lookup_erase right).2

theorem originByCurrentPath_applyMove (turn : TurnDiffTracker P)
    (src destPath : TrackedPath P) (old : Option Text) (new : Text) (path : TrackedPath P) :
    (turn.applyMove src destPath old
        new).originByCurrentPath.lookup path =
      if path = destPath then
        if destPath = (turn.originByCurrentPath.lookup src).getD src then none
        else some ((turn.originByCurrentPath.lookup src).getD src)
      else if path = src then none else turn.originByCurrentPath.lookup path := by
  have captured := turn.originByCurrentPath_captureBaseline destPath old
  unfold applyMove
  dsimp only
  generalize turn.captureBaseline destPath old = pre at captured ⊢
  rw [captured]
  have gone : ((pre.originByCurrentPath.erase src).erase destPath).lookup path =
      if path = destPath then none
      else if path = src then none else turn.originByCurrentPath.lookup path := by
    rw [lookup_erase, lookup_erase, captured]
  split
  · change Finmap.lookup path (Finmap.insert destPath _
      ((pre.originByCurrentPath.erase src).erase destPath)) = _
    rw [lookup_insert, gone]
    split <;> rfl
  rename_i out
  rw [if_pos (not_not.mp out)]
  exact gone

theorem OriginsDistinct.applyMove_iff (nodup : OriginsDistinct turn)
    (sourcePath destPath : TrackedPath P) (old : Option Text) (newContent : Text) :
    OriginsDistinct (turn.applyMove sourcePath destPath old newContent) ↔
      (destPath ≠ sourcePath → turn.originByCurrentPath.lookup sourcePath = none →
        ∀ y, turn.originByCurrentPath.lookup y = some sourcePath → y = destPath) := by
  have moved := originByCurrentPath_applyMove turn sourcePath destPath old
    newContent
  constructor
  · intro after ne absent y claimed
    by_contra off
    have away : y ≠ sourcePath := by
      rintro rfl
      rw [absent] at claimed
      cases claimed
    have here := moved destPath
    rw [if_pos rfl, absent, getD_none, if_neg ne] at here
    have there := moved y
    rw [if_neg off, if_neg away, claimed] at there
    exact off (after y destPath sourcePath there here)
  intro free
  -- The new entry of the destination shares its origin with no entry that stays.
  have fresh : ∀ y origin, y ≠ destPath → y ≠ sourcePath →
      turn.originByCurrentPath.lookup y = some origin →
      (if destPath = (turn.originByCurrentPath.lookup sourcePath).getD sourcePath then none
        else some ((turn.originByCurrentPath.lookup sourcePath).getD sourcePath)) ≠
        some origin := by
    intro y origin off away kept eq
    split at eq
    · cases eq
    rename_i changed
    cases hit : turn.originByCurrentPath.lookup sourcePath with
    | none =>
      rw [hit, getD_none] at eq changed
      cases eq
      exact off (free changed hit y kept)
    | some earlier =>
      rw [hit, getD_some] at eq
      cases eq
      exact away (nodup y sourcePath _ kept hit)
  intro fst snd origin left right
  rw [moved] at left right
  by_cases atFirst : fst = destPath <;> by_cases atSecond : snd = destPath
  · rw [atFirst, atSecond]
  · rw [if_pos atFirst] at left
    rw [if_neg atSecond] at right
    split at right
    · cases right
    rename_i away
    exact absurd left (fresh snd origin atSecond away right)
  · rw [if_neg atFirst] at left
    rw [if_pos atSecond] at right
    split at left
    · cases left
    rename_i away
    exact absurd right (fresh fst origin atFirst away left)
  rw [if_neg atFirst] at left
  rw [if_neg atSecond] at right
  split at left
  · cases left
  split at right
  · cases right
  · exact nodup fst snd origin left right

/-- Origins stay distinct exactly if no file without one is moved away from the origin of another.
-/
theorem OriginsDistinct.applyChange_iff (nodup : OriginsDistinct turn) (envId : Text)
    (change : AppliedPatchChange P) :
    OriginsDistinct (turn.applyChange envId change) ↔ MovesUnclaimed turn envId change := by
  obtain ⟨path, change⟩ := change
  cases change with
  | add body overwrittenContent =>
    refine iff_of_true ((nodup.removeOrigin ⟨envId, path⟩).congr ?_) trivial
    exact originByCurrentPath_captureBaseline _ _ _
  | delete body =>
    refine iff_of_true ((nodup.removeOrigin ⟨envId, path⟩).congr ?_) trivial
    simp only [applyChange, applyDelete]
    split <;> rfl
  | update movePath oldContent old new =>
    have captured := turn.originByCurrentPath_captureBaseline ⟨envId, path⟩
      (some oldContent)
    cases movePath with
    | none => exact iff_of_true (nodup.congr captured) trivial
    | some movePath =>
      have step := (nodup.congr captured).applyMove_iff ⟨envId, path⟩
        ⟨envId, movePath⟩ old new
      rw [captured] at step
      refine step.trans ?_
      simp [MovesUnclaimed]

def UnclaimedChanges (envId : Text) : List (AppliedPatchChange P) → TurnDiffTracker P → Prop
  | [], _ => True
  | change :: changes, turn =>
    MovesUnclaimed turn envId change ∧
      UnclaimedChanges envId changes (turn.applyChange envId change)

/-- No move starts from a path that is the origin of another. -/
def UnclaimedDeltas (render : Renderer P) :
    List (Text × AppliedPatchDelta P) → TurnDiffTracker P → Prop
  | [], _ => True
  | (envId, delta) :: deltas, turn =>
    UnclaimedChanges envId delta.changes turn ∧
      UnclaimedDeltas render deltas (turn.trackDelta render envId delta)

theorem OriginsDistinct.applyChanges (nodup : OriginsDistinct turn) (envId : Text)
    {changes : List (AppliedPatchChange P)} (free : UnclaimedChanges envId changes turn) :
    OriginsDistinct (changes.foldl (fun turn change => turn.applyChange envId change) turn) := by
  induction changes generalizing turn with
  | nil => exact nodup
  | cons change changes ih =>
    exact ih ((nodup.applyChange_iff envId change).mpr free.1) free.2

theorem OriginsDistinct.trackDeltas (nodup : OriginsDistinct turn)
    {deltas : List (Text × AppliedPatchDelta P)} (free : UnclaimedDeltas render deltas turn) :
    OriginsDistinct (turn.trackDeltas render deltas) := by
  induction deltas generalizing turn with
  | nil => exact nodup
  | cons delta deltas ih =>
    refine ih ?_ free.2
    change OriginsDistinct (turn.trackDelta render delta.1 delta.2)
    rw [TurnDiffTracker.trackDelta]
    split
    · exact nodup
    split
    · exact nodup
    · exact nodup.applyChanges delta.1 free.1

section

variable {originPath destPath : TrackedPath P}

theorem paired_iff : Paired turn originPath destPath ↔
    turn.originByCurrentPath.lookup destPath = some originPath ∧
      (decide (destPath = originPath) || (turn.currentByPath.lookup originPath).isSome ||
        (turn.currentByPath.lookup destPath).isNone ||
        (turn.baselineByPath.lookup originPath).isNone ||
        (turn.baselineByPath.lookup destPath).isSome) = false := by
  constructor
  · rintro ⟨origin, y, gone, has, existed, created⟩
    obtain ⟨now, cur⟩ := ne_none_iff_exists'.mp has
    obtain ⟨pre, baseline⟩ := ne_none_iff_exists'.mp existed
    exact ⟨origin, by simp [y, gone, cur, baseline, created]⟩
  rintro ⟨origin, passes⟩
  simp only [Bool.or_eq_false_iff, decide_eq_false_iff_not, isSome_eq_false_iff,
    isNone_iff_eq_none, isNone_eq_false_iff] at passes
  obtain ⟨⟨⟨⟨y, gone⟩, has⟩, existed⟩, created⟩ := passes
  exact ⟨origin, y, gone, isSome_iff_ne_none.mp has, isSome_iff_ne_none.mp existed, created⟩

instance : Decidable (Paired turn originPath destPath) := decidable_of_iff _ paired_iff.symm

def addPair (turn : TurnDiffTracker P) (pairs : Map (TrackedPath P) (TrackedPath P))
    (destPath : TrackedPath P) : Map (TrackedPath P) (TrackedPath P) :=
  match turn.originByCurrentPath.lookup destPath with
  | none => pairs
  | some originPath =>
    if Paired turn originPath destPath then pairs.insert originPath destPath else pairs

theorem lookup_addPair (turn : TurnDiffTracker P) (pairs : Map (TrackedPath P) (TrackedPath P))
    (destPath originPath : TrackedPath P) :
    (addPair turn pairs destPath).lookup originPath =
      if Paired turn originPath destPath then some destPath else pairs.lookup originPath := by
  unfold addPair
  cases hit : turn.originByCurrentPath.lookup destPath with
  | none =>
    rw [if_neg]
    rintro ⟨origin, -⟩
    rw [hit] at origin
    cases origin
  | some known =>
    dsimp only
    by_cases eq : originPath = known
    · subst eq
      split
      · rw [lookup_insert, if_pos rfl]
      · rfl
    rw [if_neg fun paired : Paired turn originPath destPath =>
      eq (Option.some.inj (paired.origin.symm.trans hit))]
    split
    · rw [lookup_insert, if_neg eq]
    · rfl

theorem renamePairs_eq (render : Renderer P) (turn : TurnDiffTracker P) : turn.renamePairs render =
      (render.enumerate turn.originByCurrentPath.keys).foldl (addPair turn) ∅ := by
  have step : ∀ pairs destPath, addPair turn pairs destPath =
      match turn.originByCurrentPath.lookup destPath with
      | none => pairs
      | some originPath =>
        if destPath = originPath || (turn.currentByPath.lookup originPath).isSome ||
            (turn.currentByPath.lookup destPath).isNone ||
            (turn.baselineByPath.lookup originPath).isNone ||
            (turn.baselineByPath.lookup destPath).isSome then pairs
        else pairs.insert originPath destPath := by
    intro pairs destPath
    unfold addPair
    cases hit : turn.originByCurrentPath.lookup destPath with
    | none => rfl
    | some originPath =>
      dsimp only
      by_cases paired : Paired turn originPath destPath
      · rw [if_pos paired, (paired_iff.mp paired).2]
        rfl
      rw [if_neg paired, if_pos]
      by_contra passes
      exact paired (paired_iff.mpr ⟨hit, Bool.eq_false_iff.mpr passes⟩)
  rw [funext fun pairs => funext fun destPath => step pairs destPath]
  rfl

variable {dests : List (TrackedPath P)} {pairs : Map (TrackedPath P) (TrackedPath P)}

theorem lookup_foldl_addPair
    (hit : (dests.foldl (addPair turn) pairs).lookup originPath = some destPath) :
    destPath ∈ dests ∧ Paired turn originPath destPath ∨
      pairs.lookup originPath = some destPath := by
  induction dests generalizing pairs with
  | nil => exact .inr hit
  | cons fst dests ih =>
    rcases ih hit with ⟨mem, paired⟩ | earlier
    · exact .inl ⟨mem_cons_of_mem fst mem, paired⟩
    rw [lookup_addPair] at earlier
    split at earlier
    · rename_i paired
      cases earlier
      exact .inl ⟨mem_cons_self, paired⟩
    · exact .inr earlier

theorem isSome_foldl_addPair (known : (pairs.lookup originPath).isSome = true ∨
      destPath ∈ dests ∧ Paired turn originPath destPath) :
    ((dests.foldl (addPair turn) pairs).lookup originPath).isSome = true := by
  induction dests generalizing pairs with
  | nil => exact known.resolve_right fun never => not_mem_nil never.1
  | cons fst dests ih =>
    refine ih ?_
    rw [lookup_addPair]
    rcases known with known | ⟨mem, paired⟩
    · left
      split
      · rfl
      · exact known
    rcases mem_cons.mp mem with rfl | later
    · left
      rw [if_pos paired]
      rfl
    · exact .inr ⟨later, paired⟩

theorem paired_of_renamePairs (hit : (turn.renamePairs render).lookup originPath = some destPath) :
    Paired turn originPath destPath := by
  rw [renamePairs_eq] at hit
  rcases lookup_foldl_addPair hit with ⟨-, paired⟩ | never
  · exact paired
  · cases never

theorem OriginsDistinct.renamePairs_iff (nodup : OriginsDistinct turn) :
    (turn.renamePairs render).lookup originPath = some destPath ↔
      Paired turn originPath destPath := by
  refine ⟨paired_of_renamePairs, fun paired => ?_⟩
  have listed : destPath ∈ render.enumerate turn.originByCurrentPath.keys :=
    (render.mem_enumerate _ _).mpr
      (Finmap.mem_keys.mpr (Finmap.mem_of_lookup_eq_some paired.origin))
  have known : ((turn.renamePairs render).lookup originPath).isSome = true := by
    rw [renamePairs_eq]
    exact isSome_foldl_addPair (.inr ⟨listed, paired⟩)
  obtain ⟨y, hit⟩ := isSome_iff_exists.mp known
  rw [hit, nodup y destPath originPath (paired_of_renamePairs hit).origin paired.origin]

end

variable (render : Renderer P) (turn : TurnDiffTracker P)

def aggregate (shown : List (TrackedPath P × TrackedPath P)) (aggregated : Text) : Text :=
  shown.foldl (fun aggregated pair => appendDiff aggregated
    (turn.renderDiff render pair.1
      ((turn.baselineByPath.lookup pair.1).map (·.content)) pair.2
      ((turn.currentByPath.lookup pair.2).map (·.content)))) aggregated

theorem aggregatePath_shows
    {renamePairs : Map (TrackedPath P) (TrackedPath P)} {pairedDestinations : List (TrackedPath P)}
    (dests : ∀ origin tgt, renamePairs.lookup origin = some tgt → tgt ∈ pairedDestinations)
    (paths : List (TrackedPath P)) {st : Aggregation P} (uncached : st.previousDiffs = ∅) :
    ∃ shown : List (TrackedPath P), shown.Nodup ∧ (∀ path, path ∈ shown ↔
        path ∈ paths ∧ path ∉ pairedDestinations ∧ path ∉ st.handled) ∧
      (paths.foldl (turn.aggregatePath render renamePairs pairedDestinations)
          st).aggregated =
        turn.aggregate render
          (shown.map fun path => (path, (renamePairs.lookup path).getD path)) st.aggregated := by
  induction paths generalizing st with
  | nil => exact ⟨[], nodup_nil, fun path => by simp, rfl⟩
  | cons fst paths ih =>
    rw [foldl_cons, aggregatePath_eq]
    by_cases handled : fst ∈ st.handled
    · obtain ⟨shown, once, members, txt⟩ := ih uncached
      refine ⟨shown, once, fun path => ?_, ?_⟩
      · rw [members, mem_cons]
        constructor
        · exact fun ⟨later, unpaired, fresh⟩ => ⟨.inr later, unpaired, fresh⟩
        rintro ⟨rfl | later, unpaired, fresh⟩
        · exact absurd handled fresh
        · exact ⟨later, unpaired, fresh⟩
      rw [if_pos handled]
      exact txt
    rw [if_neg handled]
    by_cases paired : fst ∈ pairedDestinations
    · obtain ⟨shown, once, members, txt⟩ :=
        @ih { st with handled := fst :: st.handled } uncached
      refine ⟨shown, once, fun path => ?_, ?_⟩
      · rw [members, mem_cons, mem_cons, not_or]
        constructor
        · exact fun ⟨later, unpaired, _, fresh⟩ => ⟨.inr later, unpaired, fresh⟩
        rintro ⟨rfl | later, unpaired, fresh⟩
        · exact absurd paired unpaired
        · exact ⟨later, unpaired, fun eq => unpaired (eq ▸ paired), fresh⟩
      rw [if_pos paired]
      exact txt
    rw [if_neg paired]
    have absent : st.previousDiffs.lookup
        (turn.pairKey fst ((renamePairs.lookup fst).getD fst)) = none := by
      rw [uncached]
      exact Finmap.lookup_empty _
    obtain ⟨shown, once, members, txt⟩ := @ih
      (draw render turn fst ((renamePairs.lookup fst).getD fst)
        ((renamePairs.lookup fst).toList ++ fst :: st.handled) st)
      ((erase_eq_self absent).trans uncached)
    -- The destination of the pair is never shown on its own, so only the path itself counts.
    have kept : ∀ path ∉ pairedDestinations, path ∉ (renamePairs.lookup fst).toList ++
        fst :: st.handled ↔ path ≠ fst ∧ path ∉ st.handled := by
      intro path unpaired
      have off : path ∉ (renamePairs.lookup fst).toList := by
        intro mem
        exact unpaired (dests fst path (mem_toList.mp mem))
      rw [mem_append, mem_cons, not_or, not_or]
      exact and_iff_right off
    refine ⟨fst :: shown, nodup_cons.mpr ⟨?_, once⟩, fun path => ?_, ?_⟩
    · intro again
      obtain ⟨-, unpaired, fresh⟩ := (members fst).mp again
      exact ((kept fst unpaired).mp fresh).1 rfl
    · rw [mem_cons, members, mem_cons]
      constructor
      · rintro (rfl | ⟨later, unpaired, fresh⟩)
        · exact ⟨.inl rfl, paired, handled⟩
        · exact ⟨.inr later, unpaired, ((kept path unpaired).mp fresh).2⟩
      rintro ⟨here | later, unpaired, fresh⟩
      · exact .inl here
      by_cases eq : path = fst
      · exact .inl eq
      · exact .inr ⟨later, unpaired, (kept path unpaired).mpr ⟨eq, fresh⟩⟩
    rw [txt]
    change turn.aggregate render _ (appendDiff st.aggregated
      ((st.previousDiffs.lookup _).getD _)) = _
    rw [absent]
    rfl

def Touches (path : TrackedPath P) : Prop :=
  turn.baselineByPath.lookup path ≠ none ∨ turn.currentByPath.lookup path ≠ none

/-- Every touched path is in exactly one pair, with itself or of a rename. -/
def ShowsOnce : Prop :=
  ∃ shown : List (TrackedPath P × TrackedPath P), shown.Nodup ∧
    (∀ pair ∈ shown, pair.1 = pair.2 ∨ Paired turn pair.1 pair.2) ∧
    (∀ path, turn.Touches path → ∃! pair, pair ∈ shown ∧ (pair.1 = path ∨ pair.2 = path)) ∧
    turn.unifiedDiff =
      if (turn.aggregate render shown []).isEmpty then none
      else some (turn.aggregate render shown [])

theorem mem_displayOrder (path : TrackedPath P) :
    path ∈ turn.displayOrder render ↔ turn.Touches path := by
  rw [displayOrder, mem_eraseReps, mem_insertionSort, mem_append, render.mem_enumerate,
    render.mem_enumerate, Finmap.mem_keys, Finmap.mem_keys, ← Finmap.lookup_isSome,
    ← Finmap.lookup_isSome, isSome_iff_ne_none, isSome_iff_ne_none]
  rfl

theorem mem_pairedDestinations
    (renamePairs : Map (TrackedPath P) (TrackedPath P)) (destPath : TrackedPath P) :
    destPath ∈ (render.enumerate renamePairs.keys).filterMap
        (fun origin => renamePairs.lookup origin) ↔
      ∃ originPath, renamePairs.lookup originPath = some destPath := by
  rw [mem_filterMap]
  refine exists_congr fun originPath => and_iff_right_of_imp fun hit => ?_
  exact (render.mem_enumerate _ _).mpr
    (Finmap.mem_keys.mpr (Finmap.mem_of_lookup_eq_some hit))

theorem existsUnique_shown {shown : List (TrackedPath P)}
    (members : ∀ path, path ∈ shown ↔ turn.Touches path ∧
      ¬∃ originPath, (turn.renamePairs render).lookup originPath = some path)
    {path : TrackedPath P} (touched : turn.Touches path) :
    ∃! pair, pair ∈ (shown.map fun path =>
        (path, ((turn.renamePairs render).lookup path).getD path)) ∧
      (pair.1 = path ∨ pair.2 = path) := by
  -- A shown path other than this one leads to it only as the origin of its rename.
  have leads : ∀ y ∈ shown, ((turn.renamePairs render).lookup y).getD y = path → y ≠ path →
        (turn.renamePairs render).lookup y = some path := by
    intro y _ right ne
    cases hit : (turn.renamePairs render).lookup y with
    | none =>
      rw [hit] at right
      exact absurd right ne
    | some destPath =>
      rw [hit] at right
      exact congrArg some right
  by_cases tgt : ∃ originPath, (turn.renamePairs render).lookup originPath = some path
  · obtain ⟨originPath, hit⟩ := tgt
    have paired := paired_of_renamePairs hit
    have orig : originPath ∈ shown := by
      refine (members originPath).mpr ⟨.inl paired.existed, ?_⟩
      rintro ⟨earlier, moved⟩
      exact paired.existed (paired_of_renamePairs moved).created
    refine ⟨(originPath, path), ⟨List.mem_map.mpr ⟨originPath, orig, ?_⟩, .inr rfl⟩, ?_⟩
    · rw [hit]
      rfl
    rintro pair ⟨mem, side⟩
    obtain ⟨y, listed, rfl⟩ := List.mem_map.mp mem
    have ne : y ≠ path := by
      rintro rfl
      exact ((members y).mp listed).2 ⟨originPath, hit⟩
    have moved := leads y listed (side.resolve_left ne) ne
    have eq : y = originPath :=
      Option.some.inj ((paired_of_renamePairs moved).origin.symm.trans paired.origin)
    rw [eq, hit]
    rfl
  have own : path ∈ shown := (members path).mpr ⟨touched, tgt⟩
  refine ⟨_, ⟨List.mem_map.mpr ⟨path, own, rfl⟩, .inl rfl⟩, ?_⟩
  rintro pair ⟨mem, side⟩
  obtain ⟨y, listed, rfl⟩ := List.mem_map.mp mem
  by_cases eq : y = path
  · rw [eq]
  · exact absurd ⟨y, leads y listed (side.resolve_left eq) eq⟩ tgt

theorem showsOnce_of_rerendered (stored : turn.unifiedDiff = turn.rerendered render) :
    ShowsOnce render turn := by
  obtain ⟨shown, once, members, txt⟩ := aggregatePath_shows render turn
    (fun origin tgt hit =>
      (mem_pairedDestinations render (turn.renamePairs render) tgt).mpr
        ⟨origin, hit⟩)
    (turn.displayOrder render)
    (show ({ previousDiffs := ∅ } : Aggregation P).previousDiffs = ∅ from rfl)
  have exactly : ∀ path, path ∈ shown ↔ turn.Touches path ∧
      ¬∃ originPath, (turn.renamePairs render).lookup originPath = some path := by
    intro path
    rw [members, mem_displayOrder, mem_pairedDestinations]
    exact and_congr_right fun _ => and_iff_left not_mem_nil
  refine ⟨_, once.map fun fst snd eq => (Prod.mk.inj eq).1, ?_,
    fun path touched => existsUnique_shown render turn exactly touched, ?_⟩
  · intro pair mem
    obtain ⟨path, -, rfl⟩ := List.mem_map.mp mem
    cases hit : (turn.renamePairs render).lookup path with
    | none => exact .inl rfl
    | some destPath => exact .inr (paired_of_renamePairs hit)
  rw [stored, ← txt]
  rfl

theorem valid_trackDeltas {turn : TurnDiffTracker P}
    (valid : turn.valid = true) {deltas : List (Text × AppliedPatchDelta P)}
    (exact : ∀ delta ∈ deltas, delta.2.exact = true) :
    (turn.trackDeltas render deltas).valid = true := by
  induction deltas generalizing turn with
  | nil => exact valid
  | cons delta deltas ih =>
    refine ih ?_ fun y mem => exact y (mem_cons_of_mem _ mem)
    change (turn.trackDelta render delta.1 delta.2).valid = true
    rw [TurnDiffTracker.trackDelta, valid, exact delta mem_cons_self]
    exact (turn.valid_applyChanges delta.1 delta.2.changes).trans valid

/-- If no file without an origin is moved away from that of another, every path is shown once. -/
theorem trackDeltas_renames (roots : Map Text P) (deltas : List (Text × AppliedPatchDelta P))
    (exact : ∀ delta ∈ deltas, delta.2.exact = true)
    (unclaimed : UnclaimedDeltas render deltas { displayRootsByEnvironment := roots }) :
    (∀ originPath first snd,
        Paired (trackDeltas render deltas { displayRootsByEnvironment := roots }) originPath first →
        Paired (trackDeltas render deltas { displayRootsByEnvironment := roots })
          originPath snd → first = snd) ∧
      (∀ other : Renderer P, renamePairs other (trackDeltas render deltas
            { displayRootsByEnvironment := roots }) =
          renamePairs render (trackDeltas render deltas
            { displayRootsByEnvironment := roots })) ∧
      ShowsOnce render (trackDeltas render deltas
        { displayRootsByEnvironment := roots }) := by
  have fresh : OriginsDistinct ({ displayRootsByEnvironment := roots } :
      TurnDiffTracker P) := by
    intro first snd origin hit
    cases hit
  have distinct := fresh.trackDeltas unclaimed
  have valid := @valid_trackDeltas _ _ render { displayRootsByEnvironment := roots } rfl
    deltas exact
  refine ⟨fun originPath first snd left right => ?_, fun other => ?_, ?_⟩
  · exact distinct first snd originPath left.origin right.origin
  · refine Finmap.ext_lookup fun originPath => Option.ext fun destPath => ?_
    rw [distinct.renamePairs_iff, distinct.renamePairs_iff]
  apply showsOnce_of_rerendered
  exact (transparent_trackDeltas (transparent_fresh render roots) deltas).stored valid

def movedTwice : List (Text × AppliedPatchDelta Text) :=
  [("local",
      { changes := [⟨"a", .update (some "b") "x\n" none "x\n"⟩] }),
    ("local", { changes := [⟨"a", .add "y\n" none⟩] }),
    ("local",
      { changes := [⟨"a", .update (some "c") "y\n" none "y\n"⟩] })]

def movedOnce : List (Text × AppliedPatchDelta Text) := movedTwice.take 2

variable (listing : List (TrackedPath Text))

def enumerateFrom (keys : Finset (TrackedPath Text)) : List (TrackedPath Text) :=
  listing.filter (· ∈ keys) ++
    plainRenderer.enumerate (keys.filter fun key => listing.contains key = false)

theorem mem_enumerateFrom (keys : Finset (TrackedPath Text))
    (k : TrackedPath Text) : k ∈ enumerateFrom listing keys ↔ k ∈ keys := by
  rw [enumerateFrom, mem_append, mem_filter, plainRenderer.mem_enumerate, Finset.mem_filter]
  by_cases listed : k ∈ listing <;> simp [listed]

theorem nodup_enumerateFrom {listing : List (TrackedPath Text)} (nodup : listing.Nodup)
    (keys : Finset (TrackedPath Text)) : (enumerateFrom listing keys).Nodup := by
  refine nodup_append.mpr ⟨nodup.filter _, plainRenderer.nodup_enumerate _, ?_⟩
  rintro k fst _ snd rfl
  have unlisted := (Finset.mem_filter.mp ((plainRenderer.mem_enumerate _ _).mp snd)).2
  rw [contains_iff_mem.mpr (mem_filter.mp fst).1] at unlisted
  cases unlisted

def listingRenderer (nodup : listing.Nodup) : Renderer Text :=
  { plainRenderer with
    enumerate := enumerateFrom listing
    mem_enumerate := mem_enumerateFrom listing
    nodup_enumerate := nodup_enumerateFrom nodup }

/-- The destination `b` is listed first. -/
def rendererB : Renderer Text :=
  listingRenderer [⟨"local", "b"⟩, ⟨"local", "c"⟩] (by decide)

/-- The destination `c` is listed first. -/
def rendererC : Renderer Text :=
  listingRenderer [⟨"local", "c"⟩, ⟨"local", "b"⟩] (by decide)

theorem trackDeltas_renames_movedOnce : UnclaimedDeltas rendererB movedOnce {} ∧
      renamePairs rendererC (trackDeltas rendererB movedOnce {}) =
        renamePairs rendererB (trackDeltas rendererB movedOnce {}) ∧
      ShowsOnce rendererB (trackDeltas rendererB movedOnce {}) := by
  have unclaimed : UnclaimedDeltas rendererB movedOnce {} := by
    refine ⟨⟨?_, trivial⟩, ⟨trivial, trivial⟩, trivial⟩
    intro _ _ y claimed
    cases claimed
  have exact : ∀ delta ∈ movedOnce, delta.2.exact = true := by decide
  have renames := trackDeltas_renames rendererB ∅ movedOnce exact unclaimed
  exact ⟨unclaimed, renames.2.1 rendererC, renames.2.2⟩

/-- Both were moved from `a`, and the order of the hash map decides. -/
theorem trackDeltas_renames_twice : (∃ files, ExactDeltas filesBeforeTurn movedTwice files) ∧
      Paired (trackDeltas rendererB movedTwice {}) ⟨"local", "a"⟩
        ⟨"local", "b"⟩ ∧
      Paired (trackDeltas rendererB movedTwice {}) ⟨"local", "a"⟩
        ⟨"local", "c"⟩ ∧
      renamePairs rendererC (trackDeltas rendererB movedTwice {}) ≠
        renamePairs rendererB (trackDeltas rendererB movedTwice {}) := by
  refine ⟨?_, by decide +kernel, by decide +kernel, fun eq => ?_⟩
  · refine ⟨_, .cons rfl (ExactChanges.cons_iff.mpr ⟨?_, ExactChanges.nil _⟩) ?_
      (.cons rfl (ExactChanges.cons_iff.mpr ⟨?_, ExactChanges.nil _⟩) ?_
        (.cons rfl (ExactChanges.cons_iff.mpr ⟨?_, ExactChanges.nil _⟩) ?_ (.nil _)))⟩
    · exact ⟨by decide, by decide⟩
    · simp [AppliedPatchChange.MovesProperly]
    · unfold AppliedPatchChange.Recorded
      decide
    · simp [AppliedPatchChange.MovesProperly]
    · exact ⟨by decide, by decide⟩
    · simp [AppliedPatchChange.MovesProperly]
  · exact absurd (congrArg (Finmap.lookup ⟨"local", "a"⟩) eq) (by decide +kernel)

end TurnDiffTracker
end Codex.TurnDiff
