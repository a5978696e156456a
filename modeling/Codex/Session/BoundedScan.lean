import Codex.Session.Segments

/-!
# Reconstruction of what the bounded scan reads

Behind a bounded cut are no rollbacks and only complete compactions.
-/

namespace Codex.Session

variable {R P U W : Type}

structure ActiveTurnSegment where
  turnId : Option Text := none
  hasUserTurn : Bool := false
  hasTurnContext : Bool := false

inductive ModelContextScanProgress
  | «continue»
  | complete
  deriving DecidableEq

structure ModelContextScan (R P : Type) where
  itemsNewestFirst : List (RolloutItem R P) := []
  sawCompaction : Bool := false
  sawCompletedTurnContext : Bool := false
  mustScanToStart : Bool := false
  activeSegment : ActiveTurnSegment := {}

def responseItemCountsAsUserTurn (ops : FragmentOps) : ResponseItem R → Bool
  | .agentMessage .. => true
  | .message role body _ _ =>
    role = "assistant" && isInterAgentInstructionContent ops body
  | _ => false

def CompactedItem.isComplete (item : CompactedItem R) : Bool :=
  item.replacementHistory.isSome && item.windowNumber.isSome

namespace ActiveTurnSegment

variable (segment : ActiveTurnSegment)

def setTurnId (turnId : Option Text) : ActiveTurnSegment :=
  { segment with turnId := segment.turnId.or turnId }

def observeItemCompleted (turnId : Text) (isUserMessage : Bool) : ActiveTurnSegment :=
  let segment := segment.setTurnId (some turnId)
  if turnIdsAreCompatible segment.turnId (some turnId) then
    { segment with hasUserTurn := segment.hasUserTurn || isUserMessage }
  else segment

def observeTurnContext (ctx : TurnContextItem R) : ActiveTurnSegment :=
  let segment := segment.setTurnId ctx.turnId
  if turnIdsAreCompatible segment.turnId ctx.turnId then
    { segment with hasTurnContext := true }
  else segment

def observe (ops : FragmentOps) : RolloutItem R P → ActiveTurnSegment
  | .eventMsg (.itemCompleted turnId isUserMessage) =>
    segment.observeItemCompleted turnId isUserMessage
  | .eventMsg (.turnComplete turnId) => segment.setTurnId (some turnId)
  | .eventMsg (.turnAborted turnId) => segment.setTurnId turnId
  | .turnContext ctx => segment.observeTurnContext ctx
  | .responseItem item =>
    { segment with
      hasUserTurn := segment.hasUserTurn || responseItemCountsAsUserTurn ops item.item }
  | .interAgentCommunication _ => { segment with hasUserTurn := true }
  | .eventMsg .userMessage => { segment with hasUserTurn := true }
  | _ => segment

end ActiveTurnSegment

namespace ModelContextScan

variable (ops : FragmentOps) (scan : ModelContextScan R P)

def hasBoundedCutoff : Bool :=
  !scan.mustScanToStart && scan.sawCompaction && scan.sawCompletedTurnContext

def finalizeActiveSegment : ModelContextScan R P :=
  { scan with
    sawCompletedTurnContext := scan.sawCompletedTurnContext ||
      scan.activeSegment.hasUserTurn && scan.activeSegment.hasTurnContext
    activeSegment := {} }

def see (item : RolloutItem R P) : ModelContextScan R P :=
  match item with
  | .compacted item =>
    if item.isComplete then { scan with sawCompaction := true }
    else { scan with mustScanToStart := true }
  | .eventMsg (.threadRolledBack _) => { scan with mustScanToStart := true }
  | .eventMsg (.turnStarted turnId) =>
    if turnIdsAreCompatible scan.activeSegment.turnId (some turnId) then
      scan.finalizeActiveSegment
    else scan
  | item => { scan with activeSegment := scan.activeSegment.observe ops item }

def observe (item : RolloutItem R P) : ModelContextScan R P × ModelContextScanProgress :=
  if scan.mustScanToStart then (scan, .continue)
  else
    let scan := scan.see ops item
    (scan, if scan.hasBoundedCutoff then .complete else .continue)

def push (item : RolloutItem R P) : ModelContextScan R P × ModelContextScanProgress :=
  let (scan, prog) := scan.observe ops item
  ({ scan with itemsNewestFirst := scan.itemsNewestFirst ++ [item] }, prog)

def collect (scan : ModelContextScan R P) : List (RolloutItem R P) → ModelContextScan R P
  | [] => scan
  | item :: older =>
    match scan.push ops item with
    | (scan, .complete) => scan
    | (scan, .continue) => collect scan older

def finish (sessionMeta : RolloutItem R P) : List (RolloutItem R P) :=
  if scan.hasBoundedCutoff then sessionMeta :: scan.itemsNewestFirst.reverse
  else scan.itemsNewestFirst.reverse

end ModelContextScan

def RolloutItem.isSessionMeta : RolloutItem R P → Bool
  | .sessionMeta .. => true
  | _ => false

def scanModelContext (ops : FragmentOps) (sessionMeta : RolloutItem R P)
    (items : List (RolloutItem R P)) : List (RolloutItem R P) :=
  let items := (ModelContextScan.collect ops {} items.reverse).finish sessionMeta
  if items.head?.any (·.isSessionMeta) then items else sessionMeta :: items

open List Option

def RolloutItem.Bounded (item : RolloutItem R P) : Prop :=
  (∀ numTurns, item ≠ .eventMsg (.threadRolledBack numTurns)) ∧
    ∀ comp, item = .compacted comp → comp.isComplete = true

variable {item : RolloutItem R P} {items : List (RolloutItem R P)} {ops : ReconstructionOps R P U W}
  {seg next : ActiveReplaySegment R P U}

theorem RolloutItem.Bounded.carriesReplacement (bounded : item.Bounded) :
    item.CarriesReplacement := by
  intro comp eq
  have complete := bounded.2 comp eq
  rw [CompactedItem.isComplete, Bool.and_eq_true] at complete
  exact complete.1

namespace ModelContextScan

variable {ops : FragmentOps} {scan : ModelContextScan R P}

structure Tracks (scan : ModelContextScan R P) : Prop where
  bounded : scan.mustScanToStart = false → ∀ item ∈ scan.itemsNewestFirst, item.Bounded
  compacted : scan.sawCompaction = true → ∃ comp, .compacted comp ∈ scan.itemsNewestFirst

theorem see_cases (ops : FragmentOps) (scan : ModelContextScan R P) (item : RolloutItem R P) :
    scan.see ops item = { scan with mustScanToStart := true } ∨ item.Bounded ∧
        ((∃ comp, item = .compacted comp ∧
            scan.see ops item = { scan with sawCompaction := true }) ∨
          ∃ full seg, scan.see ops item =
            { scan with sawCompletedTurnContext := full, activeSegment := seg }) := by
  cases item with
  | compacted comp =>
    rw [see]
    split_ifs with complete
    · refine .inr ⟨⟨nofun, ?_⟩, .inl ⟨comp, rfl, rfl⟩⟩
      rintro _ ⟨⟩
      exact complete
    · exact .inl rfl
  | eventMsg ev =>
    cases ev with
    | threadRolledBack numTurns => exact .inl rfl
    | turnStarted turnId =>
      rw [see]
      split_ifs
      all_goals exact .inr ⟨⟨nofun, nofun⟩, .inr ⟨_, _, rfl⟩⟩
    | _ => exact .inr ⟨⟨nofun, nofun⟩, .inr ⟨_, _, rfl⟩⟩
  | _ => exact .inr ⟨⟨nofun, nofun⟩, .inr ⟨_, _, rfl⟩⟩

theorem Tracks.push (tracks : scan.Tracks) (ops : FragmentOps) (item : RolloutItem R P) :
    (scan.push ops item).1.Tracks := by
  have pushed : ∀ fact : RolloutItem R P → Prop, (∀ other ∈ scan.itemsNewestFirst, fact other) →
      fact item → ∀ other ∈ scan.itemsNewestFirst ++ [item], fact other := by
    intro fact pre new other mem
    rcases mem_append.mp mem with mem | mem
    · exact pre other mem
    · exact mem_singleton.mp mem ▸ new
  have earlier : (∃ comp, .compacted comp ∈ scan.itemsNewestFirst) →
      ∃ comp, .compacted comp ∈ scan.itemsNewestFirst ++ [item] :=
    fun ⟨comp, mem⟩ => ⟨comp, mem_append_left _ mem⟩
  rw [ModelContextScan.push, observe]
  by_cases stopped : scan.mustScanToStart = true
  · rw [if_pos stopped]
    exact ⟨fun running => absurd (stopped.symm.trans running) (by simp),
      fun saw => earlier (tracks.compacted saw)⟩
  rw [if_neg stopped]
  rcases scan.see_cases ops item with seen | ⟨le, ⟨comp, rfl, seen⟩ | ⟨_, _, seen⟩⟩
  · rw [seen]
    exact ⟨nofun, fun saw => earlier (tracks.compacted saw)⟩
  · rw [seen]
    exact ⟨fun running => pushed _ (tracks.bounded running) le, fun _ => ⟨comp, by simp⟩⟩
  rw [seen]
  exact ⟨fun running => pushed _ (tracks.bounded running) le,
    fun saw => earlier (tracks.compacted saw)⟩

theorem itemsNewestFirst_push (ops : FragmentOps) (item : RolloutItem R P) :
    (scan.push ops item).1.itemsNewestFirst = scan.itemsNewestFirst ++ [item] := by
  rw [push, observe]
  split_ifs
  · rfl
  · rcases scan.see_cases ops item with seen | ⟨_, ⟨_, _, seen⟩ | ⟨_, _, seen⟩⟩ <;> rw [seen]

theorem hasBoundedCutoff_of_push
    (full : (scan.push ops item).2 = .complete) :
    (scan.push ops item).1.hasBoundedCutoff = true := by
  rw [push, observe] at full ⊢
  by_cases stopped : scan.mustScanToStart = true
  · rw [if_pos stopped] at full
    cases full
  rw [if_neg stopped] at full ⊢
  by_cases cutoff : (scan.see ops item).hasBoundedCutoff = true
  · exact cutoff
  change (if (scan.see ops item).hasBoundedCutoff then _ else _) = _ at full
  rw [if_neg cutoff] at full
  cases full

theorem collect_cons (ops : FragmentOps) (item : RolloutItem R P) (items : List (RolloutItem R P)) :
    scan.collect ops (item :: items) =
      if (scan.push ops item).2 = .complete then (scan.push ops item).1
      else (scan.push ops item).1.collect ops items := by
  rw [collect]
  obtain ⟨pushed, _ | _⟩ := scan.push ops item <;> rfl

theorem collect_cases (tracks : scan.Tracks) (ops : FragmentOps) (items : List (RolloutItem R P)) :
    (scan.collect ops items).itemsNewestFirst = scan.itemsNewestFirst ++ items ∨
      ∃ read older, items = read ++ older ∧
        (scan.collect ops items).itemsNewestFirst = scan.itemsNewestFirst ++ read ∧
        (scan.collect ops items).hasBoundedCutoff = true ∧ (scan.collect ops items).Tracks ∧
        ∀ y, scan.collect ops (read ++ y) = scan.collect ops items := by
  induction items generalizing scan with
  | nil => exact .inl (append_nil _).symm
  | cons item items ih =>
    have pushed : (scan.push ops item).1.itemsNewestFirst = _ := itemsNewestFirst_push ops item
    by_cases complete : (scan.push ops item).2 = .complete
    · refine .inr ⟨[item], items, rfl, ?_⟩
      simp only [cons_append, collect_cons, if_pos complete]
      exact ⟨pushed, hasBoundedCutoff_of_push complete, tracks.push ops item, fun _ => trivial⟩
    simp only [collect_cons, if_neg complete]
    have shifted : ∀ rest, (scan.push ops item).1.itemsNewestFirst ++ rest =
        scan.itemsNewestFirst ++ item :: rest := by
      intro rest
      rw [pushed, append_assoc, singleton_append]
    rcases ih (tracks.push ops item) with all | ⟨read, older, rfl, eq, rest⟩
    · exact .inl (all.trans (shifted items))
    refine .inr ⟨item :: read, older, rfl, eq.trans (shifted read), rest.1, rest.2.1, ?_⟩
    intro y
    rw [cons_append, collect_cons, if_neg complete]
    exact rest.2.2 y

end ModelContextScan

def scannedItems (ops : FragmentOps) (items : List (RolloutItem R P)) : List (RolloutItem R P) :=
  (ModelContextScan.collect ops {} items.reverse).itemsNewestFirst

def unreadItems (ops : FragmentOps) (items : List (RolloutItem R P)) : List (RolloutItem R P) :=
  items.reverse.drop (scannedItems ops items).length

theorem scannedItems_cases (ops : FragmentOps) (items : List (RolloutItem R P)) :
    scannedItems ops items = items.reverse ∧ unreadItems ops items = [] ∨
      scannedItems ops items ++ unreadItems ops items = items.reverse ∧
        (∀ item ∈ scannedItems ops items, item.Bounded) ∧
        (∃ comp, .compacted comp ∈ scannedItems ops items) ∧
        ∀ y, scannedItems ops (y ++ (scannedItems ops items).reverse) = scannedItems ops items := by
  have start : ModelContextScan.Tracks ({} : ModelContextScan R P) := ⟨by simp, nofun⟩
  rcases ModelContextScan.collect_cases start ops items.reverse with
    all | ⟨read, older, split, eq, cutoff, tracks, stops⟩
  · left
    have whole : scannedItems ops items = items.reverse := all
    exact ⟨whole, by rw [unreadItems, whole, drop_length]⟩
  right
  have eq : scannedItems ops items = read := eq
  rw [unreadItems, eq, split, drop_left]
  rw [ModelContextScan.hasBoundedCutoff, Bool.and_eq_true, Bool.and_eq_true,
    Bool.not_eq_true'] at cutoff
  refine ⟨rfl, eq ▸ tracks.bounded cutoff.1.1, eq ▸ tracks.compacted cutoff.1.2, ?_⟩
  intro y
  rw [scannedItems, reverse_append, reverse_reverse, stops]
  exact eq

theorem scanModelContext_eq (ops : FragmentOps) (windowId : Option Text) (tl : R)
    (ins : ∀ item ∈ items, item.isSessionMeta = false) :
    scanModelContext ops (.sessionMeta windowId tl) items =
      .sessionMeta windowId tl :: (scannedItems ops items).reverse := by
  have subset : ∀ item ∈ (scannedItems ops items).reverse, item.isSessionMeta = false := by
    intro item mem
    rw [mem_reverse] at mem
    refine ins item (mem_reverse.mp ?_)
    rcases scannedItems_cases ops items with ⟨whole, _⟩ | ⟨split, _⟩
    · exact whole ▸ mem
    · exact split ▸ mem_append_left _ mem
  rw [scanModelContext, ModelContextScan.finish]
  by_cases cutoff :
      (ModelContextScan.collect ops {} items.reverse).hasBoundedCutoff = true
  · rw [if_pos cutoff]
    rfl
  rw [if_neg cutoff]
  refine if_neg ?_
  change ¬ ((scannedItems ops items).reverse.head?.any _) = true
  cases fst : (scannedItems ops items).reverse.head? with
  | none => simp
  | some item => simp [subset item (mem_of_head? fst)]

namespace TurnCursor

variable (cur : TurnCursor R P U)

theorem closed_survives (ops : ReconstructionOps R P U W)
    (bounded : ∀ item ∈ items, item.Bounded) (wait : cur.pendingRollbackTurns = 0) :
    (∀ seg ∈ cur.closed ops items, seg.2 = true) ∧
      (cur.advance ops items).pendingRollbackTurns = 0 := by
  induction items generalizing cur with
  | nil => exact ⟨by simp [closed], wait⟩
  | cons item older ih =>
    have tl : ∀ y ∈ older, y.Bounded := fun y mem =>
      bounded y (by simp [mem])
    have stepped := cur.stepped ops item
    rw [closed]
    change _ ∧ (advance ops (cur.step ops item).1 older).pendingRollbackTurns = 0
    generalize cur.step ops item = res at stepped ⊢
    cases stepped with
    | rolledBack numTurns marker =>
      exact absurd marker ((bounded item (by simp)).1 numTurns)
    | ignored | observed => exact ih _ tl wait
    | closed seg =>
      have none : (cur.close seg).1.pendingRollbackTurns = 0 := by
        rw [close, wait]
        exact Nat.zero_sub _
      obtain ⟨others, last⟩ := ih (cur.close seg).1 tl none
      exact ⟨forall_mem_cons.mpr ⟨decide_eq_true wait, others⟩, last⟩

end TurnCursor

structure ActiveReplaySegment.Whole (seg : ActiveReplaySegment R P U) : Prop where
  reference : seg.previousTurnSettings.isSome = true → seg.referenceContextItem.isNeverSet = false
  window : seg.baseReplacementHistory.isSome = true → seg.window.isSome = true
  compacted : seg.baseReplacementHistory.isSome = true →
    ∃ comp, .compacted comp ∈ seg.worldStateReplay

theorem TurnReferenceContextItem.isNeverSet_orElse (ref y : TurnReferenceContextItem R) :
    (ref.orElse y).isNeverSet = (ref.isNeverSet && y.isNeverSet) := by
  cases ref <;> rfl

open TurnReferenceContextItem

theorem ActiveReplaySegment.Whole.observe (bounded : item.Bounded) (whole : seg.Whole)
    (seen : seg.observe ops item = some next) : next.Whole := by
  cases item with
  | compacted comp =>
    obtain rfl := some.inj seen
    have complete := bounded.2 comp rfl
    rw [CompactedItem.isComplete, Bool.and_eq_true] at complete
    constructor
    · intro _
      exact (isNeverSet_orElse _ _).trans (Bool.and_false _)
    · intro _
      simp [observeCompacted, CompactedItem.window, complete.2]
    intro _
    exact ⟨comp, by simp [observeCompacted]⟩
  | turnContext ctx =>
    obtain rfl := some.inj seen
    rw [observeTurnContext]
    split_ifs
    · refine ⟨fun _ => ?_, whole.window, whole.compacted⟩
      exact (isNeverSet_orElse _ _).trans (Bool.and_false _)
    · exact ⟨whole.reference, whole.window, whole.compacted⟩
  | eventMsg ev =>
    cases ev with
    | turnAborted turnId =>
      cases turnId with
      | none => cases seen
      | some turnId =>
        exact some.inj seen ▸ ⟨whole.reference, whole.window, whole.compacted⟩
    | turnComplete | userMessage =>
      exact some.inj seen ▸ ⟨whole.reference, whole.window, whole.compacted⟩
    | _ => cases seen
  | worldState =>
    obtain rfl := some.inj seen
    refine ⟨whole.reference, whole.window, fun based => ?_⟩
    obtain ⟨comp, mem⟩ := whole.compacted based
    exact ⟨comp, mem_append_left _ mem⟩
  | responseItem | interAgentCommunication =>
    exact some.inj seen ▸ ⟨whole.reference, whole.window, whole.compacted⟩
  | _ => cases seen

theorem whole_of_bounded (ops : ReconstructionOps R P U W)
    (bounded : ∀ item ∈ items, item.Bounded) :
    (∀ seg ∈ TurnCursor.closed ops {} items, seg.1.Whole) ∧
      ∀ seg, (TurnCursor.advance ops {} items).activeSegment = some seg → seg.Whole := by
  have empty : ActiveReplaySegment.Whole ({} : ActiveReplaySegment R P U) := by
    constructor <;> exact fun isSome => absurd isSome Bool.false_ne_true
  refine TurnCursor.forall_segments {} empty
    (fun _ _ _ bounded whole seen => whole.observe bounded seen) bounded ?_
  exact fun seg opened => absurd opened (some_ne_none seg).symm

namespace ReplayState

variable {state : ReplayState R P U}

theorem absorbAll_of_mem {fact : ReplayState R P U → Prop}
    (keeps : ∀ (state : ReplayState R P U) seg, fact state → fact (state.absorb (some seg)))
    {seg : ClosedSegment R P U}
    (gives : ∀ state : ReplayState R P U, fact (state.absorb (some seg)))
    {segs : List (ClosedSegment R P U)} (mem : seg ∈ segs) : fact (state.absorbAll segs) := by
  obtain ⟨newer, older, rfl⟩ := append_of_mem mem
  rw [absorbAll, foldl_append, foldl_cons]
  generalize newer.foldl (fun state seg => state.absorb (some seg)) state = pre
  have start := gives pre
  generalize pre.absorb (some seg) = after at start ⊢
  clear mem
  induction older generalizing after with
  | nil => exact start
  | cons y older ih => exact ih _ (keeps after y start)

def Known (state : ReplayState R P U) : Prop :=
  state.previousTurnSettings.isSome = true ∧ state.referenceContextItem.isNeverSet = false

theorem orElse_of_isNeverSet {reference : TurnReferenceContextItem R}
    (known : reference.isNeverSet = false) (y : TurnReferenceContextItem R) :
    reference.orElse y = reference := by
  cases reference with
  | neverSet => cases known
  | cleared | latest => rfl

theorem Known.absorb (known : state.Known) (seg : Option (ClosedSegment R P U)) :
    (state.absorb seg).previousTurnSettings = state.previousTurnSettings ∧
      (state.absorb seg).referenceContextItem = state.referenceContextItem := by
  obtain ⟨settings, eq⟩ := isSome_iff_exists.mp known.1
  match seg with
  | none | some (_, false) => exact ⟨rfl, rfl⟩
  | some (seg, true) =>
    simp [ReplayState.absorb, orElse_of_isNeverSet known.2, eq]

theorem known_absorbAll {segs : List (ClosedSegment R P U)} (mem : (seg, true) ∈ segs)
    (user : seg.countsAsUserTurn = true) (settings : seg.previousTurnSettings.isSome = true)
    (whole : seg.Whole) : (state.absorbAll segs).Known := by
  refine absorbAll_of_mem (fun state y known => ?_) (fun state => ?_) mem
  · rw [Known, (known.absorb (some y)).1, (known.absorb (some y)).2]
    exact known
  constructor
  · simp [absorb, user, settings]
  · simp [absorb, user, isNeverSet_orElse, whole.reference settings]

theorem isSome_absorbAll {α : Type} (field : ReplayState R P U → Option α)
    (part : ActiveReplaySegment R P U → Option α)
    (skipped : ∀ state seg, field (state.absorb (some (seg, false))) = field state)
    (absorbed : ∀ state seg, field (state.absorb (some (seg, true))) = (field state).or (part seg))
    {segs : List (ClosedSegment R P U)} {seg : ActiveReplaySegment R P U}
    (mem : (seg, true) ∈ segs) (named : (part seg).isSome = true) :
    (field (state.absorbAll segs)).isSome = true := by
  refine @absorbAll_of_mem _ _ _ state (fun state => (field state).isSome = true)
    (fun state y known => ?_) _ (fun state => ?_) _ mem
  · match y with
    | (y, false) => rw [skipped, known]
    | (y, true) => rw [absorbed, isSome_or, known, Bool.true_or]
  · rw [absorbed, isSome_or, named, Bool.or_true]

end ReplayState

structure ActiveReplaySegment.Extends (seg next : ActiveReplaySegment R P U) : Prop where
  base : next.baseReplacementHistory = seg.baseReplacementHistory
  window : next.window = seg.window
  world : ∃ older, next.worldStateReplay = seg.worldStateReplay ++ older

theorem ActiveReplaySegment.extends_observe (base : seg.baseReplacementHistory.isSome = true)
    (window : seg.window.isSome = true) (seen : seg.observe ops item = some next) :
    seg.Extends next := by
  obtain ⟨repl, based⟩ := isSome_iff_exists.mp base
  obtain ⟨numbered, windowed⟩ := isSome_iff_exists.mp window
  have eq : ∃ older, seg.worldStateReplay = seg.worldStateReplay ++ older :=
    ⟨[], (append_nil _).symm⟩
  cases item with
  | compacted comp =>
    obtain rfl := some.inj seen
    exact ⟨by simp [observeCompacted, based], by simp [observeCompacted, windowed], _, rfl⟩
  | turnContext ctx =>
    obtain rfl := some.inj seen
    rw [observeTurnContext]
    split_ifs
    all_goals exact ⟨rfl, rfl, eq⟩
  | eventMsg ev =>
    cases ev with
    | turnAborted turnId =>
      cases turnId with
      | none => cases seen
      | some turnId => exact some.inj seen ▸ ⟨rfl, rfl, eq⟩
    | turnComplete | userMessage => exact some.inj seen ▸ ⟨rfl, rfl, eq⟩
    | _ => cases seen
  | worldState => exact some.inj seen ▸ ⟨rfl, rfl, _, rfl⟩
  | responseItem | interAgentCommunication =>
    exact some.inj seen ▸ ⟨rfl, rfl, eq⟩
  | _ => cases seen

theorem ActiveReplaySegment.Extends.trans {last : ActiveReplaySegment R P U}
    (fst : seg.Extends next) (snd : next.Extends last) : seg.Extends last := by
  obtain ⟨older, world⟩ := fst.world
  obtain ⟨oldest, tl⟩ := snd.world
  exact ⟨snd.base.trans fst.base, snd.window.trans fst.window, older ++ oldest, by
    rw [tl, world, append_assoc]⟩

namespace ReplayState

variable {state : ReplayState R P U}

structure ClosesWith (state : ReplayState R P U) (seg : ActiveReplaySegment R P U)
    (final : ReplayState R P U) : Prop where
  base : final.baseReplacementHistory = seg.baseReplacementHistory
  settings : final.previousTurnSettings = state.previousTurnSettings
  reference : final.referenceContextItem = state.referenceContextItem
  window : final.window = state.window.or seg.window
  suffix : final.rolloutSuffix = state.rolloutSuffix
  world : ∃ older, final.worldStateReplay =
    state.worldStateReplay ++ (seg.worldStateReplay ++ older)

variable {last : ActiveReplaySegment R P U}

theorem closesWith_absorb (known : state.Known) (fresh : state.baseReplacementHistory = none)
    (ext : seg.Extends last) (cur : TurnCursor R P U) :
    state.ClosesWith seg ((state.absorb (some (last, true))).atCursor cur state.rolloutSuffix) where
  base := by
    change state.baseReplacementHistory.or last.baseReplacementHistory = _
    rw [fresh, none_or, ext.base]
  settings := (known.absorb (some (last, true))).1
  reference := (known.absorb (some (last, true))).2
  window := congrArg (Option.or state.window) ext.window
  suffix := rfl
  world := by
    obtain ⟨older, world⟩ := ext.world
    exact ⟨older, congrArg (state.worldStateReplay ++ ·) world⟩

theorem suffixAfter_of_base {cur : TurnCursor R P U} (based : cur.base?.isSome = true)
    (suffix newer : List (RolloutItem R P)) (item : RolloutItem R P) :
    cur.suffixAfter suffix item newer = suffix := by
  cases item with
  | compacted comp =>
    refine if_neg fun moves => ?_
    rw [TurnCursor.base?, ← not_isNone] at based
    simp [moves.1] at based
  | _ => rfl

theorem closesWith_scan (ops : ReconstructionOps R P U W) (known : state.Known)
    (fresh : state.baseReplacementHistory = none) (active : state.activeSegment = some last)
    (base : seg.baseReplacementHistory.isSome = true) (window : seg.window.isSome = true)
    (ext : seg.Extends last) (newer items : List (RolloutItem R P))
    (survives : ∀ closing ∈ (state.cursor.segments ops items).head?, closing.2 = true) :
    state.ClosesWith seg (scan ops state newer items).finish := by
  induction items generalizing state last newer with
  | nil =>
    have start : state.cursor.atStart = [(last, decide (state.pendingRollbackTurns = 0))] := by
      rw [TurnCursor.atStart]
      change (state.activeSegment.bind _).toList = _
      rw [active]
      rfl
    have flag : decide (state.pendingRollbackTurns = 0) = true :=
      survives (last, decide (state.pendingRollbackTurns = 0)) (by
        change _ ∈ (state.cursor.atStart).head?
        rw [start]
        rfl)
    rw [scan, finish_eq, start, flag]
    exact closesWith_absorb known fresh ext _
  | cons item items ih =>
    have based : state.cursor.base?.isSome = true := by
      change (state.activeSegment.bind _).isSome = true
      rw [active]
      exact (congrArg Option.isSome ext.base).trans base
    have stepped := state.cursor.stepped ops item
    rw [TurnCursor.segments_cons] at survives
    rw [scan, observe_eq, suffixAfter_of_base based]
    generalize state.cursor.step ops item = res at stepped survives ⊢
    have goes : ∀ cur : TurnCursor R P U,
        ¬ ((state.absorb none).atCursor cur state.rolloutSuffix).isSettled = true := by
      intro cur settled
      rw [isSettled, Bool.and_eq_true, Bool.and_eq_true] at settled
      have hit : state.baseReplacementHistory.isSome = true := settled.1.1
      rw [fresh] at hit
      cases hit
    -- an item that closes nothing leaves everything but the open turn as it is
    have resumes : ∀ (cur : TurnCursor R P U) next, cur.activeSegment = some next →
        seg.Extends next →
        (∀ closing ∈ (cur.segments ops items).head?, closing.2 = true) →
        state.ClosesWith seg
          (if ((state.absorb none).atCursor cur state.rolloutSuffix).isSettled then
            (state.absorb none).atCursor cur state.rolloutSuffix
          else scan ops ((state.absorb none).atCursor cur state.rolloutSuffix) (item :: newer)
            items).finish := by
      intro cur next opened further kept
      rw [if_neg (goes cur)]
      have tl := @ih (state.atCursor cur state.rolloutSuffix) next known fresh opened
        further (item :: newer) kept
      exact ⟨tl.base, tl.settings, tl.reference, tl.window, tl.suffix, tl.world⟩
    cases stepped with
    | rolledBack | ignored => exact resumes _ last active ext survives
    | observed next body =>
      have pos : state.cursor.activeSegment = some last := active
      rw [pos] at body
      have further : last.Extends next := ActiveReplaySegment.extends_observe
        (ext.base ▸ base) (ext.window ▸ window) body
      exact resumes _ next rfl (ext.trans further) survives
    | closed closing turnId started opened =>
      obtain rfl : closing = last := some.inj (opened.symm.trans active)
      have flag : decide (state.pendingRollbackTurns = 0) = true :=
        survives (closing, decide (state.pendingRollbackTurns = 0)) rfl
      have closes := closesWith_absorb known fresh ext (state.cursor.close closing).1
      have closed : (state.cursor.close closing).2 = some (closing, true) := by
        rw [← flag]
        rfl
      rw [closed, if_pos]
      · exact closes
      rw [isSettled, closes.base, closes.settings, closes.reference, base, known.1, known.2]
      rfl

def withSuffix (state : ReplayState R P U) (suffix : List (RolloutItem R P)) : ReplayState R P U :=
  { state with rolloutSuffix := suffix }

theorem observe_withSuffix (ops : ReconstructionOps R P U W) (item : RolloutItem R P)
    (suffix newer : List (RolloutItem R P)) :
    (state.withSuffix suffix).observe ops item newer =
      (state.observe ops item newer).withSuffix (state.cursor.suffixAfter suffix item newer) := by
  rw [observe_eq, observe_eq]
  change ((state.atCursor state.cursor suffix).absorb (state.cursor.step ops item).2).atCursor _ _
    = _
  rw [absorb_atCursor]
  rfl

theorem scan_append (ops : ReconstructionOps R P U W) (state : ReplayState R P U)
    (newer items : List (RolloutItem R P)) :
    (∃ scanned tl, items = scanned ++ tl ∧ (run ops state newer scanned).isSettled = true ∧
      ∀ suffix older, scan ops (state.withSuffix suffix) newer (items ++ older) =
        run ops (state.withSuffix suffix) newer scanned) ∨
      (items ≠ [] → (run ops state newer items).isSettled = false) ∧
        ∀ suffix older, scan ops (state.withSuffix suffix) newer (items ++ older) =
          scan ops (run ops (state.withSuffix suffix) newer items) (items.reverse ++ newer)
            older := by
  induction items generalizing state newer with
  | nil => exact .inr ⟨fun empty => absurd rfl empty, fun _ _ => rfl⟩
  | cons item items ih =>
    by_cases settled : (state.observe ops item newer).isSettled = true
    · refine .inl ⟨[item], items, rfl, settled, fun suffix older => ?_⟩
      rw [cons_append, scan, observe_withSuffix]
      refine (if_pos settled).trans ?_
      rw [run, observe_withSuffix]
      rfl
    have goes : ∀ suffix older, scan ops (state.withSuffix suffix) newer (item :: older) =
        scan ops ((state.observe ops item newer).withSuffix
          (state.cursor.suffixAfter suffix item newer)) (item :: newer) older := by
      intro suffix older
      rw [scan, observe_withSuffix]
      exact if_neg settled
    have runs : ∀ suffix scanned, run ops (state.withSuffix suffix) newer (item :: scanned) =
        run ops ((state.observe ops item newer).withSuffix
          (state.cursor.suffixAfter suffix item newer)) (item :: newer) scanned := by
      intro suffix scanned
      rw [run, observe_withSuffix]
    rcases ih (state.observe ops item newer) (item :: newer) with
      ⟨scanned, tl, rfl, stopped, eq⟩ | ⟨running, eq⟩
    · refine .inl ⟨item :: scanned, tl, rfl, stopped, fun suffix older => ?_⟩
      rw [cons_append, goes, eq, runs]
    refine .inr ⟨fun _ => ?_, fun suffix older => ?_⟩
    · cases items with
      | nil => exact Bool.eq_false_iff.mpr settled
      | cons => exact running (cons_ne_nil _ _)
    · rw [cons_append, goes, eq, runs, reverse_cons, append_assoc, singleton_append]

theorem foldl_replayWorldState {mid : List (RolloutItem R P)} {comp : CompactedItem R}
    (mem : .compacted comp ∈ mid) (newer older : List (RolloutItem R P)) :
    (newer ++ (mid ++ older)).reverse.foldl (replayWorldState ops) none =
      (newer ++ mid).reverse.foldl (replayWorldState ops) none := by
  obtain ⟨left, right, rfl⟩ := append_of_mem mem
  simp [replayWorldState]

theorem result_congr {left right : ReplayState R P U}
    (base : left.baseReplacementHistory = right.baseReplacementHistory)
    (settings : left.previousTurnSettings = right.previousTurnSettings)
    (ref : left.referenceContextItem = right.referenceContextItem)
    (window : left.window = right.window) (windowed : left.window.isSome = true)
    (suffix : left.rolloutSuffix = right.rolloutSuffix)
    (world : left.worldStateReplay.reverse.foldl (replayWorldState ops) none =
      right.worldStateReplay.reverse.foldl (replayWorldState ops) none)
    (items others : List (RolloutItem R P)) : left.result ops items = right.result ops others := by
  obtain ⟨numbered, known⟩ := isSome_iff_exists.mp windowed
  have same : right.window = some numbered := window ▸ known
  simp [result, base, settings, ref, suffix, world, known, same]

end ReplayState

theorem TurnCursor.suffixRun_congr (cur : TurnCursor R P U) {comp : CompactedItem R}
    (mem : .compacted comp ∈ items) (carries : comp.replacementHistory.isSome = true)
    (fresh : cur.base? = none) (left right newer : List (RolloutItem R P)) :
    cur.suffixRun ops left newer items = cur.suffixRun ops right newer items := by
  induction items generalizing cur left right newer with
  | nil => simp at mem
  | cons item items ih =>
    rw [suffixRun, suffixRun]
    by_cases moves : (cur.newBase? item).isSome = true
    · -- the item gives the open turn its replacement history, so the suffix starts behind it
      have both : ∀ suffix, cur.suffixAfter suffix item newer = newer := by
        intro suffix
        cases item with
        | compacted y =>
          have given : cur.newBase? (.compacted y) = y.replacementHistory :=
            if_pos (by rw [fresh]; rfl)
          exact if_pos ⟨(congrArg Option.isNone fresh :), given ▸ moves⟩
        | _ => cases moves
      rw [both left, both right]
    have given : cur.newBase? item = none := not_isSome_iff_eq_none.mp moves
    have still : (cur.step ops item).1.base? = none := by
      have lists := cur.base?_step ops item
      rw [fresh, given] at lists
      exact toList_eq_nil_iff.mp (append_eq_nil_iff.mp lists).2
    have tl : .compacted comp ∈ items := by
      rcases mem_cons.mp mem with rfl | tl
      · have carried : cur.newBase? (.compacted comp) =
            comp.replacementHistory := if_pos (by rw [fresh]; rfl)
        rw [← carried, given] at carries
        cases carries
      · exact tl
    exact ih _ tl still _ _ _

end Codex.Session
