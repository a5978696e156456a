import Codex.Session.BoundedScan

/-!
# The cut of the bounded scan

What is read suffices when reconstruction finds a user turn with settings in it.
-/

namespace Codex.Session

open List Option

variable {R P U W : Type}

open ReplayState

open TurnCursor

section

variable (ops : ReconstructionOps R P U W)

/-- A user turn with settings was read, and the turn at the cut is not rolled back or not needed. -/
structure CutIsSafe (read older : List (RolloutItem R P)) : Prop where
  settled : ∃ segment ∈ TurnCursor.closed ops {} read,
    segment.1.countsAsUserTurn = true ∧ segment.1.previousTurnSettings.isSome = true
  survives : (∃ segment ∈ TurnCursor.closed ops {} read,
      segment.1.baseReplacementHistory.isSome = true) ∨
    ∀ segment ∈ ((TurnCursor.advance ops {} read).segments ops older).head?, segment.2 = true

variable {ops} {read : List (RolloutItem R P)} {comp : CompactedItem R}

theorem exists_base (bounded : ∀ x ∈ read, x.Bounded) (mem : .compacted comp ∈ read) :
    (∃ seg ∈ TurnCursor.closed ops {} read, seg.1.baseReplacementHistory.isSome = true) ∨
      ∃ seg, (advance ops {} read).activeSegment = some seg ∧
        seg.baseReplacementHistory.isSome = true := by
  have behind := suffixBehind_suffixRun {} ops
    (fun x ins => (bounded x ins).carriesReplacement)
    (show SuffixBehind [] [] [] ([] ++ []) from ⟨rfl, by simp⟩)
  by_contra neither
  rw [not_or] at neither
  have closed : (TurnCursor.closed ops {} read).filterMap (·.1.baseReplacementHistory) = [] := by
    rw [filterMap_eq_nil_iff]
    intro seg ins
    rw [← not_isSome_iff_eq_none]
    exact fun based => neither.1 ⟨seg, ins, based⟩
  have opened : (advance ops {} read).base? = none := by
    rw [← not_isSome_iff_eq_none]
    intro based
    obtain ⟨repl, eq⟩ := isSome_iff_exists.mp based
    obtain ⟨seg, active, carried⟩ := bind_eq_some_iff.mp eq
    exact neither.2 ⟨seg, active, by rw [carried]; rfl⟩
  rw [closed, opened] at behind
  exact absurd (behind.2 (.compacted comp) (by simp [mem])) Bool.noConfusion

theorem exists_compacted (bounded : ∀ x ∈ read, x.Bounded) {seg : ClosedSegment R P U}
    (mem : seg ∈ closed ops {} read) (based : seg.1.baseReplacementHistory.isSome = true) :
    ∃ comp, .compacted comp ∈ read := by
  have behind := suffixBehind_suffixRun {} ops
    (fun x ins => (bounded x ins).carriesReplacement)
    (show SuffixBehind [] [] [] ([] ++ []) from ⟨rfl, by simp⟩)
  obtain ⟨repl, carried⟩ := isSome_iff_exists.mp based
  have passed : repl ∈ [] ++ ((closed ops {} read).filterMap
      (·.1.baseReplacementHistory) ++ (advance ops {} read).base?.toList) :=
    mem_append_right _
      (mem_append_left _ (mem_filterMap.mpr ⟨seg, mem, carried⟩))
  obtain ⟨comp, hit⟩ := behind.exists_compacted (ne_nil_of_mem passed)
  exact ⟨comp, by simpa using hit⟩

theorem run_congr (bounded : ∀ x ∈ read, x.Bounded) (mem : .compacted comp ∈ read)
    (suffix y : List (RolloutItem R P)) :
    run ops { rolloutSuffix := suffix } [] read =
      run ops { rolloutSuffix := y } [] read := by
  have start : ∀ suffix : List (RolloutItem R P),
      ({ rolloutSuffix := suffix } : ReplayState R P U) =
      atCursor { rolloutSuffix := [] } {} suffix := fun _ => rfl
  have carried := (bounded _ mem).carriesReplacement comp rfl
  rw [run_eq, run_eq]
  change atCursor _ _ (suffixRun ops {} suffix [] read) =
    atCursor _ _ (suffixRun ops {} y [] read)
  rw [suffixRun_congr {} mem carried rfl suffix y, start suffix, start y,
    absorbAll_atCursor, absorbAll_atCursor]
  rfl

theorem segments_append_sessionMeta (cur : TurnCursor R P U) (items : List (RolloutItem R P))
    (windowId : Option Text) (tl : R) :
    cur.segments ops (items ++ [.sessionMeta windowId tl]) = cur.segments ops items := by
  rw [segments, closed_append, advance_append]
  exact congrArg (· ++ (cur.advance ops items).atStart) (append_nil _)

theorem survives_atStart {cur : TurnCursor R P U} (pend : cur.pendingRollbackTurns = 0) :
    ∀ segment ∈ (cur.segments ops []).head?, segment.2 = true := by
  intro segment mem
  obtain ⟨turns, active⟩ := cur
  cases active with
  | none => cases mem
  | some last =>
    obtain rfl : (last, decide (turns = 0)) = segment := Option.some.inj mem
    exact decide_eq_true pend

theorem result_eq_of_isSettled {ran : List (RolloutItem R P)} (bounded : ∀ x ∈ ran, x.Bounded)
    (settled : (run ops { rolloutSuffix := [] } [] ran).isSettled = true)
    (suffix y xs others : List (RolloutItem R P)) :
    (run ops { rolloutSuffix := suffix } [] ran).finish.result ops xs =
      (run ops { rolloutSuffix := y } [] ran).finish.result ops others := by
  obtain ⟨kept, known, survives⟩ := exists_checkpoint_of_isSettled ops settled
  obtain ⟨⟨seg, flag⟩, closed, carried⟩ := mem_filterMap.mp known
  obtain ⟨repl, named, rfl⟩ := map_eq_some_iff.mp carried
  obtain rfl : flag = true := survives
  have based : seg.baseReplacementHistory.isSome = true := isSome_of_eq_some named
  obtain ⟨comp, passed⟩ := exists_compacted bounded closed based
  rw [run_congr bounded passed suffix y]
  refine result_congr rfl rfl rfl rfl ?_ rfl rfl _ _
  obtain ⟨cur, final⟩ := exists_finish_run { rolloutSuffix := y } ops [] ran
  rw [final]
  exact isSome_absorbAll (·.window) (·.window) (fun _ _ => rfl) (fun _ _ => rfl)
    (mem_append_left _ closed) (((whole_of_bounded ops bounded).1 _ closed).window based)

/-- While the scan goes on although settings are known, no closed turn has a replacement history. -/
theorem noBase_of_running (bounded : ∀ x ∈ read, x.Bounded)
    (known : (run ops { rolloutSuffix := [] } [] read).Known)
    (running : (run ops { rolloutSuffix := [] } [] read).isSettled = false) :
    (¬ ∃ seg ∈ TurnCursor.closed ops {} read, seg.1.baseReplacementHistory.isSome = true) ∧
      (run ops { rolloutSuffix := [] } [] read).baseReplacementHistory = none := by
  have fresh :
      (run ops { rolloutSuffix := [] } [] read).baseReplacementHistory = none := by
    rw [← not_isSome_iff_eq_none]
    intro hit
    rw [isSettled, hit, known.1, known.2] at running
    exact Bool.noConfusion running
  refine ⟨?_, fresh⟩
  rintro ⟨⟨seg, flag⟩, closed, based⟩
  obtain rfl : flag = true :=
    (closed_survives ({} : TurnCursor R P U) ops bounded rfl).1 _ closed
  rw [run_eq] at fresh
  have hit := @isSome_absorbAll _ _ _ { rolloutSuffix := [] } _
    (·.baseReplacementHistory) (·.baseReplacementHistory) (fun _ _ => rfl) (fun _ _ => rfl) _ _
    closed based
  exact not_isSome_iff_eq_none.mpr fresh hit

theorem result_eq_of_closesWith {st fst snd : ReplayState R P U}
    {seg : ActiveReplaySegment R P U} (whole : seg.Whole)
    (based : seg.baseReplacementHistory.isSome = true)
    (left : st.ClosesWith seg fst) (right : st.ClosesWith seg snd)
    (xs others : List (RolloutItem R P)) : fst.result ops xs = snd.result ops others := by
  obtain ⟨comp, mem⟩ := whole.compacted based
  obtain ⟨leftOlder, leftWorld⟩ := left.world
  obtain ⟨rightOlder, rightWorld⟩ := right.world
  refine result_congr (left.base.trans right.base.symm)
    (left.settings.trans right.settings.symm) (left.reference.trans right.reference.symm)
    (left.window.trans right.window.symm) ?_ (left.suffix.trans right.suffix.symm) ?_ _ _
  · rw [left.window, isSome_or, whole.window based, Bool.or_true]
  rw [leftWorld, rightWorld, foldl_replayWorldState mem,
    foldl_replayWorldState mem]

theorem reconstruct_eq_of_cutIsSafe {older : List (RolloutItem R P)}
    (bounded : ∀ x ∈ read, x.Bounded) (mem : .compacted comp ∈ read)
    (safe : CutIsSafe ops read older) (windowId : Option Text) (tl : R) :
    reconstructHistoryFromRollout ops (.sessionMeta windowId tl :: read.reverse) =
      reconstructHistoryFromRollout ops
        (.sessionMeta windowId tl :: (older.reverse ++ read.reverse)) := by
  have left : (.sessionMeta windowId tl :: read.reverse).reverse =
      read ++ [.sessionMeta windowId tl] := by simp
  have right : (.sessionMeta windowId tl :: (older.reverse ++ read.reverse)).reverse =
      read ++ (older ++ [.sessionMeta windowId tl]) := by simp
  rw [reconstructHistoryFromRollout, reconstructHistoryFromRollout, left, right]
  rcases scan_append ops { rolloutSuffix := [] } [] read with
    ⟨scanned, others, rfl, settled, eq⟩ | ⟨running, eq⟩
  · -- the scan stops inside the part that was read
    have ins : ∀ x ∈ scanned, x.Bounded := fun x hit =>
      bounded x (mem_append_left _ hit)
    have stops : ∀ suffix older, ReplayState.scan ops { rolloutSuffix := suffix } []
        (scanned ++ others ++ older) = run ops { rolloutSuffix := suffix } [] scanned :=
      eq
    rw [stops, stops]
    exact result_eq_of_isSettled ins settled _ _ _ _
  -- the scan closes the turn that is open at the cut
  obtain ⟨allSurvive, pend⟩ :=
    closed_survives ({} : TurnCursor R P U) ops bounded rfl
  obtain ⟨closedWhole, openWhole⟩ := whole_of_bounded ops bounded
  obtain ⟨⟨user, flag⟩, closed, counts, settings⟩ := safe.settled
  obtain rfl : flag = true := allSurvive _ closed
  have goes : ∀ suffix older, ReplayState.scan ops { rolloutSuffix := suffix } []
      (read ++ older) = ReplayState.scan ops (run ops { rolloutSuffix := [] } [] read)
        (read.reverse ++ []) older := fun suffix older =>
    (eq suffix older).trans (by rw [← run_congr bounded mem suffix]; rfl)
  rw [goes, goes]
  have known : (run ops { rolloutSuffix := [] } [] read).Known := by
    rw [run_eq]
    exact known_absorbAll closed counts settings (closedWhole _ closed)
  obtain ⟨noneClosed, fresh⟩ :=
    noBase_of_running bounded known (running (ne_nil_of_mem mem))
  obtain ⟨segment, active, based⟩ := (exists_base bounded mem).resolve_left noneClosed
  have pos : (run ops { rolloutSuffix := [] } [] read).cursor =
      advance ops {} read := by
    rw [run_eq]
    rfl
  have opened : (run ops { rolloutSuffix := [] } [] read).activeSegment =
      some segment := (congrArg TurnCursor.activeSegment pos).trans active
  have whole := openWhole segment active
  have closes := fun older kept => closesWith_scan ops known fresh opened based
    (whole.window based) ⟨rfl, rfl, [], (append_nil _).symm⟩ (read.reverse ++ []) older kept
  refine result_eq_of_closesWith whole based (closes _ ?_) (closes _ ?_) _ _
  · rw [pos, ← nil_append [_], segments_append_sessionMeta]
    exact survives_atStart pend
  rw [pos, segments_append_sessionMeta]
  exact safe.survives.resolve_left noneClosed

end

def ActiveReplaySegment.settings? : ClosedSegment R P U → Option PreviousTurnSettings
  | (segment, true) => if segment.countsAsUserTurn then segment.previousTurnSettings else none
  | (_, false) => none

theorem previousTurnSettings_absorbAll (st : ReplayState R P U)
    (segs : List (ClosedSegment R P U)) :
    (st.absorbAll segs).previousTurnSettings =
      st.previousTurnSettings.or (segs.findSome? ActiveReplaySegment.settings?) := by
  induction segs generalizing st with
  | nil => exact (or_none ..).symm
  | cons seg segs ih =>
    refine (ih (st.absorb (some seg))).trans ?_
    match seg with
    | (seg, false) => rfl
    | (seg, true) =>
      cases user : seg.countsAsUserTurn <;> cases named : seg.previousTurnSettings <;>
        simp [absorb, ActiveReplaySegment.settings?, user, named]

theorem reconstruct_previousTurnSettings (ops : ReconstructionOps R P U W)
    (xs : List (RolloutItem R P)) :
    (reconstructHistoryFromRollout ops xs).previousTurnSettings =
      (turnSegments ops xs).findSome? ActiveReplaySegment.settings? := by
  obtain ⟨ran, tl, split, eq, stopped⟩ :=
    scan_eq_run { rolloutSuffix := xs } ops [] xs.reverse
  obtain ⟨cur, final⟩ := exists_finish_run { rolloutSuffix := xs } ops [] ran
  have hit : (reconstructHistoryFromRollout ops xs).previousTurnSettings =
      (segments ops {} ran).findSome? ActiveReplaySegment.settings? := by
    rw [reconstructHistoryFromRollout, eq, final]
    exact (previousTurnSettings_absorbAll _ _).trans (none_or ..)
  rw [hit, turnSegments, split]
  rcases stopped with rfl | settled
  · rw [append_nil]
  rw [isSettled, Bool.and_eq_true, Bool.and_eq_true, run_eq] at settled
  have known : (absorbAll { rolloutSuffix := xs }
      (closed ops {} ran)).previousTurnSettings.isSome = true := settled.1.2
  rw [previousTurnSettings_absorbAll] at known
  have known : ((closed ops {} ran).findSome?
      ActiveReplaySegment.settings?).isSome = true := by simpa using known
  obtain ⟨settings, named⟩ := isSome_iff_exists.mp known
  rw [segments, segments, closed_append, append_assoc,
    findSome?_append, findSome?_append, named, some_or, some_or]

def olderTurnItems (cur : TurnCursor R P U) (model : Text) (rest : R) : List (RolloutItem R P) :=
  let turnId := cur.activeSegment.bind (·.turnId)
  [.turnContext { turnId, model, compHash := none, realtimeActive := none, rest },
    .interAgentCommunication
      { id := none, author := [], recipient := [], content := [], encryptedContent := none,
        triggerTurn := false, metadata := none },
    .eventMsg (.turnStarted (turnId.getD []))]

theorem turnIdsAreCompatible_self (turnId : Option Text) :
    turnIdsAreCompatible turnId turnId = true := by
  cases turnId <;> simp [turnIdsAreCompatible]

theorem turnIdsAreCompatible_getD (turnId : Option Text) :
    turnIdsAreCompatible turnId (some (turnId.getD [])) = true := by
  cases turnId <;> simp [turnIdsAreCompatible]

theorem settings_olderTurnItems (ops : ReconstructionOps R P U W) {cur : TurnCursor R P U}
    (pend : cur.pendingRollbackTurns = 0) (model : Text) (tl : R) :
    (cur.segments ops (olderTurnItems cur model tl)).findSome?
        ActiveReplaySegment.settings? =
      some { model, compHash := none, realtimeActive := none } := by
  obtain ⟨turns, active⟩ := cur
  obtain rfl : turns = 0 := pend
  have eq : (active.getD {}).turnId.or (active.bind (·.turnId)) = active.bind (·.turnId) := by
    cases active with
    | none => rfl
    | some seg => exact or_self
  simp [olderTurnItems, segments, closed, step, close,
    ActiveReplaySegment.observe, ActiveReplaySegment.observeTurnContext,
    ActiveReplaySegment.setTurnId, eq, turnIdsAreCompatible_self, turnIdsAreCompatible_getD,
    ActiveReplaySegment.settings?, TurnContextItem.settings]

/-- Behind a cut without a user turn that reconstruction counts, older items decide about the
settings. -/
theorem exists_older_of_unsettled {ops : ReconstructionOps R P U W}
    {read : List (RolloutItem R P)} (bounded : ∀ x ∈ read, x.Bounded)
    (unsettled : ¬ ∃ seg ∈ TurnCursor.closed ops {} read,
      seg.1.countsAsUserTurn = true ∧ seg.1.previousTurnSettings.isSome = true)
    (windowId : Option Text) (tl : R) :
    ∃ older : List (RolloutItem R P), (∀ x ∈ older, x.isSessionMeta = false ∧ x.Bounded) ∧
      (reconstructHistoryFromRollout ops
          (.sessionMeta windowId tl :: read.reverse)).previousTurnSettings ≠
        (reconstructHistoryFromRollout ops
          (.sessionMeta windowId tl :: (older ++ read.reverse))).previousTurnSettings := by
  have pend := (closed_survives ({} : TurnCursor R P U) ops bounded rfl).2
  have silent : (TurnCursor.closed ops {} read).findSome? ActiveReplaySegment.settings? = none := by
    rw [findSome?_eq_none_iff]
    rintro ⟨seg, taken⟩ closed
    cases taken with
    | false => rfl
    | true =>
      rw [ActiveReplaySegment.settings?]
      split_ifs with user
      · rw [← not_isSome_iff_eq_none]
        exact fun named => unsettled ⟨_, closed, user, named⟩
      · rfl
  have hit : ∀ older : List (RolloutItem R P), (reconstructHistoryFromRollout ops
      (.sessionMeta windowId tl :: (older.reverse ++ read.reverse))).previousTurnSettings =
        ((advance ops {} read).segments ops older).findSome?
          ActiveReplaySegment.settings? := by
    intro older
    have reversed : (.sessionMeta windowId tl :: (older.reverse ++ read.reverse)).reverse =
        read ++ older ++ [.sessionMeta windowId tl] := by simp
    rw [reconstruct_previousTurnSettings, turnSegments, reversed, segments_append_sessionMeta,
      segments, closed_append, advance_append, append_assoc,
      findSome?_append, silent]
    rfl
  have pre := hit []
  generalize atCut : ((advance ops {} read).segments ops []).findSome?
    ActiveReplaySegment.settings? = settings at pre
  have model := settings_olderTurnItems ops pend
    ((settings.map (·.model)).getD [] ++ ['x']) tl
  refine ⟨(olderTurnItems (advance ops {} read)
    ((settings.map (·.model)).getD [] ++ ['x']) tl).reverse, ?_, ?_⟩
  · intro x mem
    rw [mem_reverse, olderTurnItems] at mem
    simp only [mem_cons, not_mem_nil, or_false] at mem
    rcases mem with rfl | rfl | rfl
    all_goals
      refine ⟨rfl, fun numTurns eq => ?_, fun comp eq => ?_⟩
      all_goals cases eq
  rw [hit, model]
  refine fun equal => ?_
  rw [reverse_nil, nil_append] at pre
  rw [pre] at equal
  cases settings with
  | none => cases equal
  | some settings =>
    have names : settings.model = settings.model ++ ['x'] :=
      congrArg PreviousTurnSettings.model (Option.some.inj equal)
    exact absurd (congrArg List.length names) (by simp)

/-- Resuming from what is read suffices if that is everything or the cut is safe. -/
theorem scanModelContext_sufficient (ops : ReconstructionOps R P U W) (windowId : Option Text)
    (rest : R) (items : List (RolloutItem R P))
    (inside : ∀ item ∈ items, item.isSessionMeta = false) :
    let resumed := fun items : List (RolloutItem R P) => reconstructHistoryFromRollout ops
      (scanModelContext ops.toFragmentOps (.sessionMeta windowId rest) items)
    let complete := fun items : List (RolloutItem R P) => reconstructHistoryFromRollout ops
      (.sessionMeta windowId rest :: items)
    let read := scannedItems ops.toFragmentOps items
    let unread := unreadItems ops.toFragmentOps items
    (unread = [] ∨ CutIsSafe ops read unread → resumed items = complete items) ∧
      (unread ≠ [] → (¬ ∃ segment ∈ TurnCursor.closed ops {} read,
          segment.1.countsAsUserTurn = true ∧ segment.1.previousTurnSettings.isSome = true) →
        ∃ older, (∀ item ∈ older, item.isSessionMeta = false ∧ item.Bounded) ∧
          resumed (older ++ read.reverse) ≠ complete (older ++ read.reverse)) := by
  intro resumed complete read unread
  have ctx := scanModelContext_eq ops.toFragmentOps windowId rest inside
  rcases scannedItems_cases ops.toFragmentOps items with
    ⟨whole, none⟩ | ⟨split, bounded, ⟨comp, mem⟩, stops⟩
  · refine ⟨fun _ => ?_, fun some => absurd none some⟩
    change reconstructHistoryFromRollout ops (scanModelContext _ _ _) = _
    rw [ctx, whole, reverse_reverse]
  have order : items = unread.reverse ++ read.reverse := by
    rw [← reverse_append, split, reverse_reverse]
  constructor
  · intro condition
    change reconstructHistoryFromRollout ops (scanModelContext _ _ _) =
      reconstructHistoryFromRollout ops (_ :: items)
    rw [ctx]
    rcases condition with none | safe
    · rw [none] at order
      exact congrArg (fun all => reconstructHistoryFromRollout ops (_ :: all)) order.symm
    · rw [reconstruct_eq_of_cutIsSafe bounded mem safe, ← order]
  intro _ unsettled
  obtain ⟨older, plain, ne⟩ := exists_older_of_unsettled bounded unsettled windowId rest
  refine ⟨older, plain, fun equal => ne ?_⟩
  have out : ∀ item ∈ older ++ read.reverse, item.isSessionMeta = false := by
    intro item found
    rcases mem_append.mp found with found | found
    · exact (plain item found).1
    refine inside item ?_
    rw [order]
    exact mem_append_right _ found
  have eq := scanModelContext_eq ops.toFragmentOps windowId rest out
  rw [stops] at eq
  have shorter : resumed (older ++ read.reverse) =
      reconstructHistoryFromRollout ops (.sessionMeta windowId rest :: read.reverse) :=
    congrArg (reconstructHistoryFromRollout ops) eq
  rw [shorter] at equal
  exact congrArg RolloutReconstruction.previousTurnSettings equal

def turnContextOf (turnId model : String) : RolloutItem Unit Text :=
  .turnContext
    { turnId := some turnId.toList, model := model.toList, compHash := none, realtimeActive := none,
      rest := () }

def userTurn (turnId model text : String) : List (RolloutItem Unit Text) :=
  [.eventMsg (.turnStarted turnId.toList), turnContextOf turnId model,
    .responseItem (userText text), .eventMsg (.itemCompleted turnId.toList true),
    .eventMsg (.turnComplete turnId.toList)]

def compactTurn (turnId : String) : List (RolloutItem Unit Text) :=
  [.eventMsg (.turnStarted turnId.toList),
    .compacted { compactedTo [userText "summary"] with windowNumber := some 1 },
    .eventMsg (.turnComplete turnId.toList)]

theorem scanModelContext_sufficient_userTurn :
    let items := userTurn "1" "a" "one" ++ userTurn "2" "b" "two" ++ compactTurn "3"
    (∀ item ∈ items, item.isSessionMeta = false) ∧ reconstructHistoryFromRollout textOps
          (scanModelContext textOps.toFragmentOps (.sessionMeta none ()) items) =
        reconstructHistoryFromRollout textOps (.sessionMeta none () :: items) := by
  refine ⟨by decide, (scanModelContext_sufficient textOps none () _ (by decide)).1 (.inr ⟨?_, ?_⟩)⟩
  · have hit : (closed textOps {} (scannedItems textOps.toFragmentOps
        (userTurn "1" "a" "one" ++ userTurn "2" "b" "two" ++ compactTurn "3"))).any (fun seg =>
          seg.1.countsAsUserTurn && seg.1.previousTurnSettings.isSome) = true := by
      decide +kernel
    obtain ⟨seg, mem, both⟩ := List.any_eq_true.mp hit
    exact ⟨seg, mem, Bool.and_eq_true_iff.mp both⟩
  left
  exact List.any_eq_true.mp (by decide +kernel)

/-- The scan stops behind a message that reads like injected context, and settings are lost. -/
theorem scanModelContext_loses_settings :
    let items := userTurn "1" "a" "one" ++
      userTurn "2" "b" "<environment_context></environment_context>" ++ compactTurn "3"
    (∀ item ∈ items, item.isSessionMeta = false) ∧ (reconstructHistoryFromRollout textOps
          (scanModelContext textOps.toFragmentOps (.sessionMeta none ()) items)
        ).previousTurnSettings = none ∧
      (reconstructHistoryFromRollout textOps (.sessionMeta none () :: items)).previousTurnSettings =
        some { model := "a", compHash := none, realtimeActive := none } := by
  refine ⟨by decide, by decide +kernel, by decide +kernel⟩

end Codex.Session
