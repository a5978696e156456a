import Codex.Foundation.Journal
import Codex.Rollout.Writer

/-!
# Every item is recorded exactly once

What was added is recorded once or still queued.
-/

namespace Codex.Rollout

open Journal List

/-- The ordinals of the first `count` lines of a rollout. -/
def numbering (mode : ThreadHistoryMode) (base : Option ℕ) (count : ℕ) : List (Option ℕ) :=
  match mode with
  | .legacy => List.replicate count none
  | .paginated => (List.range' (base.getD 0) count).map some

/-- The state of the ordinals after `count` lines; it may have run out of ordinals. -/
def Numbered (mode : ThreadHistoryMode) (base : Option ℕ) (count : ℕ)
    (ordinalState : RolloutOrdinalState) : Prop :=
  match mode with
  | .legacy => ordinalState = .legacy
  | .paginated => ∃ next, ordinalState = .paginated next ∧
      ∀ ordinal ∈ next, ordinal = base.getD 0 + count

section

variable {mode : ThreadHistoryMode} {base : Option ℕ} {count : ℕ}
  {ordinalState : RolloutOrdinalState}

theorem numbered_forNewRollout (mode : ThreadHistoryMode) (base : Option ℕ) :
    Numbered mode base 0 (.forNewRollout mode base) := by
  cases mode with
  | legacy => rfl
  | paginated =>
    refine ⟨_, rfl, ?_⟩
    intro ordinal next
    exact (Option.some.inj next).symm

theorem Numbered.advance (numbered : Numbered mode base count ordinalState) :
    Numbered mode base (count + 1) ordinalState.advance := by
  cases mode with
  | legacy =>
    obtain rfl := numbered
    rfl
  | paginated =>
    obtain ⟨next, rfl, exact⟩ := numbered
    cases next with
    | none => exact ⟨none, rfl, fun ordinal never => by cases never⟩
    | some last =>
      refine ⟨_, rfl, ?_⟩
      intro ordinal next
      obtain ⟨-, eq⟩ := Option.ite_none_right_eq_some.mp next
      cases eq
      rw [exact last rfl, Nat.add_assoc]

theorem Numbered.numbering_succ (numbered : Numbered mode base count ordinalState)
    {ordinal : Option ℕ} (cur : ordinalState.current = .ok ordinal) :
    numbering mode base (count + 1) = numbering mode base count ++ [ordinal] := by
  cases mode with
  | legacy =>
    obtain rfl := numbered
    obtain rfl : none = ordinal := Except.ok.inj cur
    exact replicate_succ'
  | paginated =>
    obtain ⟨next, rfl, exact⟩ := numbered
    cases next with
    | none => cases cur
    | some last =>
      obtain rfl : some last = ordinal := Except.ok.inj cur
      rw [exact last rfl]
      simp only [numbering, range'_concat, map_append, Nat.one_mul, map_cons, map_nil]

end

section

variable {T M G I : Type} (codec : RolloutCodec T M G I) (mode : ThreadHistoryMode)
  (base : Option ℕ)

/-- The records are `items`, with `pending` and `owed` still to be written. -/
structure Logged (items wait : List (RolloutItem M G I)) (owed : Option M)
    (state : RolloutWriterState M G I) : Prop where
  items_eq : (records newline codec.parse state.file).map (·.item) = items
  ordinals_eq : (records newline codec.parse state.file).map (·.ordinal) =
    numbering mode base items.length
  numbered : Numbered mode base items.length state.ordinalState
  pending_eq : state.pendingItems = wait
  owed_eq : state.sessionMeta = owed

structure Ready (items wait : List (RolloutItem M G I)) (owed : Option M)
    (state : RolloutWriterState M G I) : Prop extends
    Logged codec mode base items wait owed state where
  isOpen : state.writer = true
  ends : Terminated newline state.file

def Sealed (state : RolloutWriterState M G I) : Prop :=
  state.writer = true → Terminated newline state.file

end

theorem terminated_ensureRolloutIsNewlineTerminated (file : List UInt8) :
    Terminated newline (ensureRolloutIsNewlineTerminated file) := by
  rw [ensureRolloutIsNewlineTerminated]
  split_ifs with empty open_
  · exact terminated_iff.mpr (.inl empty)
  · exact terminated_append file
  · exact terminated_iff.mpr (.inr (not_not.mp open_))

theorem records_ensureRolloutIsNewlineTerminated {T M G I : Type} (codec : RolloutCodec T M G I)
    (file : List UInt8) :
    records newline codec.parse (ensureRolloutIsNewlineTerminated file) =
      records newline codec.parse file := by
  rw [ensureRolloutIsNewlineTerminated]
  split_ifs
  · rfl
  · exact records_terminate codec.parse_nil file
  · rfl

open Triple

section

variable {T M G I : Type} {codec : RolloutCodec T M G I} {io : RolloutIo T G}
  {mode : ThreadHistoryMode} {base : Option ℕ}
  {items wait : List (RolloutItem M G I)} {owed : Option M}

theorem openLogFile_triple : Triple (Logged codec mode base items wait owed) (openLogFile io)
      (fun _ st => Logged codec mode base items wait owed st ∧ Terminated newline st.file)
      (fun _ => Logged codec mode base items wait owed) := by
  intro st logged
  rw [openLogFile]
  cases io.opens st.operations with
  | false => exact { logged with }
  | true =>
    refine ⟨{ logged with items_eq := ?_, ordinals_eq := ?_ },
      terminated_ensureRolloutIsNewlineTerminated st.file⟩
    · exact (congrArg _ (records_ensureRolloutIsNewlineTerminated codec st.file)).trans
        logged.items_eq
    exact (congrArg _ (records_ensureRolloutIsNewlineTerminated codec st.file)).trans
      logged.ordinals_eq

theorem ensureWriterOpen_triple : Triple (fun st => Logged codec mode base items wait owed st ∧
        Sealed st) (ensureWriterOpen io) (fun _ => Ready codec mode base items wait owed)
      (fun _ => Logged codec mode base items wait owed) := by
  refine read fun st holds => ?_
  cases isOpen : st.writer with
  | true =>
    refine pure fun reached eq => ?_
    subst eq
    exact { holds.1 with isOpen := isOpen, ends := holds.2 isOpen }
  | false =>
    refine bind (openLogFile_triple.startAt holds.1) fun _ => Triple.modify ?_
    rintro reached ⟨logged, ends⟩
    exact { logged with isOpen := rfl, ends := ends }

theorem writeSessionMetaIfNeeded_none_triple : Triple (Ready codec mode base items wait none)
      (writeSessionMetaIfNeeded codec io) (fun _ => Ready codec mode base items wait none)
      (fun _ => Logged codec mode base items wait none) := by
  refine read fun st ready => ?_
  rw [ready.owed_eq]
  refine pure ?_
  rintro _ rfl
  exact ready

variable (cutShort : ∀ op, io.torn op ≠ some 0)
include cutShort

theorem writeRolloutItem_triple {x : RolloutItem M G I} {start : RolloutWriterState M G I}
    {ordinal : Option ℕ} (ready : Ready codec mode base items wait owed start)
    (cur : start.ordinalState.current = .ok ordinal) :
    Triple (· = start) (writeRolloutItem codec io x ordinal)
      (fun _ st => Ready codec mode base (items ++ [x]) wait owed
        { st with ordinalState := st.ordinalState.advance })
      (fun _ => Logged codec mode base items wait owed) := by
  rintro _ rfl
  rename_i st
  simp only [writeRolloutItem]
  have unbroken := codec.singleLine ⟨io.timestamp st.operations, ordinal, x⟩
  cases cut : io.torn st.operations with
  | none =>
    have added := records_append_line codec.parse_nil ready.ends unbroken
      (codec.parse_serialize _)
    refine { ready with
      items_eq := ?_, ordinals_eq := ?_, numbered := ?_, ends := ?_ }
    · rw [added, map_append, ready.items_eq]
      rfl
    · rw [added, map_append, ready.ordinals_eq, length_append, length_singleton,
        ready.numbered.numbering_succ cur]
      rfl
    · rw [length_append, length_singleton]
      exact ready.numbered.advance
    rw [← append_assoc]
    exact terminated_append _
  | some lost =>
    have ins : lost ≠ 0 := fun none => cutShort st.operations (none ▸ cut)
    have kept := records_append_torn codec.parse_nil ready.ends
      (fun mem => unbroken (mem_of_mem_take mem))
      (codec.parse_cut ⟨io.timestamp st.operations, ordinal, x⟩ lost ins)
    refine { ready.toLogged with items_eq := ?_, ordinals_eq := ?_ }
    · exact (congrArg _ kept).trans ready.items_eq
    · exact (congrArg _ kept).trans ready.ordinals_eq

theorem writeNumbered_triple (x : RolloutItem M G I) :
    Triple (Ready codec mode base items wait owed) (writeNumbered codec io x)
      (fun _ => Ready codec mode base (items ++ [x]) wait owed)
      (fun _ => Logged codec mode base items wait owed) := by
  refine read fun st ready => ?_
  cases cur : st.ordinalState.current with
  | error err =>
    rintro _ rfl
    exact ready.toLogged
  | ok ordinal =>
    rw [liftExcept_ok_bind]
    exact bind (writeRolloutItem_triple cutShort ready cur) fun _ =>
      Triple.modify fun _ holds => holds

theorem writeSessionMeta_triple (metadata : M) :
    Triple (Ready codec mode base items wait owed) (writeSessionMeta codec io metadata)
      (fun _ st => ∃ git, Ready codec mode base (items ++ [.sessionMeta metadata git]) wait owed st)
      (fun _ => Logged codec mode base items wait owed) := by
  refine read fun st ready => ?_
  rw [if_pos ready.isOpen]
  exact ((writeNumbered_triple cutShort _).startAt ready).weaken fun _ _ next => ⟨_, next⟩

theorem writeSessionMetaIfNeeded_triple (metadata : M) :
    Triple (Ready codec mode base items wait (some metadata)) (writeSessionMetaIfNeeded codec io)
      (fun _ st => ∃ git, Ready codec mode base (items ++ [.sessionMeta metadata git]) wait none st)
      (fun _ => Logged codec mode base items wait (some metadata)) := by
  refine read fun st ready => ?_
  rw [ready.owed_eq]
  refine bind ((writeSessionMeta_triple cutShort metadata).startAt ready) fun _ =>
    Triple.modify ?_
  rintro next ⟨git, written⟩
  exact ⟨git, { written with owed_eq := rfl }⟩

theorem writeItems_triple (queue : List (RolloutItem M G I)) (writtenCount : ℕ)
    {failed : IoError → RolloutWriterState M G I → Prop} :
    Triple (Ready codec mode base items wait owed) (writeItems codec io queue writtenCount)
      (fun res st => ∃ front back, queue = front ++ back ∧ res.1 = writtenCount + front.length ∧
        Logged codec mode base (items ++ front) wait owed st ∧
        (res.2 = .ok ⟨⟩ → back = [] ∧ Ready codec mode base (items ++ front) wait owed st))
      failed := by
  induction queue generalizing items writtenCount with
  | nil =>
    refine pure fun st ready => ⟨[], [], rfl, rfl, ?_⟩
    rw [append_nil]
    exact ⟨ready.toLogged, fun _ => ⟨rfl, ready⟩⟩
  | cons x queue ih =>
    refine bind (writeNumbered_triple cutShort x).attempt fun res => ?_
    cases res with
    | ok val =>
      refine (ih (writtenCount + 1)).weaken ?_
      rintro res st ⟨front, back, rfl, cnt, reached⟩
      refine ⟨x :: front, back, rfl, ?_, ?_⟩
      · rw [cnt, length_cons]
        omega
      · rwa [append_assoc, singleton_append] at reached
    | error err =>
      refine pure fun st logged => ⟨[], x :: queue, rfl, rfl, ?_⟩
      rw [append_nil]
      exact ⟨logged, fun never => by cases never⟩

theorem writePendingItemsOnce_triple :
    Triple (Ready codec mode base items wait owed) (writePendingItemsOnce codec io)
      (fun _ => Ready codec mode base (items ++ wait) [] owed)
      (fun _ st => ∃ front back, wait = front ++ back ∧
        Logged codec mode base (items ++ front) back owed st) := by
  refine read fun st ready => ?_
  rw [if_pos ready.isOpen, ready.pending_eq]
  refine bind ((writeItems_triple cutShort wait 0).startAt ready) fun written => ?_
  -- Dropping the written items leaves exactly those the loop did not reach.
  refine update (fun st => ∃ front back, wait = front ++ back ∧
    Logged codec mode base (items ++ front) back owed st ∧
    (written.2 = .ok ⟨⟩ → back = [] ∧ Ready codec mode base (items ++ front) back owed st)) ?_ ?_
  · rintro st ⟨front, back, split, cnt, logged, complete⟩
    have left : st.pendingItems.drop written.1 = back := by
      rw [cnt, logged.pending_eq, split, Nat.zero_add, drop_left]
    refine ⟨front, back, split, { logged with pending_eq := left }, fun succeeded => ?_⟩
    exact ⟨(complete succeeded).1, { (complete succeeded).2 with pending_eq := left }⟩
  refine Triple.liftExcept.consequence (fun _ holds => holds) ?_ ?_
  · rintro _ st ⟨⟨front, back, split, -, complete⟩, succeeded⟩
    obtain ⟨rfl, done⟩ := complete succeeded
    rwa [split, append_nil]
  rintro _ st ⟨⟨front, back, split, logged, -⟩, -⟩
  exact ⟨front, back, split, logged⟩

end

section

variable {T M G I : Type} {codec : RolloutCodec T M G I} {io : RolloutIo T G}
  {mode : ThreadHistoryMode} {base : Option ℕ} {metadata : M}
  {added : List (RolloutItem M G I)}

/-- Recorded and queued items make up what was added, the metadata too unless owed. -/
def Accounts (metadata : M) (added items wait : List (RolloutItem M G I)) : Option M → Prop
  | some owed => owed = metadata ∧ items = [] ∧ wait = added
  | none => ∃ git, items ++ wait = .sessionMeta metadata git :: added

variable (codec mode base metadata added) in
def Progress (state : RolloutWriterState M G I) : Prop :=
  ∃ items wait owed, Accounts metadata added items wait owed ∧
    Logged codec mode base items wait owed state

variable (codec mode base metadata added) in
def Complete (state : RolloutWriterState M G I) : Prop :=
  ∃ git, Ready codec mode base (.sessionMeta metadata git :: added) [] none state

theorem Complete.progress {state : RolloutWriterState M G I}
    (full : Complete codec mode base metadata added state) :
    Progress codec mode base metadata added state ∧ Sealed state := by
  obtain ⟨git, ready⟩ := full
  exact ⟨⟨_, [], none, ⟨git, append_nil _⟩, ready.toLogged⟩, fun _ => ready.ends⟩

variable {failed : IoError → RolloutWriterState M G I → Prop}

theorem enterRecoveryMode_triple :
    Triple (Progress codec mode base metadata added) enterRecoveryMode
      (fun _ state => Progress codec mode base metadata added state ∧ Sealed state)
      failed := by
  refine Triple.modify ?_
  rintro state ⟨xs, wait, owed, accounts, logged⟩
  exact ⟨⟨xs, wait, owed, accounts, { logged with }⟩, fun never => by cases never⟩

def RolloutCmd.items : RolloutCmd M G I → List (RolloutItem M G I)
  | .addItems items => items
  | .persist | .flush | .shutdown => []

def addedItems (commands : List (RolloutCmd M G I)) : List (RolloutItem M G I) :=
  commands.flatMap RolloutCmd.items

def RolloutCmd.Writes (state : RolloutWriterState M G I) : RolloutCmd M G I → Prop
  | .addItems _ => False
  | .persist => True
  | .flush | .shutdown => state.isIdle = false

theorem Accounts.append {xs wait : List (RolloutItem M G I)} {owed : Option M}
    (accounts : Accounts metadata added xs wait owed) (new : List (RolloutItem M G I)) :
    Accounts metadata (added ++ new) xs (wait ++ new) owed := by
  cases owed with
  | some owed =>
    obtain ⟨rfl, rfl, rfl⟩ := accounts
    exact ⟨rfl, rfl, rfl⟩
  | none =>
    obtain ⟨git, total⟩ := accounts
    exact ⟨git, by rw [← append_assoc, total, cons_append]⟩

variable (codec mode base metadata added) in
def Consistent (state : RolloutWriterState M G I) : Prop :=
  Progress codec mode base metadata added state ∧ Sealed state

theorem addItems_triple (new : List (RolloutItem M G I)) :
    Triple (Consistent codec mode base metadata added) (addItems new)
      (fun _ => Consistent codec mode base metadata (added ++ new)) failed := by
  refine Triple.modify ?_
  rintro state ⟨⟨xs, wait, owed, accounts, logged⟩, intact⟩
  refine ⟨⟨xs, wait ++ new, owed, accounts.append new, ?_⟩, intact⟩
  exact { logged with pending_eq := congrArg (· ++ new) logged.pending_eq }

theorem flush_of_busy {state : RolloutWriterState M G I} (busy : state.isIdle = false) :
    flush codec io state = writePendingWithRecovery codec io state := by
  change (if state.isIdle then _ else _ : RolloutM M G I PUnit) state = _
  rw [busy]
  rfl

variable {state final : RolloutWriterState M G I}

theorem rolloutWriter_cons {cmd : RolloutCmd M G I} {commands : List (RolloutCmd M G I)}
    (running : rolloutWriter codec io (cmd :: commands) state = some final) :
    rolloutWriter codec io commands (finalState (handle codec io cmd state)) = some final := by
  cases cmd with
  | addItems | persist | flush => exact running
  | shutdown =>
    rw [rolloutWriter] at running
    rw [handle]
    cases answer : shutdown codec io state with
    | ok val next =>
      rw [answer] at running
      cases running
    | error err next =>
      rw [answer] at running
      exact running

theorem consistent_newRollout : Consistent codec mode base metadata []
      (newRollout metadata mode base) := by
  have empty : records newline codec.parse [] = [] := records_nil codec.parse_nil
  refine ⟨⟨[], [], some metadata, ⟨rfl, rfl, rfl⟩, ?_⟩, fun never => by cases never⟩
  exact
    { items_eq := congrArg _ empty
      ordinals_eq := (congrArg _ empty).trans (by cases mode <;> rfl)
      numbered := numbered_forNewRollout mode base
      pending_eq := rfl
      owed_eq := rfl }

variable (cutShort : ∀ op, io.torn op ≠ some 0)
include cutShort

theorem writePendingItemsOnce_progress {xs wait : List (RolloutItem M G I)}
    (accounts : Accounts metadata added xs wait none) :
    Triple (Ready codec mode base xs wait none) (writePendingItemsOnce codec io)
      (fun _ => Complete codec mode base metadata added)
      (fun _ => Progress codec mode base metadata added) := by
  obtain ⟨git, total⟩ := accounts
  refine (writePendingItemsOnce_triple cutShort).consequence (fun _ ready => ready) ?_ ?_
  · intro _ state ready
    rw [total] at ready
    exact ⟨git, ready⟩
  rintro _ state ⟨front, back, split, logged⟩
  refine ⟨xs ++ front, back, none, ⟨git, ?_⟩, logged⟩
  rw [append_assoc, ← split, total]

theorem writePendingOnce_triple :
    Triple (fun state => Progress codec mode base metadata added state ∧
        Sealed state) (writePendingOnce codec io) (fun _ => Complete codec mode base metadata added)
      (fun _ => Progress codec mode base metadata added) := by
  rintro state ⟨⟨xs, wait, owed, accounts, logged⟩, intact⟩
  have kept : ∀ state, Logged codec mode base xs wait owed state →
      Progress codec mode base metadata added state :=
    fun state logged => ⟨xs, wait, owed, accounts, logged⟩
  refine Triple.bind (ensureWriterOpen_triple.weakenFailed fun _ => kept) (fun _ => ?_) state
    ⟨logged, intact⟩
  cases owed with
  | none =>
    refine Triple.bind (writeSessionMetaIfNeeded_none_triple.weakenFailed fun _ => kept)
      fun _ => ?_
    exact writePendingItemsOnce_progress cutShort accounts
  | some owed =>
    obtain ⟨rfl, rfl, rfl⟩ := accounts
    refine Triple.bind ((writeSessionMetaIfNeeded_triple cutShort owed).weakenFailed
      fun _ => kept) fun _ => Triple.choose fun git => ?_
    exact writePendingItemsOnce_progress cutShort ⟨git, rfl⟩

theorem writePendingWithRecovery_triple :
    Triple (fun state => Progress codec mode base metadata added state ∧
        Sealed state) (writePendingWithRecovery codec io)
      (fun _ => Complete codec mode base metadata added)
      (fun _ state => Progress codec mode base metadata added state ∧ Sealed state) := by
  refine Triple.bind (writePendingOnce_triple cutShort).attempt fun fst => ?_
  cases fst with
  | ok val => exact Triple.pure fun _ full => full
  | error err =>
    refine Triple.bind enterRecoveryMode_triple fun _ => ?_
    refine Triple.bind (writePendingOnce_triple cutShort).attempt fun snd => ?_
    cases snd with
    | ok val => exact Triple.pure fun _ full => full
    | error err =>
      exact Triple.bind enterRecoveryMode_triple fun _ => Triple.throw fun _ holds => holds

theorem writePendingWithRecovery_consistent :
    Triple (Consistent codec mode base metadata added) (writePendingWithRecovery codec io)
      (fun _ => Consistent codec mode base metadata added)
      (fun _ => Consistent codec mode base metadata added) :=
  (writePendingWithRecovery_triple cutShort).weaken fun _ _ full => full.progress

theorem flush_triple :
    Triple (Consistent codec mode base metadata added) (flush codec io)
      (fun _ => Consistent codec mode base metadata added)
      (fun _ => Consistent codec mode base metadata added) := by
  refine Triple.read fun state sound => ?_
  cases state.isIdle with
  | true =>
    refine Triple.pure ?_
    rintro _ rfl
    exact sound
  | false => exact (writePendingWithRecovery_consistent cutShort).startAt sound

theorem flushIfMaterialized_triple :
    Triple (Consistent codec mode base metadata added) (flushIfMaterialized codec io)
      (fun _ => Consistent codec mode base metadata added)
      (fun _ => Consistent codec mode base metadata added) := by
  refine Triple.read fun state sound => ?_
  cases state.isDeferred with
  | true =>
    refine Triple.pure ?_
    rintro _ rfl
    exact sound
  | false =>
    refine Triple.bind ((flush_triple cutShort).attempt.startAt sound) fun res => ?_
    cases res with
    | ok val => exact Triple.pure fun _ holds => holds
    | error err => exact enterRecoveryMode_triple.narrow fun _ holds => holds.1

theorem handle_triple (cmd : RolloutCmd M G I) :
    Triple (Consistent codec mode base metadata added) (handle codec io cmd)
      (fun _ => Consistent codec mode base metadata (added ++ cmd.items))
      (fun _ => Consistent codec mode base metadata (added ++ cmd.items)) := by
  cases cmd with
  | addItems xs =>
    exact Triple.bind (addItems_triple xs) fun _ => flushIfMaterialized_triple cutShort
  | persist =>
    rw [RolloutCmd.items, append_nil]
    exact writePendingWithRecovery_consistent cutShort
  | flush | shutdown =>
    rw [RolloutCmd.items, append_nil]
    exact flush_triple cutShort

theorem rolloutWriter_consistent (commands : List (RolloutCmd M G I))
    (sound : Consistent codec mode base metadata added state)
    (running : rolloutWriter codec io commands state = some final) :
    Consistent codec mode base metadata (added ++ addedItems commands) final := by
  induction commands generalizing state added with
  | nil =>
    obtain rfl : state = final := Option.some.inj running
    rwa [addedItems, flatMap_nil, append_nil]
  | cons cmd commands ih =>
    have next := ih ((handle_triple cutShort cmd).finalState sound)
      (rolloutWriter_cons running)
    rwa [append_assoc] at next

theorem handle_complete {barrier : RolloutCmd M G I} {answered : RolloutWriterState M G I}
    (sound : Consistent codec mode base metadata added state)
    (writes : barrier.Writes state) (succeeded : handle codec io barrier state = .ok ⟨⟩ answered) :
    Complete codec mode base metadata added answered := by
  have written : writePendingWithRecovery codec io state = .ok ⟨⟩ answered := by
    cases barrier with
    | addItems xs => exact writes.elim
    | persist => exact succeeded
    | flush | shutdown => exact (flush_of_busy writes).symm.trans succeeded
  exact (writePendingWithRecovery_triple cutShort).of_ok sound written

omit cutShort in
/-- Unless a write loses just a line break, a barrier leaves every item recorded once, in order. -/
theorem rolloutWriter_exactlyOnce (codec : RolloutCodec T M G I) (io : RolloutIo T G) (metadata : M)
    (mode : ThreadHistoryMode) (base : Option ℕ)
    (cutShort : ∀ op, io.torn op ≠ some 0) (commands : List (RolloutCmd M G I))
    (barrier : RolloutCmd M G I) (state answered : RolloutWriterState M G I)
    (running : rolloutWriter codec io commands (newRollout metadata mode base) = some state)
    (writes : barrier.Writes state) (succeeded : handle codec io barrier state = .ok ⟨⟩ answered) :
    ∃ git, (records newline codec.parse answered.file).map (·.item) =
        .sessionMeta metadata git :: addedItems commands ∧
      (records newline codec.parse answered.file).map (·.ordinal) =
        numbering mode base ((addedItems commands).length + 1) := by
  have consistent := rolloutWriter_consistent cutShort commands consistent_newRollout running
  rw [nil_append] at consistent
  obtain ⟨git, ready⟩ := handle_complete cutShort consistent writes succeeded
  exact ⟨git, ready.items_eq, ready.ordinals_eq⟩

end

abbrev SampleItem := RolloutItem Unit Unit Bool

abbrev SampleLine := RolloutLine Unit Unit Unit Bool

def sampleItems : List SampleItem :=
  [.sessionMeta () none, .sessionMeta () (some ()), .other false, .other true]

def itemByte : SampleItem → UInt8
  | .sessionMeta () none => 50
  | .sessionMeta () (some ()) => 51
  | .other false => 52
  | .other true => 53

def strokes : Option ℕ → ℕ
  | none => 0
  | some ordinal => ordinal + 1

def ofStrokes : ℕ → Option ℕ
  | 0 => none
  | ordinal + 1 => some ordinal

/-- A digit `1` for each number up to the ordinal and a digit for the item. -/
def bodyBytes (line : SampleLine) : List UInt8 :=
  replicate (strokes line.ordinal) 49 ++ [itemByte line.item]

/-- The line is closed by a brace, as the JSON of a line is. -/
def lineBytes (line : SampleLine) : List UInt8 :=
  bodyBytes line ++ [125]

def parseLine (bytes : List UInt8) : Option SampleLine :=
  (sampleItems.map (⟨(), ofStrokes (bytes.count 49), ·⟩)).find? (lineBytes · = bytes)

theorem itemByte_plain (item : SampleItem) :
    itemByte item ≠ 49 ∧ itemByte item ≠ newline ∧ itemByte item ≠ 125 := by
  rcases item with ⟨⟨⟩, ⟨⟩ | ⟨⟨⟩⟩⟩ | ⟨⟨⟩ | ⟨⟩⟩ <;> decide

theorem bodyBytes_plain (line : SampleLine) : newline ∉ bodyBytes line ∧ 125 ∉ bodyBytes line := by
  have plain := itemByte_plain line.item
  constructor <;> intro mem <;> rcases mem_append.mp mem with stroke | last
  · exact absurd (eq_of_mem_replicate stroke) (by decide)
  · exact plain.2.1 (mem_singleton.mp last).symm
  · exact absurd (eq_of_mem_replicate stroke) (by decide)
  · exact plain.2.2 (mem_singleton.mp last).symm

theorem parseLine_lineBytes (line : SampleLine) : parseLine (lineBytes line) = some line := by
  obtain ⟨⟨⟩, ordinal, item⟩ := line
  have ordinals : ofStrokes ((lineBytes ⟨(), ordinal, item⟩).count 49) = ordinal := by
    have other := (itemByte_plain item).1
    cases ordinal <;> simp [lineBytes, bodyBytes, strokes, ofStrokes, other]
  rw [parseLine, ordinals]
  rcases item with ⟨⟨⟩, ⟨⟩ | ⟨⟨⟩⟩⟩ | ⟨⟨⟩ | ⟨⟩⟩ <;>
    simp [sampleItems, lineBytes, bodyBytes, itemByte]

theorem parseLine_eq_none {bytes : List UInt8} (openEnded : 125 ∉ bytes) :
    parseLine bytes = none := by
  refine find?_eq_none.mpr fun line _ parsed => openEnded ?_
  rw [← of_decide_eq_true parsed]
  exact mem_append_right _ (mem_singleton_self _)

/-- A codec to run the writer with. -/
def lineCodec : RolloutCodec Unit Unit Unit Bool where
  serialize := lineBytes
  parse := parseLine
  parse_serialize := parseLine_lineBytes
  singleLine line mem := by
    rcases mem_append.mp mem with body | last
    · exact (bodyBytes_plain line).1 body
    · exact absurd (mem_singleton.mp last) (by decide)
  parse_nil := parseLine_eq_none not_mem_nil
  parse_cut line lost some := by
    obtain ⟨more, rfl⟩ := Nat.exists_eq_succ_of_ne_zero some
    refine parseLine_eq_none fun mem => (bodyBytes_plain line).2 ?_
    rw [lineBytes, rdrop_concat_succ] at mem
    exact mem_of_mem_take mem

def failingOnce (op lost : ℕ) : RolloutIo Unit Unit where
  opens _ := true
  torn current := if current = op then some lost else none
  timestamp _ := ()
  git _ := none

/-- The metadata is written without its closing brace at first, and is recorded once. -/
theorem rolloutWriter_exactlyOnce_cut :
    ∃ state answered, rolloutWriter lineCodec (failingOnce 1 1) [.addItems [.other true]]
        (newRollout () .paginated none) = some state ∧
      handle lineCodec (failingOnce 1 1) .persist state = .ok ⟨⟩ answered ∧
      ∃ git, (records newline lineCodec.parse answered.file).map (·.item) =
          [.sessionMeta () git, .other true] ∧
        (records newline lineCodec.parse answered.file).map (·.ordinal) = [some 0, some 1] := by
  refine ⟨_, _, rfl, rfl, ?_⟩
  refine rolloutWriter_exactlyOnce lineCodec (failingOnce 1 1) () .paginated none ?_
    [.addItems [.other true]] .persist _ _ rfl trivial rfl
  intro op lost
  obtain ⟨-, never⟩ := Option.ite_none_right_eq_some.mp lost
  cases never

/-- Written without its line break at first, the metadata is recorded twice. -/
theorem rolloutWriter_repeats_line :
    ∃ state answered, rolloutWriter lineCodec (failingOnce 1 0) [.addItems [.other true]]
        (newRollout () .paginated none) = some state ∧
      RolloutCmd.persist.Writes state ∧
      handle lineCodec (failingOnce 1 0) .persist state = .ok ⟨⟩ answered ∧
      (records newline lineCodec.parse answered.file).map (·.item) =
        [.sessionMeta () none, .sessionMeta () none, .other true] ∧
      (records newline lineCodec.parse answered.file).map (·.ordinal) =
        [some 0, some 0, some 1] := by
  refine ⟨_, _, rfl, trivial, rfl, ?_⟩
  decide +kernel

/-- At every point of a run the file holds an initial part of the items, and the rest is queued. -/
theorem rolloutWriter_recordedPart {T M G I : Type} {codec : RolloutCodec T M G I}
    {io : RolloutIo T G} {metadata : M} {mode : ThreadHistoryMode} {base : Option ℕ}
    (cutShort : ∀ op, io.torn op ≠ some 0) (commands : List (RolloutCmd M G I))
    {state : RolloutWriterState M G I}
    (running : rolloutWriter codec io commands (newRollout metadata mode base) = some state) :
    ∃ git, (records newline codec.parse state.file).map (·.item) ++
        (state.sessionMeta.toList.map (.sessionMeta · git) ++ state.pendingItems) =
        .sessionMeta metadata git :: addedItems commands ∧
      (records newline codec.parse state.file).map (·.ordinal) =
        numbering mode base (records newline codec.parse state.file).length := by
  obtain ⟨⟨xs, wait, owed, accounts, logged⟩, -⟩ :=
    rolloutWriter_consistent cutShort commands consistent_newRollout running
  have ordinals := logged.ordinals_eq
  rw [← logged.items_eq, length_map] at ordinals
  rw [logged.items_eq, logged.owed_eq, logged.pending_eq]
  cases owed with
  | some owed =>
    obtain ⟨rfl, rfl, rfl⟩ := accounts
    exact ⟨none, rfl, ordinals⟩
  | none =>
    obtain ⟨git, total⟩ := accounts
    exact ⟨git, total, ordinals⟩

theorem rolloutWriter_recordedPart_cut :
    ∃ state, rolloutWriter lineCodec (failingOnce 1 1) [.persist, .addItems [.other true]]
        (newRollout () .paginated none) = some state ∧
      ∃ git, (records newline lineCodec.parse state.file).map (·.item) ++
          (state.sessionMeta.toList.map (.sessionMeta · git) ++ state.pendingItems) =
        [.sessionMeta () git, .other true] :=
  ⟨_, rfl, (rolloutWriter_recordedPart
    (fun _ lost => by cases (Option.ite_none_right_eq_some.mp lost).2)
    [.persist, .addItems [.other true]] rfl).imp fun _ => And.left⟩

end Codex.Rollout
