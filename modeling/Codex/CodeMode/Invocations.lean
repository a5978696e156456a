import Codex.CodeMode.Bookkeeping

/-!
# Cancelled invocations

Active invocations are found by the text of their id, recent ones by the id that it spells.
-/

namespace Codex.CodeMode

open List EStateM SessionState

variable {U : Type} {state after : SessionState U} {uuids : Finset U} {u : U}
  {ids seen : RecentIds U}

section

variable [DecidableEq U]

/-- The order of recent ids has no repeats and holds only ids of a set. -/
structure RecentIds.Within (uuids : Finset U) (ids : RecentIds U) : Prop where
  nodup : ids.order.Nodup
  subset : ids.order.toFinset ⊆ uuids
  values : ids.values ⊆ ids.order.toFinset

namespace RecentIds.Within

theorem remove (within : ids.Within uuids) : (ids.remove u).Within uuids :=
  ⟨within.nodup, within.subset, (Finset.erase_subset ..).trans within.values⟩

/-- Nothing is forgotten while few ids are mentioned. -/
theorem remember (within : ids.Within uuids) (few : uuids.card ≤ maxRecentCallbackIds)
    (fresh : u ∈ ids.order → u ∈ ids.values) (mem : u ∈ uuids) :
    (ids.remember u).values = insert u ids.values ∧
      (∀ v, v ∈ (ids.remember u).order ↔ v ∈ ids.order ∨ v = u) ∧
      (ids.remember u).Within uuids := by
  by_cases here : u ∈ ids.values
  · rw [RecentIds.remember, if_pos here, Finset.insert_eq_of_mem here]
    refine ⟨rfl, fun v => ⟨.inl, ?_⟩, within⟩
    rintro (old | rfl)
    exacts [old, mem_toFinset.mp (within.values here)]
  have nodup : (ids.order ++ [u]).Nodup := by
    rw [← concat_eq_append]
    exact nodup_concat _ _ |>.mpr ⟨fun old => here (fresh old), within.nodup⟩
  have order : (ids.order ++ [u]).toFinset = insert u ids.order.toFinset := by
    ext v
    rw [mem_toFinset, mem_append, mem_singleton, Finset.mem_insert, mem_toFinset, or_comm]
  have subset : (ids.order ++ [u]).toFinset ⊆ uuids :=
    order ▸ Finset.insert_subset mem within.subset
  have fits : (ids.order ++ [u]).length - maxRecentCallbackIds = 0 := by
    rw [← toFinset_card_of_nodup nodup]
    exact Nat.sub_eq_zero_of_le ((Finset.card_le_card subset).trans few)
  have eq : ids.remember u = ⟨insert u ids.values, ids.order ++ [u]⟩ := by
    rw [RecentIds.remember, if_neg here]
    dsimp only
    rw [fits, take_zero, toFinset_nil, Finset.sdiff_empty, drop_zero]
  rw [eq]
  refine ⟨rfl, fun v => by rw [mem_append, mem_singleton], nodup, subset, ?_⟩
  exact order ▸ Finset.insert_subset_insert u within.values

end RecentIds.Within

end

/-- The recent ids are the same and no invocation is new. -/
structure Quiet (state after : SessionState U) : Prop where
  seen : after.seenInvocations = state.seenInvocations
  cancelled : after.cancelledInvocations = state.cancelledInvocations
  active : ∀ id, id ∈ after.invocations → id ∈ state.invocations

namespace Quiet

theorem refl : Quiet state state :=
  ⟨rfl, rfl, fun _ => id⟩

theorem revoke (quiet : Quiet state after) (eid : Text) :
    Quiet state (after.revokeExecutionCallbacks eid) := by
  refine ⟨quiet.seen, quiet.cancelled, fun id here => quiet.active id ?_⟩
  obtain ⟨ent, hit⟩ := Finmap.mem_iff.mp here
  rw [revokeExecutionCallbacks, Map.lookup_retain] at hit
  split_ifs at hit
  exact Finmap.mem_iff.mpr ⟨ent, hit⟩

theorem removeExecution (quiet : Quiet state after) (eid : Text) :
    Quiet state (after.removeExecution eid).2 := by
  rw [SessionState.removeExecution]
  split
  · exact quiet
  refine revoke ?_ eid
  exact ⟨quiet.seen, quiet.cancelled, quiet.active⟩

theorem closeExecutionIfReady (quiet : Quiet state after) (eid : Text) :
    Quiet state (after.closeExecutionIfReady eid).2 := by
  rw [SessionState.closeExecutionIfReady]
  split
  · exact quiet.removeExecution eid
  · exact quiet

end Quiet

variable [DecidableEq U] (parse : Text → Option U) {calls : List Call}

def Call.uuid : Call → Option U
  | .admitInvocation call => parse call.invocationId
  | .cancelInvocation invocationId => parse invocationId
  | _ => none

/-- Only the calls that admit or cancel an invocation change the recent ids. -/
theorem quiet_next {call : Call} (admits : ∀ made, call ≠ .admitInvocation made)
    (cancels : ∀ id, call ≠ .cancelInvocation id) : Quiet state (call.next parse state) := by
  have quiet : Quiet state state := Quiet.refl
  cases call with
  | admitInvocation call => exact (admits call rfl).elim
  | cancelInvocation id => exact (cancels id rfl).elim
  | beginExecution req =>
    refine final_guarded quiet fun _ _ => ?_
    split
    · exact quiet
    refine final_guarded quiet fun _ _ => ?_
    split
    · exact quiet
    · exact ⟨rfl, rfl, fun _ => id⟩
  | admitExecution eid cellId =>
    refine final_guarded quiet fun _ _ => final_guarded quiet fun _ _ =>
      final_guarded quiet fun _ _ => ?_
    split
    · exact quiet
    · exact final_guarded quiet fun _ _ => ⟨rfl, rfl, fun _ => id⟩
  | markExecutionReady eid =>
    refine final_guarded quiet fun _ _ => final_guarded quiet fun _ _ => ?_
    split
    · exact quiet
    refine Quiet.closeExecutionIfReady ?_ eid
    exact ⟨rfl, rfl, fun _ => id⟩
  | admitNotification note =>
    refine final_guarded quiet fun _ _ => ?_
    split
    · exact quiet
    refine final_guarded quiet fun _ _ => final_guarded quiet fun _ _ => ?_
    split
    · exact quiet
    refine final_guarded quiet fun _ _ => ?_
    dsimp only
    split_ifs <;> exact ⟨rfl, rfl, fun _ => id⟩
  | finishNotification eid =>
    rw [Call.next, Call.perform, finishNotification]
    split
    · exact quiet
    split
    · exact quiet
    refine Quiet.closeExecutionIfReady ?_ eid
    exact ⟨rfl, rfl, fun _ => id⟩
  | cancelNotifications cellId => exact ⟨rfl, rfl, fun _ => id⟩
  | finishInvocation id => exact ⟨rfl, rfl, fun _ here => (Finmap.mem_erase.mp here).2⟩
  | closeCell eid cellId =>
    refine final_guarded quiet fun _ _ => final_guarded quiet fun _ _ => ?_
    split
    · exact quiet
    refine final_guarded quiet fun _ _ => ?_
    split
    · exact ⟨rfl, rfl, fun _ => id⟩
    refine Quiet.closeExecutionIfReady (Quiet.revoke ?_ eid) eid
    exact ⟨rfl, rfl, fun _ => id⟩
  | removeExecution eid => exact quiet.removeExecution eid
  | close err =>
    rw [Call.next, Call.perform, close]
    split
    · exact quiet
    · exact ⟨rfl, rfl, fun _ here => (Finmap.notMem_empty here).elim⟩

/-- An invocation is added only if its id is neither seen nor cancelled. -/
structure Admits (state after : SessionState U) (id : Text) (u : U) (adm : CallbackAdmission) :
    Prop where
  fresh : u ∉ state.seenInvocations.values
  seen : after.seenInvocations = state.seenInvocations.remember u
  cancelled : after.cancelledInvocations = state.cancelledInvocations.remove u
  active : (∀ token, adm ≠ .active token) ∧ after.invocations = state.invocations ∨
    u ∉ state.cancelledInvocations.values ∧
      ∀ other, other ∈ after.invocations → other ∈ state.invocations ∨ other = id

theorem admitInvocation_cases (state : SessionState U) (call : ToolCall) :
    (∃ error, state.admitInvocation parse call = .error error state) ∨
      ∃ u adm after, parse call.invocationId = some u ∧
        state.admitInvocation parse call = .ok (.admission adm) after ∧
          Admits state after call.invocationId u adm := by
  rw [admitInvocation]
  cases state.requireOpen with
  | error error => exact .inl ⟨error, rfl⟩
  | ok val =>
  rw [guarded]
  split
  · exact .inl ⟨_, rfl⟩
  next u spelled =>
  split
  · exact .inl ⟨_, rfl⟩
  next fresh =>
  rw [not_or] at fresh
  cases state.checkCellOwnership call.executionId call.cellId with
  | error error => exact .inl ⟨error, rfl⟩
  | ok val =>
  rw [guarded]
  dsimp only
  split
  · exact .inr ⟨u, _, _, spelled, rfl, fresh.2, rfl, rfl, .inl ⟨by simp, rfl⟩⟩
  next exec hit =>
  cases exec.acceptCell call.cellId with
  | error error => exact .inl ⟨error, rfl⟩
  | ok taken =>
  refine .inr ?_
  rw [guarded]
  split
  · exact ⟨u, _, _, spelled, rfl, fresh.2, rfl, rfl, .inl ⟨by simp, rfl⟩⟩
  split
  · exact ⟨u, _, _, spelled, rfl, fresh.2, rfl, rfl, .inl ⟨by simp, rfl⟩⟩
  next waiting =>
  split
  · exact ⟨u, _, _, spelled, rfl, fresh.2, rfl, rfl, .inl ⟨by simp, rfl⟩⟩
  split
  · exact ⟨u, _, _, spelled, rfl, fresh.2, rfl, rfl, .inl ⟨by simp, rfl⟩⟩
  split
  · exact ⟨u, _, _, spelled, rfl, fresh.2, rfl, rfl, .inl ⟨by simp, rfl⟩⟩
  refine ⟨u, _, _, spelled, rfl, fresh.2, rfl, rfl, .inr ⟨waiting, fun y here => ?_⟩⟩
  exact (Finmap.mem_insert.mp here).symm

/-- The id of an invocation that is not seen yet is cancelled ahead of it. -/
structure Awaits (state after : SessionState U) (u : U) : Prop where
  fresh : u ∉ state.seenInvocations.values
  seen : after.seenInvocations = state.seenInvocations
  cancelled : after.cancelledInvocations = state.cancelledInvocations.remember u
  active : after.invocations = state.invocations

theorem cancelInvocation_cases (state : SessionState U) {id : Text} (spelled : parse id = some u) :
    let after := Call.next parse state (.cancelInvocation id)
    id ∉ after.invocations ∧ (∀ y, y ≠ id → (y ∈ after.invocations ↔ y ∈ state.invocations)) ∧
      (Quiet state after ∧ (id ∈ state.invocations ∨ u ∈ state.seenInvocations.values) ∨
        Awaits state after u) := by
  rw [Call.next, Call.perform, cancelInvocation, spelled]
  dsimp only
  split
  next ent hit =>
    refine ⟨fun here => (Finmap.mem_erase.mp here).1 rfl, fun y ne => ?_, .inl ⟨⟨rfl, rfl, ?_⟩,
      .inl (Finmap.mem_iff.mpr ⟨ent, hit⟩)⟩⟩
    · exact Finmap.mem_erase.trans (and_iff_right ne)
    · exact fun y here => (Finmap.mem_erase.mp here).2
  next absent =>
    split
    next seen =>
      exact ⟨Finmap.lookup_eq_none.mp absent, fun _ _ => Iff.rfl, .inl ⟨Quiet.refl, .inr seen⟩⟩
    next fresh =>
      exact ⟨Finmap.lookup_eq_none.mp absent, fun _ _ => Iff.rfl, .inr ⟨fresh, rfl, rfl, rfl⟩⟩

theorem next_cases (state : SessionState U) (call : Call) :
    let after := call.next parse state
    Quiet state after ∨ (∃ id u adm, call.uuid parse = some u ∧ parse id = some u ∧
        Admits state after id u adm) ∨
      ∃ u, call.uuid parse = some u ∧ Awaits state after u := by
  cases call with
  | admitInvocation made =>
    rw [Call.next, Call.perform]
    obtain ⟨error, failed⟩ | ⟨u, adm, last, spelled, res, admits⟩ :=
      admitInvocation_cases parse state made
    · rw [failed]
      exact .inl Quiet.refl
    rw [res]
    exact .inr (.inl ⟨_, u, adm, spelled, spelled, admits⟩)
  | cancelInvocation id =>
    cases spelled : parse id with
    | none =>
      rw [Call.next, Call.perform, cancelInvocation, spelled]
      exact .inl Quiet.refl
    | some u =>
      obtain ⟨-, -, ⟨quiet, -⟩ | awaits⟩ := cancelInvocation_cases parse state spelled
      · exact .inl quiet
      · exact .inr (.inr ⟨u, spelled, awaits⟩)
  | _ => exact .inl (quiet_next parse (by simp) (by simp))

def mentioned (calls : List Call) : Finset U :=
  (calls.filterMap (Call.uuid parse)).toFinset

def Active (state : SessionState U) (call : ToolCall) : Prop :=
  ∃ token after, state.admitInvocation parse call = .ok (.admission (.active token)) after

/-- No invocation is active whose id has been cancelled. -/
def Stopped (calls : List Call) : Prop :=
  ∀ id u, .cancelInvocation id ∈ calls → parse id = some u →
    ∀ other ∈ (runCalls parse calls).invocations, parse other ≠ some u

/-- An id is cancelled in the spelling under which its invocation is active. -/
def Spelled (calls : List Call) : Prop :=
  ∀ before id, before ++ [.cancelInvocation id] <+: calls →
    ∀ other ∈ (runCalls parse before).invocations, parse other = parse id → other = id

section

variable {parse} {call : Call}

structure Recorded (parse : Text → Option U) (uuids : Finset U) (state : SessionState U) :
    Prop where
  seen : state.seenInvocations.Within uuids
  kept : ∀ u ∈ state.seenInvocations.order, u ∈ state.seenInvocations.values
  cancelled : state.cancelledInvocations.Within uuids
  removed : ∀ u ∈ state.cancelledInvocations.order,
    u ∈ state.cancelledInvocations.values ∨ u ∈ state.seenInvocations.values
  active : ∀ id ∈ state.invocations, ∃ u ∈ state.seenInvocations.values, parse id = some u

def Known (state : SessionState U) (u : U) : Prop :=
  u ∈ state.seenInvocations.values ∨ u ∈ state.cancelledInvocations.values

structure Retains (state after : SessionState U) : Prop where
  seen : ∀ u ∈ state.seenInvocations.values, u ∈ after.seenInvocations.values
  known : ∀ u, Known state u → Known after u

namespace Recorded

variable (noted : Recorded parse uuids state)
include noted

theorem quiet (quiet : Quiet state after) : Recorded parse uuids after ∧ Retains state after := by
  refine ⟨⟨?_, ?_, ?_, ?_, fun id here => ?_⟩, ?_, fun u => ?_⟩
  · exact quiet.seen ▸ noted.seen
  · exact quiet.seen ▸ noted.kept
  · exact quiet.cancelled ▸ noted.cancelled
  · exact quiet.seen ▸ quiet.cancelled ▸ noted.removed
  · exact quiet.seen ▸ noted.active id (quiet.active id here)
  · exact quiet.seen ▸ fun _ => id
  rw [Known, Known, quiet.seen, quiet.cancelled]
  exact id

variable (few : uuids.card ≤ maxRecentCallbackIds) (mem : u ∈ uuids)
include few mem

theorem enter {id : Text} {adm : CallbackAdmission} (spelled : parse id = some u)
    (admits : Admits state after id u adm) :
    Recorded parse uuids after ∧ Retains state after ∧ u ∈ after.seenInvocations.values := by
  obtain ⟨values, order, le⟩ := noted.seen.remember few (noted.kept u) mem
  rw [← admits.seen] at values order le
  have grows : ∀ v ∈ state.seenInvocations.values, v ∈ after.seenInvocations.values := fun v old =>
    values ▸ Finset.mem_insert_of_mem old
  have new : u ∈ after.seenInvocations.values := values ▸ Finset.mem_insert_self ..
  have waits : ∀ v ∈ state.cancelledInvocations.values, Known after v := fun v old => by
    by_cases eq : v = u
    · exact .inl (eq ▸ new)
    refine .inr ?_
    rw [admits.cancelled]
    exact Finset.mem_erase.mpr ⟨eq, old⟩
  refine ⟨⟨le, fun v old => ?_, admits.cancelled ▸ noted.cancelled.remove, fun v old => ?_,
    fun y here => ?_⟩, ⟨grows, fun v known => known.elim (fun old => .inl (grows v old)) (waits v)⟩,
    new⟩
  · rcases (order v).mp old with old | rfl
    exacts [grows v (noted.kept v old), new]
  · rw [admits.cancelled] at old
    exact (noted.removed v old).elim (fun old => (waits v old).symm) fun old => .inr (grows v old)
  have old : y ∈ state.invocations ∨ y = id := by
    rcases admits.active with ⟨-, eq⟩ | ⟨-, new⟩
    exacts [.inl (eq ▸ here), new y here]
  rcases old with old | rfl
  · obtain ⟨v, seen, named⟩ := noted.active y old
    exact ⟨v, grows v seen, named⟩
  · exact ⟨u, new, spelled⟩

theorem await (awaits : Awaits state after u) :
    Recorded parse uuids after ∧ Retains state after ∧ Known after u := by
  obtain ⟨values, order, le⟩ := noted.cancelled.remember few
    (fun old => (noted.removed u old).resolve_right awaits.fresh) mem
  rw [← awaits.cancelled] at values order le
  have grows : ∀ v ∈ state.cancelledInvocations.values, v ∈ after.cancelledInvocations.values :=
    fun v old => values ▸ Finset.mem_insert_of_mem old
  have new : u ∈ after.cancelledInvocations.values := values ▸ Finset.mem_insert_self ..
  have seen := awaits.seen
  refine ⟨⟨seen ▸ noted.seen, seen ▸ noted.kept, le, fun v old => ?_, fun y here => ?_⟩,
    ⟨fun v => seen ▸ id, fun v known => known.imp (seen ▸ ·) (grows v)⟩, .inr new⟩
  · rcases (order v).mp old with old | rfl
    · exact (noted.removed v old).imp (grows v) (seen ▸ ·)
    · exact .inl new
  rw [awaits.active] at here
  exact seen ▸ noted.active y here

theorem cancel {id : Text} (spelled : parse id = some u) :
    let after := Call.next parse state (.cancelInvocation id)
    Recorded parse uuids after ∧ Retains state after ∧ Known after u := by
  obtain ⟨-, -, ⟨quiet, here⟩ | awaits⟩ := cancelInvocation_cases parse state spelled
  · obtain ⟨later, retains⟩ := noted.quiet quiet
    refine ⟨later, retains, retains.known u (.inl (here.elim (fun here => ?_) fun seen => seen))⟩
    obtain ⟨v, seen, named⟩ := noted.active id here
    cases named.symm.trans spelled
    exact seen
  · exact noted.await few mem awaits

end Recorded

theorem Recorded.next (noted : Recorded parse uuids state) (few : uuids.card ≤ maxRecentCallbackIds)
    (mem : ∀ u, call.uuid parse = some u → u ∈ uuids) :
    Recorded parse uuids (call.next parse state) ∧ Retains state (call.next parse state) := by
  obtain quiet | ⟨id, u, adm, named, spelled, admits⟩ | ⟨u, named, awaits⟩ :=
    next_cases parse state call
  · exact noted.quiet quiet
  · have ⟨later, retains, _⟩ := noted.enter few (mem u named) spelled admits
    exact ⟨later, retains⟩
  have ⟨later, retains, _⟩ := noted.await few (mem u named) awaits
  exact ⟨later, retains⟩

end

theorem mem_mentioned {call : Call} (mem : call ∈ calls) (spelled : call.uuid parse = some u) :
    u ∈ mentioned parse calls := by
  rw [mentioned, mem_toFinset]
  exact mem_filterMap.mpr ⟨call, mem, spelled⟩

theorem active_cases {call : ToolCall} (active : Active parse state call) :
    ∃ u after, parse call.invocationId = some u ∧ u ∉ state.cancelledInvocations.values ∧
      Call.next parse state (.admitInvocation call) = after ∧
      ∃ adm, Admits state after call.invocationId u adm := by
  obtain ⟨token, after, admitted⟩ := active
  obtain ⟨error, failed⟩ | ⟨u, adm, last, spelled, res, admits⟩ :=
    admitInvocation_cases parse state call
  · cases failed.symm.trans admitted
  cases res.symm.trans admitted
  refine ⟨u, after, spelled, ?_, congrArg finalState res, _, admits⟩
  rcases admits.active with ⟨passive, -⟩ | ⟨waiting, -⟩
  · exact (passive token rfl).elim
  · exact waiting

theorem mem_next {call : Call} {y : Text} (here : y ∈ (call.next parse state).invocations) :
    y ∈ state.invocations ∨ ∃ u, parse y = some u ∧ ¬ Known state u := by
  obtain quiet | ⟨id, u, adm, -, spelled, admits⟩ | ⟨u, -, awaits⟩ :=
    next_cases parse state call
  · exact .inl (quiet.active y here)
  · rcases admits.active with ⟨-, eq⟩ | ⟨waiting, active⟩
    · exact .inl (eq ▸ here)
    refine (active y here).imp_right fun eq => ?_
    exact ⟨u, eq.symm ▸ spelled, fun known => known.elim admits.fresh waiting⟩
  · exact .inl (awaits.active ▸ here)

section

variable (few : (mentioned parse calls).card ≤ maxRecentCallbackIds)
include few

theorem recorded_runCalls {pre : List Call} (le : pre <+: calls) :
    Recorded parse (mentioned parse calls) (runCalls parse pre) := by
  induction pre using List.reverseRecOn with
  | nil =>
    have empty : RecentIds.Within (mentioned parse calls) {} :=
      ⟨nodup_nil, Finset.empty_subset _, Finset.empty_subset _⟩
    exact ⟨empty, fun u old => (not_mem_nil old).elim, empty, fun u old => (not_mem_nil old).elim,
      fun id here => (Finmap.notMem_empty here).elim⟩
  | append_singleton pre call ih =>
    rw [runCalls_concat]
    exact ((ih ((prefix_append ..).trans le)).next few
      fun u spelled => mem_mentioned parse (le.subset (mem_concat_self ..)) spelled).1

theorem retains_runCalls {pre : List Call} {call : Call} (le : pre ++ [call] <+: calls) :
    Retains (runCalls parse pre) (runCalls parse (pre ++ [call])) := by
  rw [runCalls_concat]
  exact ((recorded_runCalls parse few ((prefix_append ..).trans le)).next few
    fun u spelled => mem_mentioned parse (le.subset (mem_concat_self ..)) spelled).2

theorem known_of_cancelled {pre : List Call} {id : Text} (le : pre <+: calls)
    (ended : .cancelInvocation id ∈ pre) (spelled : parse id = some u) :
    Known (runCalls parse pre) u := by
  induction pre using List.reverseRecOn with
  | nil => cases ended
  | append_singleton pre call ih =>
    rcases mem_append.mp ended with earlier | last
    · exact (retains_runCalls parse few le).known u (ih ((prefix_append ..).trans le) earlier)
    obtain rfl := mem_singleton.mp last
    rw [runCalls_concat]
    exact ((recorded_runCalls parse few ((prefix_append ..).trans le)).cancel few
      (mem_mentioned parse (le.subset ended) spelled) spelled).2.2

theorem seen_of_active {pre earlier : List Call} {call : ToolCall} (le : pre <+: calls)
    (admitted : earlier ++ [.admitInvocation call] <+: pre)
    (active : Active parse (runCalls parse earlier) call)
    (spelled : parse call.invocationId = some u) :
    u ∈ (runCalls parse pre).seenInvocations.values := by
  induction pre using List.reverseRecOn with
  | nil => cases concat_ne_nil _ _ (prefix_nil.mp admitted)
  | append_singleton pre last ih =>
    rcases prefix_concat_iff.mp admitted with whole | lt
    · obtain ⟨rfl, eq⟩ := append_inj' whole rfl
      cases eq
      obtain ⟨v, after, named, -, res, adm, admits⟩ := active_cases parse active
      cases named.symm.trans spelled
      rw [runCalls_concat, res]
      exact ((recorded_runCalls parse few ((prefix_append ..).trans le)).enter few
        (mem_mentioned parse (le.subset (mem_concat_self ..)) spelled) spelled admits).2.2
    · exact (retains_runCalls parse few le).seen u (ih ((prefix_append ..).trans le) lt)

theorem stopped_of_spelled (agreed : Spelled parse calls) {before : List Call}
    (le : before <+: calls) : Stopped parse before := by
  induction before using List.reverseRecOn with
  | nil => exact fun _ _ ended => (not_mem_nil ended).elim
  | append_singleton before call ih =>
    intro id u ended spelled y here named
    have shorter := (prefix_append before [call]).trans le
    rw [runCalls_concat] at here
    rcases mem_append.mp ended with earlier | last
    · rcases mem_next parse here with old | ⟨v, parsed, unknown⟩
      · exact ih shorter id u earlier spelled y old named
      cases parsed.symm.trans named
      exact unknown (known_of_cancelled parse few shorter earlier spelled)
    obtain rfl := mem_singleton.mp last
    obtain ⟨gone, others, -⟩ := cancelInvocation_cases parse (runCalls parse before) spelled
    have ne : y ≠ id := fun eq => gone (eq ▸ here)
    exact ne (agreed before id le y ((others y ne).mp here) (named.trans spelled.symm))

/-- An invocation that is cancelled stops exactly if every cancellation spells its id as the
invocation does; none is admitted later, and none twice. -/
theorem stopped_iff_spelled :
    ((∀ before, before <+: calls → Stopped parse before) ↔ Spelled parse calls) ∧
      (∀ before call id, before ++ [.admitInvocation call] <+: calls →
        .cancelInvocation id ∈ before → parse id = parse call.invocationId →
          ¬ Active parse (runCalls parse before) call) ∧
      (∀ before call earlier first, before ++ [.admitInvocation call] <+: calls →
        earlier ++ [.admitInvocation first] <+: before →
        parse first.invocationId = parse call.invocationId →
        Active parse (runCalls parse earlier) first →
          ¬ Active parse (runCalls parse before) call) := by
  refine ⟨⟨fun stopped before id le y here eq => ?_,
    fun agreed before le => stopped_of_spelled parse few agreed le⟩,
    fun before call id le cancelled eq active => ?_,
    fun before call earlier first le admitted eq started active => ?_⟩
  · by_contra ne
    obtain ⟨u, -, named⟩ :=
      (recorded_runCalls parse few ((prefix_append ..).trans le)).active y here
    have spelled := eq.symm.trans named
    refine stopped _ le id u (mem_concat_self ..) spelled y ?_ named
    rw [runCalls_concat]
    exact ((cancelInvocation_cases parse _ spelled).2.1 y ne).mpr here
  · obtain ⟨u, after, spelled, waiting, -, adm, admits⟩ := active_cases parse active
    exact (known_of_cancelled parse few ((prefix_append ..).trans le) cancelled
      (eq.trans spelled)).elim admits.fresh waiting
  obtain ⟨u, after, spelled, -, -, adm, admits⟩ := active_cases parse active
  exact admits.fresh (seen_of_active parse few ((prefix_append ..).trans le) admitted started
    (eq.trans spelled))

end

/-- UUIDs are read without regard to case. -/
def parseLower (id : Text) : Option Text :=
  if id.length = 36 then some (id.map Char.toLower) else none

def upperId : Text := "A0000000-0000-4000-8000-000000000000"

def lowerId : Text := upperId.map Char.toLower

def spelledTwice : List Call :=
  let tool : ToolName := ⟨none, "t"⟩
  [.beginExecution ⟨"e", "c", [(some tool, 1)]⟩,
    .admitInvocation ⟨upperId, "e", "x", some tool, 1⟩, .cancelInvocation lowerId]

theorem spelledTwice_runs_on : (mentioned parseLower spelledTwice).card ≤ maxRecentCallbackIds ∧
      ¬ Stopped parseLower spelledTwice ∧
      ∃ entry, (runCalls parseLower spelledTwice).invocations.lookup upperId = some entry ∧
        entry.cancellation ∉ (runCalls parseLower spelledTwice).cancelledCalls := by
  have hit : (runCalls parseLower spelledTwice).invocations.lookup upperId =
      some ⟨"e", 0⟩ := by
    rfl
  refine ⟨by decide, fun stopped => ?_, _, hit, by decide⟩
  exact stopped lowerId lowerId (by simp [spelledTwice]) (by decide) upperId
    (Finmap.mem_iff.mpr ⟨_, hit⟩) (by decide)

theorem stopped_iff_spelledTwice : (mentioned parseLower spelledTwice).card ≤ maxRecentCallbackIds ∧
      ((∀ before, before <+: spelledTwice → Stopped parseLower before) ↔
        Spelled parseLower spelledTwice) :=
  ⟨by decide, (stopped_iff_spelled parseLower (by decide)).1⟩

end Codex.CodeMode
