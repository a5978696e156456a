import Codex.Foundation.Run
import Codex.Foundation.Map
import Codex.Foundation.Text
import Codex.Foundation.Triple
import Mathlib.Algebra.GroupWithZero.Nat

/-!
# The bookkeeping of a session

Every call keeps the counters, the limit and the tables of a session consistent.
-/

namespace Codex.CodeMode

open List EStateM

abbrev Token := ℕ

def maxRecentCallbackIds := 4096

def maxPendingDelegateCalls := 1024

def maxIdentifierBytes := 256

inductive StateError
  | closed (failure : Option Text)
  | executionIdReused
  | emptyIdentifier (field : Text)
  | longIdentifier (field : Text)
  | toolNameOmitted
  | unknownExecution (executionId : Text)
  | startedTwice (executionId : Text)
  | notReady (executionId : Text)
  | changedCellId (current cellId : Text)
  | reusedCellId (cellId : Text)
  | notUuid
  | invocationIdReused
  | callIdMismatch
  | invalidClosure (cellId : Text)

inductive Rejection
  | toolNameOmitted
  | toolNotEnabled
  | limitExceeded

inductive CallbackAdmission
  | active (cancellation : Token)
  | cancelled
  | closed
  | rejected (reason : Rejection)

structure ToolName where
  space : Option Text
  name : Text
  deriving DecidableEq

def ToolName.withDefaultNamespace (tool : ToolName) : ToolName :=
  if tool.space.all (· = []) then { tool with space := some "functions" } else tool

structure ActiveCallback where
  executionId : Text
  cancellation : Token

structure ExecutionRecord where
  cellId : Option Text := none
  toolCallId : Text
  enabledTools : List (ToolName × Int)
  started : Bool := false
  ready : Bool := false
  closed : Bool := false
  notifications : ℕ := 0
  cancellation : Token

structure RecentIds (U : Type) where
  values : Finset U := ∅
  order : List U := []

structure SessionState (U : Type) where
  executions : Map Text ExecutionRecord := ∅
  invocations : Map Text ActiveCallback := ∅
  notifications : ℕ := 0
  seenInvocations : RecentIds U := {}
  cancelledInvocations : RecentIds U := {}
  failure : Option Text := none
  closed : Bool := false
  executionTokens : Token := 0
  callTokens : Token := 0
  settled : Multiset Token := 0
  cancelledCalls : Multiset Token := 0

structure ExecuteRequest where
  executionId : Text
  toolCallId : Text
  enabledTools : List (Option ToolName × Int)

structure ToolCall where
  invocationId : Text
  executionId : Text
  cellId : Text
  toolName : Option ToolName
  toolKind : Int

structure Notification where
  notificationId : Text
  executionId : Text
  cellId : Text
  callId : Text

variable {U : Type} [DecidableEq U]

namespace RecentIds

/-- The loop over the oldest ids removes as many as there are too many. -/
def remember (value : U) (ids : RecentIds U) : RecentIds U :=
  if value ∈ ids.values then ids
  else
    let order := ids.order ++ [value]
    let excess := order.length - maxRecentCallbackIds
    ⟨insert value ids.values \ (order.take excess).toFinset, order.drop excess⟩

def remove (value : U) (ids : RecentIds U) : RecentIds U :=
  { ids with values := ids.values.erase value }

end RecentIds

def validateIdentifier (value field : Text) : Except StateError Unit :=
  if value = [] then .error (.emptyIdentifier field)
  else if (value.map Char.utf8Size).sum > maxIdentifierBytes then .error (.longIdentifier field)
  else .ok ()

def ExecutionRecord.acceptCell (execution : ExecutionRecord) (cellId : Text) :
    Except StateError ExecutionRecord := do
  validateIdentifier cellId "cell ID"
  match execution.cellId with
  | some current =>
    if current = cellId then pure execution else throw (.changedCellId current cellId)
  | none => pure { execution with cellId := some cellId }

def ExecutionRecord.isDone (execution : ExecutionRecord) : Bool :=
  execution.started && execution.ready && execution.closed && execution.notifications = 0

namespace SessionState

def requireOpen (st : SessionState U) : Except StateError Unit :=
  if st.closed then .error (.closed st.failure) else .ok ()

def checkCellOwnership (st : SessionState U) (executionId cellId : Text) : Except StateError Unit :=
  if executionId ∈ st.executions ∧ ∃ id ∈ st.executions.keys, id ≠ executionId ∧
      (st.executions.lookup id).bind (·.cellId) = some cellId then
    .error (.reusedCellId cellId)
  else .ok ()

variable (executionId : Text)

def put (execution : ExecutionRecord) (st : SessionState U) : SessionState U :=
  { st with executions := st.executions.insert executionId execution }

def callTokensOf (keep : ActiveCallback → Bool) (st : SessionState U) : Multiset Token :=
  (st.invocations.entries.map (·.2)).filter (keep ·) |>.map (·.cancellation)

def revokeExecutionCallbacks (st : SessionState U) : SessionState U :=
  { st with
    cancelledCalls := st.callTokensOf (·.executionId = executionId) + st.cancelledCalls
    invocations := st.invocations.retain fun id =>
      (st.invocations.lookup id).all (·.executionId ≠ executionId) }

def removeExecution (st : SessionState U) : Option Text × SessionState U :=
  match st.executions.lookup executionId with
  | none => (none, st)
  | some execution =>
    (execution.cellId, revokeExecutionCallbacks executionId { st with
      executions := st.executions.erase executionId
      notifications := st.notifications - execution.notifications
      settled := execution.cancellation ::ₘ st.settled })

def closeExecutionIfReady (st : SessionState U) : Option Text × SessionState U :=
  if (st.executions.lookup executionId).any (·.isDone) then st.removeExecution executionId
  else (none, st)

end SessionState

inductive Reply
  | done
  | admission (admission : CallbackAdmission)
  | cells (cells : Multiset Text)

/-- A check that fails leaves the state. -/
def guarded {α β σ : Type} (check : Except StateError α) (st : σ)
    (next : α → Result StateError σ β) : Result StateError σ β :=
  match check with
  | .error error => .error error st
  | .ok value => next value

def reported (res : Option Text × SessionState U) : Result StateError (SessionState U) Reply :=
  .ok (.cells (Multiset.ofList res.1.toList)) res.2

namespace SessionState

variable (parse : Text → Option U) (st : SessionState U)

def beginExecution (request : ExecuteRequest) : Result StateError (SessionState U) Reply :=
  guarded st.requireOpen st fun _ =>
    if request.executionId = [] ∨ request.executionId ∈ st.executions then
      .error .executionIdReused st
    else guarded (validateIdentifier request.toolCallId "tool call ID") st fun _ =>
      match request.enabledTools.mapM fun tool => tool.1.map (·.withDefaultNamespace, tool.2) with
      | none => .error .toolNameOmitted st
      | some enabledTools => .ok .done { st.put request.executionId
          { toolCallId := request.toolCallId,
            enabledTools, cancellation := st.executionTokens } with
          executionTokens := st.executionTokens + 1 }

variable (executionId : Text)

def execution : Except StateError ExecutionRecord :=
  match st.executions.lookup executionId with
  | none => .error (.unknownExecution executionId)
  | some execution => .ok execution

def admitExecution (executionId cellId : Text) : Result StateError (SessionState U) Reply :=
  guarded st.requireOpen st fun _ =>
    guarded (st.checkCellOwnership executionId cellId) st fun _ =>
      guarded (st.execution executionId) st fun execution =>
        if execution.started then .error (.startedTwice executionId) st
        else guarded (execution.acceptCell cellId) st fun execution =>
          .ok .done (st.put executionId { execution with started := true })

def markExecutionReady : Result StateError (SessionState U) Reply :=
  guarded st.requireOpen st fun _ =>
    guarded (st.execution executionId) st fun execution =>
      if !execution.started || execution.ready then .error (.notReady executionId) st
      else reported
        ((st.put executionId { execution with ready := true }).closeExecutionIfReady executionId)

def atLimit : Bool :=
  st.invocations.keys.card + st.notifications ≥ maxPendingDelegateCalls

def admitInvocation (call : ToolCall) : Result StateError (SessionState U) Reply :=
  guarded st.requireOpen st fun _ =>
    match parse call.invocationId with
    | none => .error .notUuid st
    | some invocationId =>
      if call.invocationId ∈ st.invocations ∨ invocationId ∈ st.seenInvocations.values then
        .error .invocationIdReused st
      else guarded (st.checkCellOwnership call.executionId call.cellId) st fun _ =>
        let seen := { st with
          seenInvocations := st.seenInvocations.remember invocationId
          cancelledInvocations := st.cancelledInvocations.remove invocationId }
        match st.executions.lookup call.executionId with
        | none => .ok (.admission .closed) seen
        | some execution =>
          guarded (execution.acceptCell call.cellId) st fun execution =>
            let seen := seen.put call.executionId execution
            if execution.closed then .ok (.admission .closed) seen
            else if invocationId ∈ st.cancelledInvocations.values then
              .ok (.admission .cancelled) seen
            else match call.toolName with
              | none => .ok (.admission (.rejected .toolNameOmitted)) seen
              | some name =>
                if (execution.enabledTools.reverse.lookup name.withDefaultNamespace) ≠
                    some call.toolKind then
                  .ok (.admission (.rejected .toolNotEnabled)) seen
                else if st.atLimit then .ok (.admission (.rejected .limitExceeded)) seen
                else .ok (.admission (.active st.callTokens)) { seen with
                  callTokens := st.callTokens + 1
                  invocations := st.invocations.insert call.invocationId
                    ⟨call.executionId, st.callTokens⟩ }

/-- The token handed out is a child of that of the execution. -/
def admitNotification (notification : Notification) : Result StateError (SessionState U) Reply :=
  guarded st.requireOpen st fun _ =>
    if (parse notification.notificationId).isNone then .error .notUuid st
    else guarded (validateIdentifier notification.callId "notification call ID") st fun _ =>
      guarded (st.checkCellOwnership notification.executionId notification.cellId) st fun _ =>
        match st.executions.lookup notification.executionId with
        | none => .ok (.admission .closed) st
        | some execution =>
          guarded (execution.acceptCell notification.cellId) st fun execution =>
            let accepted := st.put notification.executionId execution
            if notification.callId ≠ execution.toolCallId then .error .callIdMismatch accepted
            else if execution.closed then .ok (.admission .closed) accepted
            else if st.atLimit then .ok (.admission (.rejected .limitExceeded)) accepted
            else .ok (.admission (.active execution.cancellation)) { st.put notification.executionId
                { execution with notifications := execution.notifications + 1 } with
                notifications := st.notifications + 1 }

def finishNotification : Option Text × SessionState U :=
  match st.executions.lookup executionId with
  | none => (none, st)
  | some execution =>
    match execution.notifications with
    | 0 => (none, st)
    | count + 1 => closeExecutionIfReady executionId { st.put executionId
        { execution with notifications := count } with notifications := st.notifications - 1 }

/-- At most one execution has the cell. -/
def cancelNotifications (cellId : Text) : SessionState U :=
  { st with
    settled := ((st.executions.entries.map (·.2)).filter (·.cellId = some cellId)).map
      (·.cancellation) + st.settled }

def cancelInvocation (invocationId : Text) : Result StateError (SessionState U) Reply :=
  match parse invocationId with
  | none => .error .notUuid st
  | some parsed =>
    match st.invocations.lookup invocationId with
    | some callback => .ok .done { st with
        invocations := st.invocations.erase invocationId
        cancelledCalls := callback.cancellation ::ₘ st.cancelledCalls }
    | none =>
      if parsed ∈ st.seenInvocations.values then .ok .done st
      else .ok .done { st with
        cancelledInvocations := st.cancelledInvocations.remember parsed }

def closeCell (executionId cellId : Text) : Result StateError (SessionState U) Reply :=
  guarded st.requireOpen st fun _ =>
    guarded (st.checkCellOwnership executionId cellId) st fun _ =>
      match st.executions.lookup executionId with
      | none => reported (none, st)
      | some execution =>
        guarded (execution.acceptCell cellId) st fun execution =>
          if execution.closed then .error (.invalidClosure cellId) (st.put executionId execution)
          else
            let settled := if execution.notifications = 0
              then execution.cancellation ::ₘ st.settled else st.settled
            reported (closeExecutionIfReady executionId (revokeExecutionCallbacks executionId
              { st.put executionId { execution with closed := true } with settled }))

def close (failure : Option Text) : Multiset Text × SessionState U :=
  if st.closed then (0, st)
  else ((st.executions.entries.map (·.2)).filterMap (·.cellId), { st with
    closed := true
    failure
    notifications := 0
    cancelledCalls := st.callTokensOf (fun _ => true) + st.cancelledCalls
    invocations := ∅
    settled := (st.executions.entries.map (·.2.cancellation)) + st.settled
    executions := ∅ })

end SessionState

inductive Call
  | beginExecution (request : ExecuteRequest)
  | admitExecution (executionId cellId : Text)
  | markExecutionReady (executionId : Text)
  | admitInvocation (call : ToolCall)
  | admitNotification (notification : Notification)
  | finishNotification (executionId : Text)
  | cancelNotifications (cellId : Text)
  | cancelInvocation (invocationId : Text)
  | finishInvocation (invocationId : Text)
  | closeCell (executionId cellId : Text)
  | removeExecution (executionId : Text)
  | close (failure : Option Text)

variable (parse : Text → Option U)

def Call.perform (st : SessionState U) : Call → Result StateError (SessionState U) Reply
  | .beginExecution request => st.beginExecution request
  | .admitExecution executionId cellId => st.admitExecution executionId cellId
  | .markExecutionReady executionId => st.markExecutionReady executionId
  | .admitInvocation call => st.admitInvocation parse call
  | .admitNotification notification => st.admitNotification parse notification
  | .finishNotification executionId => reported (st.finishNotification executionId)
  | .cancelNotifications cellId => .ok .done (st.cancelNotifications cellId)
  | .cancelInvocation invocationId => st.cancelInvocation parse invocationId
  | .finishInvocation invocationId =>
    .ok .done { st with invocations := st.invocations.erase invocationId }
  | .closeCell executionId cellId => st.closeCell executionId cellId
  | .removeExecution executionId => reported (st.removeExecution executionId)
  | .close failure => .ok (.cells (st.close failure).1) (st.close failure).2

def Call.next (st : SessionState U) (call : Call) : SessionState U :=
  finalState (call.perform parse st)

def runCalls (calls : List Call) : SessionState U :=
  calls.foldl (Call.next parse) {}

open Option SessionState

variable {U : Type} {state after : SessionState U}
  {eid cellId : Text} {exec taken : ExecutionRecord}

def SessionState.cellOf (state : SessionState U) (eid : Text) : Option Text :=
  (state.executions.lookup eid).bind (·.cellId)

/-- The counters and the maps of a session agree. -/
structure Consistent (state : SessionState U) : Prop where
  counted : state.notifications = state.executions.total (·.notifications)
  limited : state.invocations.keys.card + state.notifications ≤ maxPendingDelegateCalls
  present : ∀ id cb, state.invocations.lookup id = some cb →
    ∃ exec, state.executions.lookup cb.executionId = some exec ∧ exec.closed = false
  cells : ∀ first snd cellId, state.cellOf first = some cellId →
    state.cellOf snd = some cellId → first = snd
  drained : state.closed = true → state.executions = ∅ ∧ state.invocations = ∅

/-- The token of an execution stays, and its cell id once it is set. -/
def ExecutionRecord.Renews (exec record : ExecutionRecord) : Prop :=
  record.cancellation = exec.cancellation ∧
    ∀ cellId, exec.cellId = some cellId → record.cellId = some cellId

/-- An execution is new with a fresh token, or one of the state. -/
def SessionState.Continues (state : SessionState U) (id : Text) (record : ExecutionRecord) : Prop :=
  state.executions.lookup id = none ∧ record.cancellation = state.executionTokens ∨
    ∃ exec, state.executions.lookup id = some exec ∧ exec.Renews record

structure Follows (state after : SessionState U) : Prop where
  sound : Consistent after
  kept : ∀ id record, after.executions.lookup id = some record → state.Continues id record
  stays : state.closed = true → after.closed = true

theorem Consistent.follows (sound : Consistent after)
    (eq : after.executions = state.executions) (stays : state.closed = true → after.closed = true) :
    Follows state after :=
  ⟨sound, fun _ record hit => .inr ⟨record, eq ▸ hit, rfl, fun _ owner => owner⟩, stays⟩

theorem final_guarded {α β σ : Type} {holds : σ → Prop} {check : Except StateError α} {state : σ}
    {next : α → Result StateError σ β} (start : holds state)
    (step : ∀ val, check = .ok val → holds (finalState (next val))) :
    holds (finalState (guarded check state next)) := by
  cases check with
  | error error => exact start
  | ok val => exact step val rfl

theorem requireOpen_ok {val : Unit} (passed : state.requireOpen = .ok val) :
    state.closed = false := by
  rw [requireOpen] at passed
  split at passed
  · cases passed
  next opened => exact Bool.eq_false_of_not_eq_true opened

theorem execution_ok (passed : state.execution eid = .ok exec) :
    state.executions.lookup eid = some exec := by
  rw [SessionState.execution] at passed
  split at passed
  · cases passed
  next hit =>
    cases passed
    exact hit

theorem acceptCell_ok (passed : exec.acceptCell cellId = .ok taken) :
    taken = { exec with cellId := some cellId } ∧ exec.Renews taken := by
  obtain ⟨-, -, passed⟩ := bind_eq_ok_iff.mp passed
  split at passed
  next cur eq =>
    split_ifs at passed with equal
    cases passed
    exact ⟨by rw [← equal, ← eq], rfl, fun _ => id⟩
  next absent =>
    cases passed
    exact ⟨rfl, rfl, fun _ owner => by simp [absent] at owner⟩

theorem checkCellOwnership_ok {val : Unit} (passed : state.checkCellOwnership eid cellId = .ok val)
    (hit : state.executions.lookup eid = some exec) {y : Text}
    (apart : y ≠ eid) : state.cellOf y ≠ some cellId := by
  intro owned
  rw [checkCellOwnership, if_pos] at passed
  · cases passed
  refine ⟨Finmap.mem_of_lookup_eq_some hit, y, Finmap.mem_keys.mpr ?_, apart, owned⟩
  obtain ⟨record, here, -⟩ := bind_eq_some_iff.mp owned
  exact Finmap.mem_of_lookup_eq_some here

theorem card_keys_le {K V : Type*} [DecidableEq K] {map smaller : Map K V}
    (le : ∀ k val, smaller.lookup k = some val → k ∈ map) : smaller.keys.card ≤ map.keys.card := by
  refine Finset.card_le_card fun k mem => ?_
  obtain ⟨val, hit⟩ := Finmap.mem_iff.mp (Finmap.mem_keys.mp mem)
  exact Finmap.mem_keys.mpr (le k val hit)

theorem removeExecution_executions (eid : Text) : (state.removeExecution eid).2.executions =
    state.executions.erase eid := by
  rw [removeExecution]
  split
  next absent => exact (Map.erase_eq_self absent).symm
  · rfl

namespace Consistent

/-- One execution changes, and the other executions keep their invocations. -/
theorem set (sound : Consistent state) (eid : Text) (val : Option ExecutionRecord)
    (count : ℕ) (invocations : Map Text ActiveCallback)
    (execs : after.executions = state.executions.set eid val)
    (counter : after.notifications = count) (active : after.invocations = invocations)
    (still : after.closed = state.closed) (opened : state.closed = false)
    (comes : ∀ record, val = some record → state.Continues eid record)
    (sum : count + (state.executions.lookup eid).elim 0 (·.notifications) =
      state.notifications + val.elim 0 (·.notifications))
    (limit : invocations.keys.card + count ≤ maxPendingDelegateCalls)
    (calls : ∀ id cb, invocations.lookup id = some cb →
      cb.executionId = eid ∧ (∃ exec, val = some exec ∧ exec.closed = false) ∨
      cb.executionId ≠ eid ∧ state.invocations.lookup id = some cb)
    (cell : ∀ cellId, val.bind (·.cellId) = some cellId →
      ∀ other ≠ eid, state.cellOf other ≠ some cellId) : Follows state after := by
  subst counter active
  have lookup : ∀ other, after.executions.lookup other =
      if other = eid then val else state.executions.lookup other := fun other => by
    rw [execs, Map.lookup_set]
  refine ⟨⟨?_, limit, fun id cb hit => ?_, fun fst snd cellId here there => ?_,
    fun closed => by simp [still, opened] at closed⟩, fun id record hit => ?_, still.trans⟩
  · have total : Map.total (fun record : ExecutionRecord => record.notifications) _ + _ = _ + _ :=
      Map.total_set state.executions eid val
    rw [execs]
    have := sound.counted
    omega
  · rw [lookup]
    obtain ⟨eq, changed⟩ | ⟨apart, kept⟩ := calls id cb hit
    · rwa [if_pos eq]
    rw [if_neg apart]
    exact sound.present id cb kept
  · rw [cellOf, lookup] at here there
    split_ifs at here there with eq eq' eq'
    · exact eq.trans eq'.symm
    · exact absurd there (cell cellId here snd eq')
    · exact absurd here (cell cellId there fst eq)
    · exact sound.cells fst snd cellId here there
  rw [lookup] at hit
  split_ifs at hit with here
  · exact here ▸ comes record hit
  · exact .inr ⟨record, hit, rfl, fun _ owner => owner⟩

variable (sound : Consistent state)
include sound

section

variable (hit : state.executions.lookup eid = some exec)
include hit

theorem notifications_le : exec.notifications ≤ state.notifications := by
  have total : Map.total (fun record : ExecutionRecord => record.notifications) _ + _ = _ :=
    Map.total_erase hit
  rw [sound.counted, ← total]
  exact Nat.le_add_left ..

theorem opened : state.closed = false := by
  refine Bool.eq_false_of_not_eq_true fun closed => ?_
  rw [(sound.drained closed).1, Finmap.lookup_empty] at hit
  cases hit

theorem calls_of_present (eq : taken.closed = exec.closed) {id : Text} {cb : ActiveCallback}
    (active : state.invocations.lookup id = some cb) :
    cb.executionId = eid ∧ (∃ record, some taken = some record ∧ record.closed = false) ∨
      cb.executionId ≠ eid ∧ state.invocations.lookup id = some cb := by
  obtain ⟨record, here, opened⟩ := sound.present id cb active
  by_cases this : cb.executionId = eid
  · rw [this, hit, Option.some.injEq] at here
    exact .inl ⟨this, taken, rfl, by rw [eq, here, opened]⟩
  · exact .inr ⟨this, active⟩

/-- A record that stays open or closed, with its notifications, is replaced. -/
theorem put (taken : ExecutionRecord) (eq : taken.closed = exec.closed)
    (count : taken.notifications = exec.notifications) (renews : exec.Renews taken)
    (cell : ∀ cellId, taken.cellId = some cellId → ∀ y ≠ eid, state.cellOf y ≠ some cellId) :
    Follows state (state.put eid taken) := by
  refine sound.set eid (some taken) _ _ rfl rfl rfl rfl (sound.opened hit) ?_ ?_
    sound.limited (fun id cb => sound.calls_of_present hit eq) cell
  · rintro _ ⟨⟩
    exact .inr ⟨exec, hit, renews⟩
  · simp [SessionState.put, hit, count]

theorem revoke (val : Option ExecutionRecord) {count : ℕ} {settled : Multiset Token}
    (comes : ∀ record, val = some record → exec.Renews record) (le : count ≤ state.notifications)
    (sum : count + exec.notifications = state.notifications + val.elim 0 (·.notifications))
    (cell : ∀ cellId, val.bind (·.cellId) = some cellId → ∀ y ≠ eid, state.cellOf y ≠ some cellId) :
    Follows state (revokeExecutionCallbacks eid { state with
      executions := state.executions.set eid val, notifications := count, settled }) := by
  have kept : ∀ id cb, (revokeExecutionCallbacks eid state).invocations.lookup id =
      some cb → cb.executionId ≠ eid ∧ state.invocations.lookup id = some cb := fun id cb hit => by
    rw [revokeExecutionCallbacks, Map.lookup_retain] at hit
    split_ifs at hit with keep
    rw [hit] at keep
    exact ⟨by simpa using keep, hit⟩
  refine sound.set eid val count _ rfl rfl rfl rfl (sound.opened hit)
    (fun record eq => .inr ⟨exec, hit, comes record eq⟩) (by rw [hit]; exact sum) ?_
    (fun id cb active => .inr (kept id cb active)) cell
  refine (Nat.add_le_add (card_keys_le fun id cb hit => ?_) le).trans sound.limited
  exact Finmap.mem_of_lookup_eq_some (kept id cb hit).2

theorem cellOf_ne (owner : exec.cellId = some cellId) {y : Text} (apart : y ≠ eid) :
    state.cellOf y ≠ some cellId := fun owned =>
  apart (sound.cells y eid cellId owned (by rw [cellOf, hit, bind_some, owner]))

end

theorem removeExecution (eid : Text) : Follows state (state.removeExecution eid).2 := by
  rw [SessionState.removeExecution]
  split
  · exact sound.follows rfl id
  next exec hit =>
    have := sound.notifications_le hit
    refine sound.revoke hit none (fun _ none => by cases none) (Nat.sub_le ..) ?_
      fun _ none => by cases none
    rw [elim_none]
    omega

theorem accept {val : Unit} (owned : state.checkCellOwnership eid cellId = .ok val)
    (hit : state.executions.lookup eid = some exec)
    (passed : exec.acceptCell cellId = .ok taken) (started : Bool) :
    Follows state (state.put eid { taken with started }) := by
  obtain ⟨rfl, renews⟩ := acceptCell_ok passed
  refine sound.put hit _ rfl rfl renews fun _ eq y apart => ?_
  cases eq
  exact checkCellOwnership_ok owned hit apart

theorem erase (id : Text) (tokens : Multiset Token) : Follows state { state with
    invocations := state.invocations.erase id, cancelledCalls := tokens } := by
  refine follows ⟨sound.counted, ?_, fun y cb hit => sound.present _ _
    (Map.of_lookup_erase hit).2, sound.cells, fun closed => ?_⟩ rfl fun closed => closed
  · refine (Nat.add_le_add_right (card_keys_le fun y cb hit => ?_) _).trans
      sound.limited
    exact Finmap.mem_of_lookup_eq_some (Map.of_lookup_erase hit).2
  obtain ⟨execs, invocations⟩ := sound.drained closed
  refine ⟨execs, ?_⟩
  rw [invocations]
  exact Map.erase_eq_self (Finmap.lookup_empty id)

end Consistent

namespace Follows

variable (follows : Follows state after)
include follows

theorem recents (seen cancelled : RecentIds U) (settled : Multiset Token) :
    Follows state { after with
      seenInvocations := seen, cancelledInvocations := cancelled, settled := settled } :=
  have ⟨⟨counted, limited, has, cells, drained⟩, kept, stays⟩ := follows
  ⟨⟨counted, limited, has, cells, drained⟩, kept, stays⟩

theorem closeExecutionIfReady (eid : Text) : Follows state (after.closeExecutionIfReady eid).2 := by
  rw [SessionState.closeExecutionIfReady]
  split
  · have gone := follows.sound.removeExecution eid
    refine ⟨gone.sound, fun id record hit => follows.kept id record ?_,
      fun closed => gone.stays (follows.stays closed)⟩
    rw [removeExecution_executions] at hit
    exact (Map.of_lookup_erase hit).2
  · exact follows

end Follows

namespace Consistent

variable (sound : Consistent state)
include sound

theorem beginExecution (req : ExecuteRequest) :
    Follows state (finalState (state.beginExecution req)) := by
  have still := sound.follows rfl id
  refine final_guarded still fun _ passed => ?_
  split
  · exact still
  next fresh =>
  refine final_guarded still fun _ _ => ?_
  split
  · exact still
  rw [not_or] at fresh
  have absent := Finmap.lookup_eq_none.mpr fresh.2
  refine sound.set req.executionId (some _) _ _ rfl rfl rfl rfl (requireOpen_ok passed) ?_ ?_
    sound.limited (fun id cb hit => .inr ⟨fun eq => ?_, hit⟩)
    fun _ owner => by cases owner
  · rintro _ ⟨⟩
    exact .inl ⟨absent, rfl⟩
  · rw [absent]
    rfl
  obtain ⟨record, here, -⟩ := sound.present id cb hit
  rw [eq, absent] at here
  cases here

theorem admitExecution (eid cellId : Text) :
    Follows state (finalState (state.admitExecution eid cellId)) := by
  have still := sound.follows rfl id
  refine final_guarded still fun _ _ => final_guarded still fun _ owned =>
    final_guarded still fun exec here => ?_
  split
  · exact still
  refine final_guarded still fun taken passed => ?_
  exact sound.accept owned (execution_ok here) passed true

theorem markExecutionReady (eid : Text) :
    Follows state (finalState (state.markExecutionReady eid)) := by
  have still := sound.follows rfl id
  refine final_guarded still fun _ _ => final_guarded still fun exec here => ?_
  split
  · exact still
  exact (sound.put (execution_ok here) { exec with ready := true } rfl rfl
    ⟨rfl, fun _ owner => owner⟩ fun _ owner _ => sound.cellOf_ne (execution_ok here)
      owner).closeExecutionIfReady eid

theorem finishNotification (eid : Text) : Follows state (state.finishNotification eid).2 := by
  rw [SessionState.finishNotification]
  split
  · exact sound.follows rfl id
  next exec hit =>
  split
  · exact sound.follows rfl id
  next count cnt =>
  have := sound.notifications_le hit
  refine Follows.closeExecutionIfReady ?_ eid
  refine sound.set eid (some _) _ _ rfl rfl rfl rfl (sound.opened hit) ?_ ?_ ?_
    (fun id cb => sound.calls_of_present hit (by rfl))
    fun _ owner _ => sound.cellOf_ne hit owner
  · rintro _ ⟨⟩
    exact .inr ⟨exec, hit, rfl, fun _ owner => owner⟩
  · simp only [hit, elim_some]
    omega
  · exact (Nat.add_le_add_left (Nat.sub_le ..) _).trans sound.limited

theorem closeCell (eid cellId : Text) :
    Follows state (finalState (state.closeCell eid cellId)) := by
  have still := sound.follows rfl id
  refine final_guarded still fun _ _ => final_guarded still fun _ owned => ?_
  split
  · exact still
  next exec hit =>
  refine final_guarded still fun taken passed => ?_
  split
  · exact sound.accept owned hit passed taken.started
  obtain ⟨rfl, renews⟩ := acceptCell_ok passed
  refine Follows.closeExecutionIfReady (sound.revoke hit
    (some { exec with cellId := some cellId, closed := true }) ?_ le_rfl rfl ?_) eid
  · rintro _ ⟨⟩
    exact renews
  rintro _ ⟨⟩ y apart
  exact checkCellOwnership_ok owned hit apart

theorem close (err : Option Text) : Follows state (state.close err).2 := by
  rw [SessionState.close]
  split
  · exact sound.follows rfl id
  have none : ∀ id, (∅ : Map Text ExecutionRecord).lookup id = none := Finmap.lookup_empty
  refine ⟨⟨Map.total_empty.symm, Nat.zero_le _, fun id cb hit => ?_, ?_,
    fun _ => ⟨rfl, rfl⟩⟩, ?_, fun _ => rfl⟩
  · cases (Finmap.lookup_empty id).symm.trans hit
  · intro fst snd cellId here
    simp [cellOf, none] at here
  intro id record hit
  cases (none id).symm.trans hit

variable (parse : Text → Option U)

theorem admitNotification (note : Notification) :
    Follows state (finalState (state.admitNotification parse note)) := by
  have still := sound.follows rfl id
  refine final_guarded still fun _ _ => ?_
  split
  · exact still
  refine final_guarded still fun _ _ => final_guarded still fun _ owned => ?_
  split
  · exact still
  next exec hit =>
  refine final_guarded still fun taken passed => ?_
  have kept := sound.accept owned hit passed taken.started
  split
  · exact kept
  split
  · exact kept
  split
  · exact kept
  next limit =>
  obtain ⟨rfl, renews⟩ := acceptCell_ok passed
  simp only [atLimit, decide_eq_true_eq, not_le] at limit
  refine sound.set note.executionId (some _) (state.notifications + 1) state.invocations
    rfl rfl rfl rfl (sound.opened hit) ?_ ?_ (by omega)
    (fun id cb => sound.calls_of_present hit (by rfl)) ?_
  · rintro _ ⟨⟩
    exact .inr ⟨exec, hit, renews⟩
  · simp only [hit, elim_some]
    omega
  rintro _ ⟨⟩ y apart
  exact checkCellOwnership_ok owned hit apart

variable [DecidableEq U]

theorem admitInvocation (call : ToolCall) :
    Follows state (finalState (state.admitInvocation parse call)) := by
  have still := sound.follows rfl id
  refine final_guarded still fun _ _ => ?_
  split
  · exact still
  split
  · exact still
  refine final_guarded still fun _ owned => ?_
  simp only
  split
  · exact still.recents ..
  next exec hit =>
  refine final_guarded still fun taken passed => ?_
  have accepts := sound.accept owned hit passed taken.started
  split
  · exact accepts.recents ..
  split
  · exact accepts.recents ..
  split
  · exact accepts.recents ..
  split
  · exact accepts.recents ..
  split
  · exact accepts.recents ..
  next opened _ _ _ _ _ limit =>
  obtain ⟨rfl, renews⟩ := acceptCell_ok passed
  simp only [atLimit, decide_eq_true_eq, not_le] at limit
  refine sound.set call.executionId (some _) state.notifications
    (state.invocations.insert call.invocationId ⟨call.executionId, state.callTokens⟩)
    rfl rfl rfl rfl
    (sound.opened hit) ?_ ?_ ?_ ?_ ?_
  · rintro _ ⟨⟩
    exact .inr ⟨exec, hit, renews⟩
  · rw [hit]
    rfl
  · have card := Finset.card_insert_le call.invocationId state.invocations.keys
    refine (Nat.add_le_add_right ((Finset.card_le_card fun id mem => ?_).trans card) _).trans
      (by omega)
    exact Finset.mem_insert.mpr
      ((Finmap.mem_insert.mp (Finmap.mem_keys.mp mem)).imp_right Finmap.mem_keys.mpr)
  · intro id cb active
    obtain ⟨-, rfl⟩ | ⟨-, active⟩ := Map.of_lookup_insert active
    · exact .inl ⟨rfl, _, rfl, Bool.eq_false_of_not_eq_true opened⟩
    · exact sound.calls_of_present hit (by rfl) active
  rintro _ ⟨⟩ y apart
  exact checkCellOwnership_ok owned hit apart

theorem next (call : Call) : Follows state (call.next parse state) := by
  have still := sound.follows rfl id
  cases call with
  | beginExecution req => exact sound.beginExecution req
  | admitExecution eid cellId => exact sound.admitExecution eid cellId
  | markExecutionReady eid => exact sound.markExecutionReady eid
  | admitInvocation call => exact sound.admitInvocation parse call
  | admitNotification note => exact sound.admitNotification parse note
  | finishNotification eid => exact sound.finishNotification eid
  | cancelNotifications cellId => exact still.recents ..
  | cancelInvocation invocationId =>
    rw [Call.next, Call.perform, SessionState.cancelInvocation]
    split
    · exact still
    split
    · exact sound.erase ..
    split
    · exact still
    · exact still.recents ..
  | finishInvocation invocationId => exact sound.erase ..
  | closeCell eid cellId => exact sound.closeCell eid cellId
  | removeExecution eid => exact sound.removeExecution eid
  | close err => exact sound.close err

end Consistent

variable [DecidableEq U] (parse : Text → Option U)

theorem runCalls_concat (calls : List Call) (call : Call) :
    runCalls parse (calls ++ [call]) = call.next parse (runCalls parse calls) := by
  rw [runCalls, foldl_append]
  rfl

theorem consistent_runCalls (calls : List Call) : Consistent (runCalls parse calls) := by
  induction calls using List.reverseRecOn with
  | nil =>
    exact ⟨rfl, Nat.zero_le _, fun _ _ hit => (some_ne_none _ hit.symm).elim,
      fun _ _ _ owned => (some_ne_none _ owned.symm).elim,
      fun closed => (Bool.false_ne_true closed).elim⟩
  | append_singleton calls call ih =>
    rw [runCalls_concat]
    exact (ih.next parse call).sound

def Call.IsAdmission : Call → Prop
  | .beginExecution _ | .admitExecution .. | .admitInvocation _ | .admitNotification _ => True
  | _ => False

def Call.Refused (state : SessionState U) (call : Call) : Prop :=
  ∃ error, call.perform parse state = .error error state

theorem refused_of_closed (closed : state.closed = true) {call : Call}
    (admission : call.IsAdmission) : call.Refused parse state := by
  refine ⟨.closed state.failure, ?_⟩
  have shut : state.requireOpen = .error (.closed state.failure) := if_pos closed
  cases call with
  | beginExecution req => simp [Call.perform, beginExecution, shut, guarded]
  | admitExecution eid cellId => simp [Call.perform, admitExecution, shut, guarded]
  | admitInvocation call => simp [Call.perform, admitInvocation, shut, guarded]
  | admitNotification note => simp [Call.perform, admitNotification, shut, guarded]
  | _ => cases admission

theorem closed_runCalls {calls : List Call} {err : Option Text} (mem : .close err ∈ calls) :
    (runCalls parse calls).closed = true := by
  induction calls using List.reverseRecOn with
  | nil => cases mem
  | append_singleton calls call ih =>
    rw [runCalls_concat]
    rcases mem_append.mp mem with old | last
    · exact ((consistent_runCalls parse calls).next parse call).stays (ih old)
    obtain rfl := mem_singleton.mp last
    by_cases closed : (runCalls parse calls).closed = true
    · exact ((consistent_runCalls parse calls).next parse _).stays closed
    rw [Call.next, Call.perform, close, if_neg closed]
    rfl

/-- The bookkeeping of a session is consistent after every sequence of calls. -/
theorem runCalls_bookkeeping (calls : List Call) :
    let state := runCalls parse calls
    Consistent state ∧ (∀ id exec, state.executions.lookup id = some exec →
        exec.notifications ≤ state.notifications) ∧
      (∀ call id exec record cellId, state.executions.lookup id = some exec →
        exec.cellId = some cellId →
        (Call.next parse state call).executions.lookup id = some record →
          record.cellId = some cellId) ∧
      ((∃ failure, Call.close failure ∈ calls) →
        state.executions = ∅ ∧ state.invocations = ∅ ∧ state.notifications = 0 ∧
          ∀ call : Call, call.IsAdmission → call.Refused parse state) := by
  have sound := consistent_runCalls parse calls
  refine ⟨sound, fun id exec hit => sound.notifications_le hit,
    fun call id exec record cellId hit owner later => ?_, fun ⟨reason, mem⟩ => ?_⟩
  · obtain ⟨absent, -⟩ | ⟨old, here, -, cell⟩ := (sound.next parse call).kept id record later
    · cases absent.symm.trans hit
    cases here.symm.trans hit
    exact cell cellId owner
  have closed := closed_runCalls parse mem
  obtain ⟨executions, invocations⟩ := sound.drained closed
  refine ⟨executions, invocations, ?_, fun call => refused_of_closed parse closed⟩
  rw [sound.counted, executions, Map.total_empty]

end Codex.CodeMode
