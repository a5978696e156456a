import Codex.RemoteControl.Segment

/-!
# What closes a connection

A connection should end only for a reason of its own.
-/

namespace Codex.RemoteControl

inductive TransportEvent (P : Type)
  | connectionOpened (connectionId : Nat)
  | incomingMessage (connectionId : Nat) (msg : JSONRPCMessage P)
  | connectionClosed (connectionId : Nat)

inductive Stopped
  | stopped
  deriving DecidableEq

variable {P : Type}

def remoteControlMessageStartsConnection : JSONRPCMessage P → Bool
  | .request method _ => method == "initialize"
  | .notification _ | .response _ | .error _ => false

def ClientEnvelope.isInitialize (env : ClientEnvelope P) : Bool :=
  match env.event with
  | .clientMessage msg => remoteControlMessageStartsConnection msg
  | _ => false

def remoteControlClientIdleTimeout : Nat := 10 * 60 * 1000

structure ClientState where
  connectionId : Nat
  lastActivityAt : Nat
  lastInboundSeqId : Option Nat

def remoteControlClientIsAlive (client : ClientState) (now : Nat) : Bool :=
  now - client.lastActivityAt < remoteControlClientIdleTimeout

/-- A task that forwards the messages of one connection to its client. -/
structure OutboundTask where
  key : ClientKey
  connectionId : Nat
  deriving DecidableEq

structure ClientTracker (P : Type) where
  clients : Map ClientKey ClientState := ∅
  legacyStreamIds : Map ClientId StreamId := ∅
  running : List OutboundTask := []
  ended : List OutboundTask := []
  nextConnectionId : Nat := 0
  transportEvents : List (TransportEvent P) := []
  pongs : List (ClientKey × PongStatus) := []

abbrev TrackerM (P : Type) := EStateM Stopped (ClientTracker P)

namespace ClientTracker

variable (self : ClientTracker P)

def tasks : List OutboundTask := self.running ++ self.ended

variable (key : ClientKey)

def removeClient : ClientTracker P :=
  { self with
    clients := self.clients.erase key
    legacyStreamIds :=
      if self.legacyStreamIds.lookup key.1 = some key.2 then
        self.legacyStreamIds.erase key.1
      else self.legacyStreamIds }

def updateClient (update : ClientState → ClientState) (self : ClientTracker P) : ClientTracker P :=
  match self.clients.lookup key with
  | none => self
  | some client => { self with clients := self.clients.insert key (update client) }

def recordInboundMessageDelivery (seqId : Option Nat) (self : ClientTracker P) : ClientTracker P :=
  match seqId with
  | none => self
  | some seqId =>
    self.updateClient key fun client => { client with lastInboundSeqId := some seqId }

def touchClient (now : Nat) (key : ClientKey) (self : ClientTracker P) : ClientTracker P :=
  self.updateClient key fun client => { client with lastActivityAt := now }

def isDuplicate (seqId : Option Nat) : Bool :=
  let lastSeqId := (self.clients.lookup key).bind ClientState.lastInboundSeqId
  seqId.any fun seqId => lastSeqId.any fun last => seqId ≤ last

def insertClient (connectionId now : Nat) (isLegacyStreamId : Bool) : ClientTracker P :=
  { self with
    running := self.running ++ [⟨key, connectionId⟩]
    clients := self.clients.insert key ⟨connectionId, now, none⟩
    legacyStreamIds :=
      if isLegacyStreamId then self.legacyStreamIds.insert key.1 key.2
      else self.legacyStreamIds }

/-- The stream of an envelope. -/
def resolveStreamId (env : ClientEnvelope P)
    (random : StreamId) : StreamId × Map ClientId StreamId :=
  let known := self.legacyStreamIds.lookup env.clientId
  match env.streamId with
  | some stream => (stream, self.legacyStreamIds)
  | none =>
    if env.isInitialize then
      (known.getD random, self.legacyStreamIds.erase env.clientId)
    else
      let otherwise :=
        match env.event with
        | .ping => random
        | _ => []
      (known.getD otherwise, self.legacyStreamIds)

def envelopeKey (env : ClientEnvelope P) (random : StreamId) : ClientKey :=
  (env.clientId, (self.resolveStreamId env random).1)

section

variable (accepts : TransportEvent P → Bool)

def sendTransportEvent (event : TransportEvent P) : TrackerM P PUnit :=
  if accepts event then
    modifyThe (ClientTracker P) fun self =>
      { self with transportEvents := self.transportEvents ++ [event] }
  else throwThe Stopped .stopped

def closeClient (key : ClientKey) : TrackerM P PUnit := do
  let self ← getThe (ClientTracker P)
  match self.clients.lookup key with
  | none => pure ⟨⟩
  | some client => do
      set (self.removeClient key)
      sendTransportEvent accepts (.connectionClosed client.connectionId)

def spawnConnectionClosed (connectionId : Nat) (self : ClientTracker P) : ClientTracker P :=
  if accepts (.connectionClosed connectionId) then
    { self with
      transportEvents := self.transportEvents ++ [.connectionClosed connectionId] }
  else self

variable (now : Nat)

/-- Open a connection and forward its initialize message. -/
def openConnection (key : ClientKey) (isLegacyStreamId : Bool) (seqId : Option Nat)
    (msg : JSONRPCMessage P) : TrackerM P PUnit := do
  let self ← getThe (ClientTracker P)
  let connectionId := self.nextConnectionId
  set { self with nextConnectionId := connectionId + 1 }
  sendTransportEvent accepts (.connectionOpened connectionId)
  modifyThe (ClientTracker P) fun self =>
    self.insertClient key connectionId now isLegacyStreamId
  if accepts (.incomingMessage connectionId msg) then do
    sendTransportEvent accepts (.incomingMessage connectionId msg)
    if isLegacyStreamId then pure ⟨⟩
    else modifyThe (ClientTracker P) (recordInboundMessageDelivery key seqId)
  else do
    modifyThe (ClientTracker P) fun self =>
      spawnConnectionClosed accepts connectionId (self.removeClient key)
    throwThe Stopped .stopped

def forwardMessage (key : ClientKey) (connectionId : Nat) (seqId : Option Nat)
    (msg : JSONRPCMessage P) : TrackerM P PUnit := do
  modifyThe (ClientTracker P) (touchClient now key)
  sendTransportEvent accepts (.incomingMessage connectionId msg)
  modifyThe (ClientTracker P) (recordInboundMessageDelivery key seqId)

def deliverMessage (key : ClientKey) (isLegacyStreamId isInitialize : Bool)
    (seqId : Option Nat) (msg : JSONRPCMessage P) : TrackerM P PUnit := do
  let self ← getThe (ClientTracker P)
  match self.clients.lookup key with
  | some client => forwardMessage accepts now key client.connectionId seqId msg
  | none =>
    if isInitialize then openConnection accepts now key isLegacyStreamId seqId msg
    else pure ⟨⟩

def handleClientMessage (key : ClientKey) (isLegacyStreamId isInitialize : Bool)
    (seqId : Option Nat) (msg : JSONRPCMessage P) : TrackerM P PUnit := do
  let self ← getThe (ClientTracker P)
  if !isInitialize && self.isDuplicate key seqId then pure ⟨⟩
  else if isInitialize then do
    closeClient accepts key
    deliverMessage accepts now key isLegacyStreamId true seqId msg
  else deliverMessage accepts now key isLegacyStreamId false seqId msg

def handlePing (key : ClientKey) (self : ClientTracker P) : ClientTracker P :=
  let status := if (self.clients.lookup key).isSome then PongStatus.active else .unknown
  { touchClient now key self with
    pongs := self.pongs ++ [(key, status)] }

def handleEvent (key : ClientKey) (env : ClientEnvelope P) : TrackerM P PUnit :=
  match env.event with
  | .clientMessage msg =>
    handleClientMessage accepts now key env.streamId.isNone env.isInitialize
      env.seqId msg
  | .clientMessageChunk _ _ _ _ | .ack _ => pure ⟨⟩
  | .ping => modifyThe (ClientTracker P) (handlePing now key)
  | .clientClosed => closeClient accepts key

def handleMessage (random : StreamId) (env : ClientEnvelope P) : TrackerM P PUnit := do
  let self ← getThe (ClientTracker P)
  set { self with legacyStreamIds := (self.resolveStreamId env random).2 }
  if (self.envelopeKey env random).2 = [] then pure ⟨⟩
  else handleEvent accepts now (self.envelopeKey env random) env

def closeClients (keys : List ClientKey) : TrackerM P PUnit :=
  keys.forM (closeClient accepts)

end

end ClientTracker

open List Option Triple

inductive Action (P : Type)
  | envelope (envelope : ClientEnvelope P) (now : Nat) (random : StreamId)
  | taskEnd (task : OutboundTask)
  | taskPanic (task : OutboundTask)
  | completion (task : OutboundTask)
  | sweep (now : Nat)
  | shutdown

namespace ClientTracker

variable (self : ClientTracker P)

def connection (key : ClientKey) : Option Nat :=
  (self.clients.lookup key).map ClientState.connectionId

def Expired (now : Nat) (key : ClientKey) : Prop :=
  ∃ client, self.clients.lookup key = some client ∧ remoteControlClientIsAlive client now = false

/-- One step of the reader loop or of an outbound task. -/
inductive Step : ClientTracker P → Action P → ClientTracker P → Prop
  | envelope (self : ClientTracker P) (accepts : TransportEvent P → Bool)
      (envelope : ClientEnvelope P) (now : Nat) (random : StreamId) :
      Step self (.envelope envelope now random)
        (finalState (handleMessage accepts now random envelope self))
  | taskEnd (self : ClientTracker P) (task : OutboundTask) (runs : task ∈ self.running) :
      Step self (.taskEnd task)
        { self with running := self.running.erase task, ended := self.ended ++ [task] }
  | taskPanic (self : ClientTracker P) (task : OutboundTask) (runs : task ∈ self.running) :
      Step self (.taskPanic task) { self with running := self.running.erase task }
  | completion (self : ClientTracker P) (accepts : TransportEvent P → Bool)
      (task : OutboundTask) (ended : task ∈ self.ended) :
      Step self (.completion task)
        (finalState (closeClient accepts task.key
          { self with ended := self.ended.erase task }))
  | sweep (self : ClientTracker P) (accepts : TransportEvent P → Bool) (now : Nat)
      (keys : List ClientKey) (expired : ∀ key, key ∈ keys ↔ self.Expired now key) :
      Step self (.sweep now) (finalState (closeClients accepts keys self))
  | shutdown (self : ClientTracker P) (accepts : TransportEvent P → Bool)
      (keys : List ClientKey) (all : ∀ key, key ∈ keys ↔ key ∈ self.clients) :
      Step self .shutdown
        { keys.foldl (fun self key => finalState (closeClient accepts key self)) self with
          running := []
          ended := [] }

def MayClose (key : ClientKey) (client : ClientState) : Action P → Prop
  | .envelope envelope _ random =>
    self.envelopeKey envelope random = key ∧
      (envelope.event = .clientClosed ∨ envelope.isInitialize)
  | .taskEnd _ | .taskPanic _ => False
  | .completion task => task.key = key ∧ task.connectionId = client.connectionId
  | .sweep now => remoteControlClientIsAlive client now = false
  | .shutdown => True

/-- A connection goes only by an action that may close it. -/
def ClosesProperly (act : Action P) (next : ClientTracker P) : Prop :=
  ∀ key client, self.clients.lookup key = some client →
    next.connection key ≠ some client.connectionId → self.MayClose key client act

/-- No client is initialized again while a task of its key runs. -/
def Orderly : Action P → Prop
  | .envelope envelope _ random => envelope.isInitialize →
      ∀ task ∈ self.tasks, task.key ≠ self.envelopeKey envelope random
  | _ => True

inductive Reachable (meets : ClientTracker P → Action P → Prop) : ClientTracker P → Prop
  | start : Reachable meets {}
  | step {self next : ClientTracker P} {act : Action P} (reached : Reachable meets self)
      (met : meets self act) (step : Step self act next) : Reachable meets next

end ClientTracker

structure Connections where
  current : ClientKey → Option Nat
  running : List OutboundTask
  ended : List OutboundTask
  next : Nat

namespace Connections

def close (key : ClientKey) (connections : Connections) : Connections :=
  { connections with current := Function.update connections.current key none }

variable (connections : Connections)

def skip : Connections :=
  { connections with next := connections.next + 1 }

def start (key : ClientKey) (connections : Connections) : Connections :=
  { connections with
    current := Function.update connections.current key (some connections.next)
    running := connections.running ++ [⟨key, connections.next⟩]
    next := connections.next + 1 }

/-- What an initialize may do. -/
inductive Initialized (key : ClientKey) (before : Connections) : Connections → Prop
  | closed : Initialized key before (before.close key)
  | refused : Initialized key before (before.close key).skip
  | started : Initialized key before ((before.close key).start key)
  | ended : Initialized key before (((before.close key).start key).close key)

theorem current_close (key other : ClientKey) : (connections.close key).current other =
      if other = key then none else connections.current other :=
  Function.update_apply ..

theorem current_start (key other : ClientKey) : (connections.start key).current other =
      if other = key then some connections.next else connections.current other :=
  Function.update_apply ..

def tasks : List OutboundTask :=
  connections.running ++ connections.ended

structure Closes (keys : List ClientKey) (before after : Connections) : Prop where
  current : ∀ key, after.current key = before.current key ∨ key ∈ keys ∧ after.current key = none
  tasks : after.tasks = before.tasks
  next : after.next = before.next

theorem Closes.refl (keys : List ClientKey) (connections : Connections) :
    Closes keys connections connections :=
  ⟨fun _ => .inl rfl, rfl, rfl⟩

variable {keys : List ClientKey} {before after : Connections} {key : ClientKey}

theorem Closes.close (closes : Closes keys before after) (mem : key ∈ keys) :
    Closes keys before (after.close key) where
  current other := by
    rw [current_close]
    split
    · rename_i eq
      exact .inr ⟨eq ▸ mem, rfl⟩
    · exact closes.current other
  tasks := closes.tasks
  next := closes.next

structure Shrinks (before after : Connections) : Prop where
  tasks : ∀ task ∈ after.tasks, task ∈ before.tasks
  current : ∀ key, after.current key = before.current key ∨ after.current key = none
  next : before.next ≤ after.next

theorem Closes.shrinks (closes : Closes keys before after) : Shrinks before after where
  tasks _ mem := closes.tasks ▸ mem
  current key := (closes.current key).imp id And.right
  next := closes.next.ge

theorem shrinks_close (connections : Connections) (key : ClientKey) :
    Shrinks connections (connections.close key) :=
  ((Closes.refl [key] connections).close (mem_singleton_self key)).shrinks

theorem Shrinks.trans {fst snd third : Connections} (shrinks : Shrinks fst snd)
    (further : Shrinks snd third) : Shrinks fst third where
  tasks task mem := shrinks.tasks task (further.tasks task mem)
  current key := by
    rcases further.current key with eq | closed
    · rw [eq]
      exact shrinks.current key
    · exact .inr closed
  next := shrinks.next.trans further.next

theorem close_eq_self {connections : Connections} (absent : connections.current key = none) :
    connections.close key = connections := by
  rw [close, ← absent, Function.update_eq_self]

end Connections

open ClientEnvelope Map

namespace ClientTracker

variable (self : ClientTracker P)

def connections : Connections :=
  ⟨self.connection, self.running, self.ended, self.nextConnectionId⟩

@[simp] theorem connections_removeClient (key : ClientKey) :
    (self.removeClient key).connections = self.connections.close key := by
  refine congrArg (Connections.mk · _ _ _) (funext fun other => ?_)
  rw [connection, removeClient, lookup_erase, Function.update_apply]
  split <;> rfl

theorem connections_updateClient (key : ClientKey) (update : ClientState → ClientState)
    (keeps : ∀ client, (update client).connectionId = client.connectionId) :
    (self.updateClient key update).connections = self.connections := by
  unfold updateClient
  split
  · rfl
  rename_i client hit
  refine congrArg (Connections.mk · _ _ _) (funext fun other => ?_)
  rw [connection, connection, lookup_insert]
  split
  · rename_i eq
    rw [eq, hit, map_some, map_some, keeps]
  · rfl

@[simp] theorem connections_recordInboundMessageDelivery (key : ClientKey) (seqId : Option Nat) :
    (self.recordInboundMessageDelivery key seqId).connections = self.connections := by
  unfold recordInboundMessageDelivery
  split
  · rfl
  · exact connections_updateClient self key _ fun _ => rfl

@[simp] theorem connections_spawnConnectionClosed (accepts : TransportEvent P → Bool)
    (connId : Nat) (self : ClientTracker P) :
    (spawnConnectionClosed accepts connId self).connections = self.connections := by
  unfold spawnConnectionClosed
  split <;> rfl

@[simp] theorem connections_touchClient (now : Nat) (key : ClientKey) (self : ClientTracker P) :
    (touchClient now key self).connections = self.connections :=
  connections_updateClient self key _ fun _ => rfl

theorem connections_insertClient (key : ClientKey) (now : Nat)
    (legacy : Bool) {before : Connections} (numbered : self.connections = before.skip) :
    (self.insertClient key before.next now legacy).connections = before.start key := by
  obtain ⟨cur, running, ended, next⟩ := before
  obtain ⟨rfl, rfl, rfl, count⟩ := Connections.mk.inj numbered
  have eq : (self.insertClient key next now legacy).connection =
      Function.update self.connection key (some next) := by
    funext other
    rw [connection, insertClient, lookup_insert, Function.update_apply]
    split <;> rfl
  rw [connections, eq]
  exact congrArg (Connections.mk _ _ _) count

@[simp] theorem connections_handlePing (now : Nat) (key : ClientKey) (self : ClientTracker P) :
    (handlePing now key self).connections = self.connections :=
  connections_touchClient now key self

variable {accepts : TransportEvent P → Bool} {before : Connections} {key : ClientKey}

abbrev Has (before : Connections) (self : ClientTracker P) : Prop :=
  self.connections = before

def Refuses (accepts : TransportEvent P → Bool) : Prop := ∃ event, accepts event = false

theorem sendTransportEvent_has (ev : TransportEvent P) :
    Triple (Has before) (sendTransportEvent accepts ev) (fun _ => Has before)
      fun _ self => Has before self ∧ Refuses accepts := by
  unfold sendTransportEvent
  split
  · exact Triple.modify fun _ has => has
  rename_i refused
  exact throw fun _ has => ⟨has, ev, Bool.not_eq_true _ ▸ refused⟩

theorem closeClient_has : Triple (Has before) (closeClient accepts key : TrackerM P PUnit)
      (fun _ => Has (before.close key))
      fun _ self => Has (before.close key) self ∧ Refuses accepts := by
  refine read fun self has => ?_
  cases hit : self.clients.lookup key with
  | none =>
    have absent : before.current key = none := by
      rw [← has]
      exact congrArg (Option.map ClientState.connectionId) hit
    rw [Connections.close_eq_self absent]
    exact pure fun st eq => eq ▸ has
  | some client =>
    refine write ((sendTransportEvent_has _).narrow fun st eq => ?_)
    rw [Has, eq, connections_removeClient, has]

theorem openConnection_has (now : Nat) (legacy : Bool) (seqId : Option Nat)
    (msg : JSONRPCMessage P) :
    Triple (Has before) (openConnection accepts now key legacy seqId msg)
      (fun _ => Has (before.start key))
      fun _ self => (Has before.skip self ∨ Has ((before.start key).close key) self) ∧
        Refuses accepts := by
  refine read fun self has => ?_
  have num : self.nextConnectionId = before.next := congrArg Connections.next has
  refine write ?_
  refine bind ((sendTransportEvent_has _).consequence (fun st eq => ?_)
    (fun _ _ sent => sent) fun _ _ refused => ⟨.inl refused.1, refused.2⟩) fun _ => ?_
  · rw [eq, Has, connections, ← has]
    rfl
  refine Triple.update (Has (before.start key)) (fun st sent => ?_) ?_
  · rw [num]
    exact connections_insertClient st key now legacy sent
  split
  · rename_i taken
    have sent : Triple (Has (before.start key))
        (sendTransportEvent accepts (.incomingMessage self.nextConnectionId msg))
        (fun _ => Has (before.start key)) fun _ _ => False := by
      unfold sendTransportEvent
      rw [if_pos taken]
      exact Triple.modify fun _ has => has
    refine bind (sent.weakenFailed fun _ _ never => never.elim) fun _ => ?_
    split
    · exact pure fun _ has => has
    exact Triple.modify fun st has => by
      rw [Has, connections_recordInboundMessageDelivery, has]
  rename_i refused
  refine Triple.update (Has ((before.start key).close key)) (fun st has => ?_)
    (throw fun _ has => ⟨.inr has, _, Bool.not_eq_true _ ▸ refused⟩)
  rw [Has, connections_spawnConnectionClosed, connections_removeClient, has]

theorem forwardMessage_has (now connId : Nat) (seqId : Option Nat) (msg : JSONRPCMessage P) :
    Triple (Has before) (forwardMessage accepts now key connId seqId msg)
      (fun _ => Has before) fun _ => Has before := by
  refine Triple.update (Has before) (fun st has => ?_) ?_
  · rw [Has, connections_touchClient, has]
  refine bind ((sendTransportEvent_has _).weakenFailed fun _ _ refused => refused.1)
    fun _ => Triple.modify fun st has => ?_
  rw [Has, connections_recordInboundMessageDelivery, has]

theorem handleClientMessage_has (now : Nat) (legacy : Bool) (seqId : Option Nat)
    (msg : JSONRPCMessage P) :
    Triple (Has before) (handleClientMessage accepts now key legacy false seqId msg)
      (fun _ => Has before) fun _ => Has before := by
  have deliver : Triple (Has before)
      (deliverMessage accepts now key legacy false seqId msg)
      (fun _ => Has before) fun _ => Has before := by
    refine read fun self has => ?_
    cases self.clients.lookup key with
    | none => exact pure fun st eq => eq ▸ has
    | some client => exact (forwardMessage_has _ _ _ _).narrow fun st eq => eq ▸ has
  refine read fun self has => ?_
  split
  · exact pure fun st eq => eq ▸ has
  · exact deliver.narrow fun st eq => eq ▸ has

theorem handleClientMessage_initialize (now : Nat) (legacy : Bool) (seqId : Option Nat)
    (msg : JSONRPCMessage P) :
    Triple (Has before) (handleClientMessage accepts now key legacy true seqId msg)
      (fun _ => Has ((before.close key).start key))
      fun _ self => before.Initialized key self.connections ∧ Refuses accepts := by
  have deliver : Triple (Has (before.close key))
      (deliverMessage accepts now key legacy true seqId msg)
      (fun _ => Has ((before.close key).start key))
      fun _ self => before.Initialized key self.connections ∧ Refuses accepts := by
    refine read fun self has => ?_
    have absent : self.clients.lookup key = none := by
      have here := congrFun (congrArg Connections.current has) key
      rw [Connections.current_close, if_pos rfl] at here
      exact map_eq_none_iff.mp here
    rw [absent]
    refine (openConnection_has _ _ _ _).consequence (fun st eq => eq ▸ has)
      (fun _ _ opened => opened) fun _ _ ⟨failed, refuses⟩ => ⟨?_, refuses⟩
    rcases failed with refused | closed
    · exact refused ▸ .refused
    · exact closed ▸ .ended
  refine read fun self has => ?_
  exact bind (closeClient_has.consequence (fun st eq => eq ▸ has)
    (fun _ _ closed => closed) fun _ _ failed => ⟨failed.1 ▸ .closed, failed.2⟩) fun _ => deliver

/-- Only an initialize and a close change connections, those of their key. -/
inductive Handled (envelope : ClientEnvelope P) (key : ClientKey) (before : Connections) :
    Connections → Prop
  | kept : Handled envelope key before before
  | closed (asked : envelope.event = .clientClosed) : Handled envelope key before (before.close key)
  | initialized {after : Connections} (asked : envelope.isInitialize) (named : key.2 ≠ [])
      (effect : before.Initialized key after) : Handled envelope key before after

variable {envelope : ClientEnvelope P} {task : OutboundTask} {after : Connections}
  {self next : ClientTracker P} {act : Action P} {other : ClientKey} {random : StreamId}

theorem handleEvent_opening (now : Nat) (starts : envelope.isInitialize) :
    Triple (Has before) (handleEvent accepts now key envelope)
      (fun _ => Has ((before.close key).start key))
      fun _ after => before.Initialized key after.connections ∧ Refuses accepts := by
  unfold handleEvent
  cases ev : envelope.event with
  | clientMessage msg =>
    rw [starts]
    exact handleClientMessage_initialize _ _ _ _
  | clientMessageChunk segId total size chunk =>
    simp [isInitialize, ev] at starts
  | ack | ping | clientClosed => simp [isInitialize, ev] at starts

theorem handleEvent_handled (now : Nat) (named : key.2 ≠ []) (envelope : ClientEnvelope P) :
    Triple (Has before) (handleEvent accepts now key envelope)
      (fun _ after => Handled envelope key before after.connections)
      fun _ after => Handled envelope key before after.connections := by
  cases starts : envelope.isInitialize with
  | true =>
    exact (handleEvent_opening now starts).consequence (fun _ has => has)
      (fun _ _ opened => opened ▸ .initialized starts named .started)
      fun _ _ failed => .initialized starts named failed.1
  | false =>
    unfold handleEvent
    cases ev : envelope.event with
    | clientMessage msg =>
      rw [starts]
      exact (handleClientMessage_has _ _ _ _).consequence (fun _ has => has)
        (fun _ _ kept => kept ▸ .kept) fun _ _ kept => kept ▸ .kept
    | clientMessageChunk segId total size chunk =>
      exact pure fun _ has => has ▸ .kept
    | ack segId => exact pure fun _ has => has ▸ .kept
    | ping =>
      refine Triple.modify fun after has => ?_
      rw [connections_handlePing, has]
      exact .kept
    | clientClosed =>
      exact closeClient_has.consequence (fun _ has => has)
        (fun _ _ closed => closed ▸ .closed ev) fun _ _ failed => failed.1 ▸ .closed ev

variable (accepts : TransportEvent P → Bool)

theorem handleMessage_handled (now : Nat) (random : StreamId)
    (envelope : ClientEnvelope P) (self : ClientTracker P) :
    Handled envelope (self.envelopeKey envelope random) self.connections
      (finalState (handleMessage accepts now random envelope self)).connections := by
  have triple : Triple (· = self) (handleMessage accepts now random envelope)
      (fun _ after => Handled envelope (self.envelopeKey envelope random) self.connections
        after.connections)
      fun _ after => Handled envelope (self.envelopeKey envelope random) self.connections
        after.connections := by
    refine read fun st eq => write ?_
    subst eq
    split
    · exact pure fun after eq => eq ▸ .kept
    rename_i named
    exact (handleEvent_handled now named envelope).narrow fun after eq => eq ▸ rfl
  exact triple.finalState rfl

theorem connections_closeClient (key : ClientKey) (self : ClientTracker P) :
    (finalState (closeClient accepts key self)).connections = self.connections.close key :=
  (closeClient_has.weakenFailed fun _ _ failed => failed.1).finalState rfl

theorem closeClients_closes (keys : List ClientKey) (self : ClientTracker P) :
    self.connections.Closes keys (finalState (closeClients accepts keys self)).connections := by
  have loop : Triple (fun after => self.connections.Closes keys after.connections)
      (closeClients accepts keys) (fun _ after => self.connections.Closes keys after.connections)
      fun _ after => self.connections.Closes keys after.connections := by
    refine Triple.forM fun key mem => ?_
    intro st closes
    refine closeClient_has.consequence (fun after eq => eq) (fun _ after closed => ?_)
      (fun _ after failed => ?_) st rfl
    · exact closed ▸ closes.close mem
    · exact failed.1 ▸ closes.close mem
  exact loop.finalState (.refl keys self.connections)

def Settled (connections : Connections) : Prop :=
  ∀ task ∈ connections.tasks, ∀ id, connections.current task.key = some id → id = task.connectionId

theorem mem_tasks_start {connections : Connections} : task ∈ (connections.start key).tasks ↔
      task ∈ connections.tasks ∨ task = ⟨key, connections.next⟩ := by
  simp only [Connections.tasks, Connections.start, mem_append, mem_singleton]
  tauto

section

variable (settled : Settled before)
include settled

theorem Settled.of_shrinks (shrinks : before.Shrinks after) : Settled after := by
  intro task mem id hit
  rcases shrinks.current task.key with eq | closed
  · exact settled task (shrinks.tasks task mem) id (eq ▸ hit)
  rw [closed] at hit
  cases hit

theorem Settled.close (key : ClientKey) : Settled (before.close key) :=
  settled.of_shrinks (before.shrinks_close key)

theorem Settled.start (orderly : ∀ task ∈ before.tasks, task.key ≠ key) :
    Settled (before.start key) := by
  intro task mem id hit
  rw [Connections.current_start] at hit
  rcases mem_tasks_start.mp mem with old | rfl
  · rw [if_neg (orderly task old)] at hit
    exact settled task old id hit
  rw [if_pos rfl] at hit
  exact (some.inj hit).symm

theorem Settled.initialized (orderly : ∀ task ∈ before.tasks, task.key ≠ key)
    (effect : before.Initialized key after) : Settled after := by
  cases effect with
  | closed | refused => exact settled.close key
  | started => exact (settled.close key).start orderly
  | ended => exact ((settled.close key).start orderly).close key

end

theorem Handled.settled (handled : Handled envelope key before after) (settled : Settled before)
    (orderly : envelope.isInitialize → ∀ task ∈ before.tasks, task.key ≠ key) : Settled after := by
  cases handled with
  | kept => exact settled
  | closed asked => exact settled.close key
  | initialized asked named effect => exact settled.initialized (orderly asked) effect

theorem foldl_closeClient_closes (keys : List ClientKey) (self : ClientTracker P) :
    self.connections.Closes keys
      (keys.foldl (fun self key => finalState (closeClient accepts key self))
        self).connections := by
  suffices general : ∀ (tl : List ClientKey) (st : ClientTracker P), (∀ key ∈ tl, key ∈ keys) →
      self.connections.Closes keys st.connections →
      self.connections.Closes keys
        (tl.foldl (fun self key => finalState (closeClient accepts key self))
          st).connections from
    general keys self (fun _ mem => mem) (.refl keys _)
  intro tl
  induction tl with
  | nil => exact fun _ _ closes => closes
  | cons key tl ih =>
    intro st members closes
    refine ih _ (fun other mem => members other (mem_cons_of_mem key mem)) ?_
    rw [connections_closeClient]
    exact closes.close (members key mem_cons_self)

theorem Step.shrinks (step : Step self act next)
    (noEnvelope : ∀ envelope now random, act ≠ .envelope envelope now random) :
    self.connections.Shrinks next.connections := by
  cases step with
  | envelope accepts envelope now random => exact (noEnvelope envelope now random rfl).elim
  | taskEnd task runs =>
    refine ⟨fun other mem => ?_, fun _ => .inl rfl, le_rfl⟩
    rcases mem_append.mp mem with runsStill | ends
    · exact mem_append_left _ (mem_of_mem_erase runsStill)
    rcases mem_append.mp ends with endedBefore | endsNow
    · exact mem_append_right _ endedBefore
    · exact mem_append_left _ (mem_singleton.mp endsNow ▸ runs)
  | taskPanic task runs =>
    refine ⟨fun other mem => ?_, fun _ => .inl rfl, le_rfl⟩
    rcases mem_append.mp mem with runsStill | ends
    · exact mem_append_left _ (mem_of_mem_erase runsStill)
    · exact mem_append_right _ ends
  | completion accepts task ended =>
    rw [connections_closeClient]
    refine Connections.Shrinks.trans ?_ (Connections.shrinks_close _ task.key)
    refine ⟨fun other mem => ?_, fun _ => .inl rfl, le_rfl⟩
    rcases mem_append.mp mem with runs | ends
    · exact mem_append_left _ runs
    · exact mem_append_right _ (mem_of_mem_erase ends)
  | sweep accepts now keys expired => exact (closeClients_closes accepts keys self).shrinks
  | shutdown accepts keys all =>
    have closes := (foldl_closeClient_closes accepts keys self).shrinks
    exact ⟨fun task mem => by simp [Connections.tasks, connections] at mem,
      closes.current, closes.next⟩

/-- Apart from an envelope, a step only closes connections. -/
theorem Step.handled_or_shrinks (step : Step self act next) :
    (∃ envelope now random, act = .envelope envelope now random ∧ Handled envelope
      (self.envelopeKey envelope random) self.connections next.connections) ∨
      self.connections.Shrinks next.connections := by
  by_cases envelope : ∃ envelope now random, act = .envelope envelope now random
  · obtain ⟨envelope, now, random, rfl⟩ := envelope
    cases step with
    | envelope accepts =>
      exact .inl ⟨_, now, _, rfl, handleMessage_handled accepts now random envelope self⟩
  · exact .inr (step.shrinks fun got now random eq => envelope ⟨got, now, random, eq⟩)

theorem Step.settled (step : Step self act next) (orderly : self.Orderly act)
    (settled : Settled self.connections) : Settled next.connections := by
  obtain ⟨envelope, now, random, rfl, handled⟩ | shrinks := step.handled_or_shrinks
  · exact handled.settled settled orderly
  · exact settled.of_shrinks shrinks

theorem Initialized.current_of_ne (effect : before.Initialized key after)
    (ne : other ≠ key) : after.current other = before.current other := by
  cases effect with
  | closed => rw [Connections.current_close, if_neg ne]
  | refused => exact (Connections.current_close before key other).trans (if_neg ne)
  | started =>
    rw [Connections.current_start, if_neg ne, Connections.current_close, if_neg ne]
  | ended =>
    rw [Connections.current_close, if_neg ne, Connections.current_start,
      if_neg ne, Connections.current_close, if_neg ne]

theorem Handled.mayClose (handled : Handled envelope key before after)
    (changed : after.current other ≠ before.current other) :
    key = other ∧ (envelope.event = .clientClosed ∨ envelope.isInitialize) := by
  cases handled with
  | kept => exact (changed rfl).elim
  | closed asked =>
    refine ⟨?_, .inl asked⟩
    by_contra different
    exact changed (by rw [Connections.current_close, if_neg fun eq => different eq.symm])
  | initialized asked named effect =>
    refine ⟨?_, .inr asked⟩
    by_contra different
    exact changed (Initialized.current_of_ne effect fun eq => different eq.symm)

theorem Step.closesProperly (step : Step self act next)
    (settled : Settled self.connections) : self.ClosesProperly act next := by
  intro key client open_ closed
  have here : self.connection key = some client.connectionId := by
    rw [connection, open_, map_some]
  rw [← here] at closed
  cases step with
  | envelope accepts envelope now random =>
    exact (handleMessage_handled accepts now random envelope self).mayClose closed
  | taskEnd | taskPanic => exact closed rfl
  | completion accepts task ended =>
    have own : task.key = key := by
      by_contra different
      refine closed (congrFun (congrArg Connections.current
        (connections_closeClient accepts task.key _)) key |>.trans ?_)
      rw [Connections.current_close, if_neg fun eq => different eq.symm]
      rfl
    subst own
    exact ⟨rfl, (settled task (mem_append_right _ ended) _ here).symm⟩
  | sweep accepts now keys expired =>
    rcases (closeClients_closes accepts keys self).current key with eq | ⟨visited, -⟩
    · exact (closed eq).elim
    obtain ⟨hit, known, idle⟩ := (expired key).mp visited
    obtain rfl := some.inj (open_.symm.trans known)
    exact idle
  | shutdown accepts keys all => trivial

theorem Reachable.settled (reached : Reachable Orderly self) : Settled self.connections := by
  induction reached with
  | start =>
    intro task mem
    simp [Connections.tasks, connections] at mem
  | step _ met step ih => exact step.settled met ih

def Numbered (connections : Connections) : Prop :=
  ∀ task ∈ connections.tasks, task.connectionId < connections.next ∧ task.key.2 ≠ []

theorem Numbered.of_shrinks (numbered : Numbered before) (shrinks : before.Shrinks after) :
    Numbered after := by
  intro task mem
  obtain ⟨earlier, named⟩ := numbered task (shrinks.tasks task mem)
  exact ⟨earlier.trans_le shrinks.next, named⟩

theorem Numbered.start (numbered : Numbered before) (named : key.2 ≠ []) :
    Numbered (before.start key) := by
  intro task mem
  rcases mem_tasks_start.mp mem with old | rfl
  · obtain ⟨earlier, oldNamed⟩ := numbered task old
    exact ⟨Nat.lt_succ_of_lt earlier, oldNamed⟩
  · exact ⟨Nat.lt_succ_self _, named⟩

theorem Numbered.handled (numbered : Numbered before)
    (handled : Handled envelope key before after) : Numbered after := by
  cases handled with
  | kept | closed => exact numbered
  | initialized asked named effect =>
    have closed : Numbered (before.close key) := numbered
    cases effect with
    | closed => exact closed
    | refused => exact closed.of_shrinks ⟨fun _ mem => mem, fun _ => .inl rfl, Nat.le_succ _⟩
    | started | ended => exact closed.start named

theorem Step.numbered (step : Step self act next) (numbered : Numbered self.connections) :
    Numbered next.connections := by
  obtain ⟨_, _, _, -, handled⟩ | shrinks := step.handled_or_shrinks
  · exact numbered.handled handled
  · exact numbered.of_shrinks shrinks

theorem Reachable.numbered {meets : ClientTracker P → Action P → Prop}
    (reached : Reachable meets self) : Numbered self.connections := by
  induction reached with
  | start =>
    intro task mem
    simp [Connections.tasks, connections] at mem
  | step _ _ step ih => exact step.numbered ih

theorem completion_not_closesProperly (step : Step self (.completion task) next) {id : Nat}
    (open_ : self.connection task.key = some id) (ne : task.connectionId ≠ id) :
    ¬ self.ClosesProperly (.completion task) next := by
  intro properly
  obtain ⟨client, hit, rfl⟩ := map_eq_some_iff.mp open_
  cases step with
  | completion accepts _ ended =>
    refine ne (properly task.key client hit ?_).2
    have closed := congrFun (congrArg Connections.current
      (connections_closeClient accepts task.key
        { self with ended := self.ended.erase task })) task.key
    rw [Connections.current_close, if_pos rfl] at closed
    exact fun eq => some_ne_none _ (eq.symm.trans closed)

theorem connections_handleMessage_initialize (now : Nat)
    (starts : envelope.isInitialize) (named : (self.envelopeKey envelope random).2 ≠ [])
    (accepting : ¬ Refuses accepts) :
    (finalState (handleMessage accepts now random envelope self)).connections =
      (self.connections.close (self.envelopeKey envelope random)).start
        (self.envelopeKey envelope random) := by
  have opens : Triple (· = self) (handleMessage accepts now random envelope)
      (fun _ => Has ((self.connections.close (self.envelopeKey envelope random)).start
        (self.envelopeKey envelope random)))
      fun _ => Has ((self.connections.close (self.envelopeKey envelope random)).start
        (self.envelopeKey envelope random)) := by
    refine read fun st eq => write ?_
    subst eq
    rw [if_neg named]
    exact (handleEvent_opening now starts).consequence (fun after eq => eq ▸ rfl)
      (fun _ _ opened => opened) fun _ _ failed => (accepting failed.2).elim
  exact opens.finalState rfl

theorem exists_completion (mem : task ∈ self.tasks) : ∃ waiting closed : ClientTracker P,
      (waiting = self ∨ Step self (.taskEnd task) waiting) ∧
        Step waiting (.completion task) closed ∧ waiting.connection = self.connection := by
  rcases mem_append.mp mem with runs | ended
  · exact ⟨_, _, .inr (.taskEnd self task runs),
      .completion _ (fun _ => true) task (mem_append_right _ (mem_singleton_self task)),
      rfl⟩
  · exact ⟨self, _, .inl rfl, .completion self (fun _ => true) task ended, rfl⟩

theorem exists_improper_close (numbered : Numbered self.connections) {now : Nat}
    (early : ¬ self.Orderly (.envelope envelope now random)) :
    ∃ (task : OutboundTask) (opened waiting closed : ClientTracker P), task ∈ self.tasks ∧
      Step self (.envelope envelope now random) opened ∧
      (waiting = opened ∨ Step opened (.taskEnd task) waiting) ∧
      Step waiting (.completion task) closed ∧
      ¬ waiting.ClosesProperly (.completion task) closed := by
  obtain ⟨starts, task, mem, eq⟩ :
      envelope.isInitialize ∧ ∃ task ∈ self.tasks, task.key = self.envelopeKey envelope random := by
    simpa [Orderly] using early
  obtain ⟨earlier, named⟩ := numbered task mem
  have opens := connections_handleMessage_initialize (fun _ => true) now starts (eq ▸ named)
    (by simp [Refuses])
  rw [← eq] at opens
  have has : task ∈
      (finalState (handleMessage (fun _ => true) now random envelope self)).tasks := by
    change task ∈ Connections.tasks (connections _)
    rw [opens, mem_tasks_start]
    exact .inl mem
  obtain ⟨waiting, closed, waits, completes, still⟩ := exists_completion has
  refine ⟨task, _, waiting, closed, mem, .envelope self (fun _ => true) envelope now random,
    waits, completes, completion_not_closesProperly completes ?_ earlier.ne⟩
  rw [still]
  have cur := congrFun (congrArg Connections.current opens) task.key
  rwa [Connections.current_start, if_pos rfl] at cur

/-- If no stream starts while a task of its key runs, connections close for their own reasons. -/
theorem reachable_closesProperly : (∀ self : ClientTracker P, Reachable Orderly self →
      ∀ act next, self.Orderly act → Step self act next → self.ClosesProperly act next) ∧
    ∀ self : ClientTracker P, Reachable (fun _ _ => True) self →
      ∀ envelope now random, ¬ self.Orderly (.envelope envelope now random) →
        ∃ (task : OutboundTask) (opened waiting closed : ClientTracker P), task ∈ self.tasks ∧
          Step self (.envelope envelope now random) opened ∧
          (waiting = opened ∨ Step opened (.taskEnd task) waiting) ∧
          Step waiting (.completion task) closed ∧
          ¬ waiting.ClosesProperly (.completion task) closed :=
  ⟨fun _ reached _ _ _ step => step.closesProperly reached.settled,
    fun _ reached _ _ _ early => exists_improper_close reached.numbered early⟩

def initializeEnvelope : ClientEnvelope Unit where
  event := .clientMessage (.request "initialize" ())
  clientId := "phone"
  streamId := some "main"
  seqId := some 0

def afterReinitialize : ClientTracker Unit :=
  let once := finalState (handleMessage (fun _ => true) 0 [] initializeEnvelope {})
  let twice := finalState (handleMessage (fun _ => true) 1 [] initializeEnvelope once)
  let old : OutboundTask := ⟨("phone", "main"), 0⟩
  { twice with running := twice.running.erase old, ended := twice.ended ++ [old] }

/-- The completion of the first connection's task closes the second connection. -/
theorem completion_closes_successor : Reachable (fun _ _ => True) afterReinitialize ∧
      ∃ next, Step afterReinitialize (.completion ⟨("phone", "main"), 0⟩) next ∧
        afterReinitialize.connection ("phone", "main") = some 1 ∧
        next.connection ("phone", "main") = none ∧
        ¬ afterReinitialize.ClosesProperly (.completion ⟨("phone", "main"), 0⟩) next := by
  have step : Step afterReinitialize (.completion ⟨("phone", "main"), 0⟩) _ :=
    .completion _ (fun _ => true) _ (by decide +kernel)
  refine ⟨?_, _, step, by decide +kernel, by decide +kernel, ?_⟩
  · refine .step (.step (.step .start trivial
    (.envelope {} (fun _ => true) initializeEnvelope 0 []))
      trivial (.envelope _ (fun _ => true) initializeEnvelope 1 [])) trivial (.taskEnd _ _ ?_)
    decide +kernel
  · exact completion_not_closesProperly step (show _ = some 1 by decide +kernel) (by decide)

/-- A connection whose own task ends is closed properly, and an initialize before that is early. -/
theorem reachable_closesProperly_once :
    let opened := finalState (handleMessage (fun _ => true) 0 [] initializeEnvelope {})
    let task : OutboundTask := ⟨("phone", "main"), 0⟩
    let waiting := { opened with running := opened.running.erase task
                                 ended := opened.ended ++ [task] }
    waiting.ClosesProperly (.completion task)
        (finalState (closeClient (fun _ => true) task.key
          { waiting with ended := waiting.ended.erase task })) ∧
      ∃ (late : OutboundTask) (reopened waiting closed : ClientTracker Unit), late ∈ opened.tasks ∧
        Step opened (.envelope initializeEnvelope 1 []) reopened ∧
        (waiting = reopened ∨ Step reopened (.taskEnd late) waiting) ∧
        Step waiting (.completion late) closed ∧
        ¬ waiting.ClosesProperly (.completion late) closed := by
  intro opened task waiting
  have initialized : Step {} (.envelope initializeEnvelope 0 []) opened :=
    .envelope {} (fun _ => true) initializeEnvelope 0 []
  have ended : Step opened (.taskEnd task) waiting := .taskEnd opened task (by decide +kernel)
  constructor
  · refine reachable_closesProperly.1 waiting ?_ _ _ trivial
      (.completion waiting (fun _ => true) task (by decide +kernel))
    have fst : ({} : ClientTracker Unit).Orderly (.envelope initializeEnvelope 0 []) :=
      fun _ other mem => by simp [tasks] at mem
    have snd : opened.Orderly (.taskEnd task) := trivial
    exact .step (.step .start fst initialized) snd ended
  refine reachable_closesProperly.2 opened (.step .start trivial initialized)
    initializeEnvelope 1 [] ?_
  intro orderly
  exact orderly (by decide) task (by decide +kernel) (by decide +kernel)

end ClientTracker
end Codex.RemoteControl
