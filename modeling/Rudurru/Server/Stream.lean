import Rudurru.Server.Handoff

/-!
# Rudurru.Server.Stream

Watch streams (`Watch::watch` in `src/server/watch.rs`).

Each stream has a request loop, which reads one request at a time, and a forwarder for each watcher
created on it, which moves events from the watcher's channel to the stream. Loops and forwarders
run beside each other and beside the server: every point at which one of them takes the store's
lock, receives from a channel or puts a response on its stream is an event here. A send to the
stream waits while 4096 responses are unread and fails once the client is gone.

A forwarder is started for a refused create as well. Its channel has no sender then, so it ends
before it does anything, and is left out.
-/

namespace Rudurru

/-! ### Responses -/

/-- `mvccpb.Event`. -/
structure EventMessage where
  type : EventType
  kv : Bytes
  prevKv : Bytes
  deriving DecidableEq, Repr

/-- `event_to_proto`. -/
def eventToProto (event : WatchEvent) : EventMessage :=
  { type := event.eventType, kv := event.kvBytes, prevKv := event.prevKvBytes }

/-- What is put on a stream. -/
inductive Message
  /-- The answer to a create. -/
  | reply (resp : WatchResponse)
  /-- An event of a watcher. -/
  | event (watchId : Int64) (event : WatchEvent)
  /-- The answer to a cancel request. -/
  | canceled (watchId : Int64) (revision : UInt64)
  /-- The answer to a progress request. -/
  | progress (revision : UInt64)
  /-- The periodic progress of a watcher. -/
  | tick (watchId : Int64) (revision : UInt64)
  deriving DecidableEq, Repr

/-- A response with nothing but its header. -/
def emptyResponse (revision : UInt64) (watchId : Int64) : WatchResponse :=
  { header := { revision := revision.toInt64 }, watchId, created := false, canceled := false,
    compactRevision := 0, cancelReason := "" }

/-- `make_progress_response`. -/
def makeProgressResponse (revision : UInt64) : WatchResponse := emptyResponse revision (-1)

/-- The response on the wire, without its events. -/
def Message.response : Message → WatchResponse
  | .reply resp => resp
  | .event watchId e => emptyResponse e.revision watchId
  | .canceled watchId revision => { emptyResponse revision watchId with canceled := true }
  | .progress revision => makeProgressResponse revision
  | .tick watchId revision => emptyResponse revision watchId

/-- The events of the response. -/
def Message.events : Message → List EventMessage
  | .event _ e => [eventToProto e]
  | _ => []

/-! ### Streams -/

/-- What a forwarder is doing. -/
inductive ForwarderState
  /-- Waiting for an event or a tick. -/
  | idle
  /-- In the tick branch, before it reads the revision. -/
  | ticked
  | sending (msg : Message)
  | ended
  deriving DecidableEq, Repr

/-- A forwarder: the create it belongs to, and how many events it has received. -/
structure Forwarder where
  create : Nat
  watchId : Int64
  progressNotify : Bool
  taken : Nat := 0
  state : ForwarderState := .idle
  deriving DecidableEq, Repr

/-- What the request loop is doing. -/
inductive LoopState
  | reading
  /-- Waiting for the answer to a create. -/
  | waiting (create : Nat) (watchId : Int64) (progressNotify : Bool)
  /-- The watcher is canceled, the revision of the response not read. -/
  | canceling (watchId : Int64)
  /-- Sending a response, and then starting a forwarder. -/
  | sending (msg : Message) (spawn : Option Forwarder)
  | ended
  deriving DecidableEq, Repr

/-- A watch stream. -/
structure Stream where
  loop : LoopState := .reading
  forwarders : List Forwarder := []
  /-- What was put on the stream. -/
  out : List Message := []
  /-- How much of it the client has read. -/
  received : Nat := 0
  /-- Is the client gone? -/
  closed : Bool := false
  /-- History: the creates read from it. -/
  creates : List Nat := []

/-- Is there room for a response? -/
def Stream.hasRoom (s : Stream) : Bool := s.out.length < s.received + 4096

/-- What can happen on a stream, beside the requests that change the store. -/
inductive StreamEvent
  | progressRequest
  /-- The client ends its requests. -/
  | endRequests
  /-- The answer to a create arrives. -/
  | replied
  /-- The loop reads the revision for a canceled response. -/
  | readRevision
  /-- The send of the loop ends. -/
  | send
  /-- A forwarder receives an event. -/
  | recv (j : Nat)
  /-- Its channel is closed and empty. -/
  | recvNone (j : Nat)
  | tick (j : Nat)
  /-- It reads the revision for a tick. -/
  | readTick (j : Nat)
  /-- Its send succeeds. -/
  | forward (j : Nat)
  /-- The client reads a response. -/
  | receive
  | disconnect

/-! ### The server with its streams -/

/-- The server, its watch streams, and what was sent on the event channel of each create. -/
structure Hub where
  handoff : Handoff
  channels : Nat → List WatchEvent
  streams : Nat → Stream

/-- What can happen next. -/
inductive HubEvent
  /-- An event of the server or of the flush. -/
  | handoff (ev : HandoffEvent)
  | createRequest (i : Nat) (req : WatchCreateRequest)
  | cancelRequest (i : Nat) (watchId : Int64)
  /-- The send of a forwarder fails. -/
  | drop (i j : Nat)
  | stream (i : Nat) (ev : StreamEvent)

/-- A create on a stream that nothing interferes with, up to its answer; phase 1 reads `n` bytes. -/
def undisturbedCreate (i : Nat) (req : WatchCreateRequest) (n : Nat) : List HubEvent :=
  [.createRequest i req, .handoff (.checkpoint 1), .handoff .compactRev, .handoff .admission,
    .handoff .screen, .handoff .openWal, .handoff (.phase1 n), .handoff .phase2, .handoff .reply,
    .stream i .replied, .stream i .send]

/-- Does the event come from somewhere else than a stream, within one process? -/
def HandoffEvent.besideStreams : HandoffEvent → Bool
  | .server (.request _) | .server .compactA | .server .compactB | .server .compactC
  | .server .compactFails => true
  | .server _ | .create _ => false
  | _ => true

variable [Crates]

/-- Is the sender of the create's event channel still there? -/
def Handoff.isRegistered (h : Handoff) (create : Nat) : Bool :=
  h.watched.any (·.2.create = create)

/-- A forwarder changes. -/
def Stream.setForwarder (s : Stream) (j : Nat) (f : Forwarder) : Stream :=
  { s with forwarders := s.forwarders.set j f }

/-- The next state of a stream. -/
def Stream.step (h : Handoff) (channels : Nat → List WatchEvent) (s : Stream) :
    StreamEvent → Option Stream
  | .progressRequest =>
      match s.loop with
      | .reading => some { s with loop := .sending (.progress h.sys.store.currentRevision) none }
      | _ => none
  | .endRequests =>
      match s.loop with
      | .reading => some { s with loop := .ended }
      | _ => none
  | .replied =>
      match s.loop with
      | .waiting create watchId progressNotify =>
          (h.replies.find? (·.1 = create)).map fun r =>
            { s with
              loop := .sending (.reply r.2)
                (if r.2.created then some { create, watchId, progressNotify } else none) }
      | _ => none
  | .readRevision =>
      match s.loop with
      | .canceling watchId =>
          some { s with loop := .sending (.canceled watchId h.sys.store.currentRevision) none }
      | _ => none
  | .send =>
      match s.loop with
      | .sending msg spawn =>
          if s.closed then some { s with loop := .ended }
          else if s.hasRoom then
            some { s with
              loop := .reading
              out := s.out ++ [msg]
              forwarders := s.forwarders ++ spawn.toList }
          else none
      | _ => none
  | .recv j =>
      s.forwarders[j]?.bind fun f =>
        match f.state, (channels f.create)[f.taken]? with
        | .idle, some event =>
            some (s.setForwarder j
              { f with taken := f.taken + 1, state := .sending (.event f.watchId event) })
        | _, _ => none
  | .recvNone j =>
      s.forwarders[j]?.bind fun f =>
        if f.state = .idle ∧ (channels f.create).length ≤ f.taken ∧ !h.isRegistered f.create then
          some (s.setForwarder j { f with state := .ended })
        else none
  | .tick j =>
      s.forwarders[j]?.bind fun f =>
        -- the select is biased: the channel is looked at first
        if f.state = .idle ∧ (channels f.create).length ≤ f.taken then
          if f.progressNotify then some (s.setForwarder j { f with state := .ticked }) else some s
        else none
  | .readTick j =>
      s.forwarders[j]?.bind fun f =>
        if f.state = .ticked then
          some (s.setForwarder j
            { f with state := .sending (.tick f.watchId h.sys.store.currentRevision) })
        else none
  | .forward j =>
      s.forwarders[j]?.bind fun f =>
        match f.state with
        | .sending msg =>
            if !s.closed && s.hasRoom then
              some { s.setForwarder j { f with state := .idle } with out := s.out ++ [msg] }
            else none
        | _ => none
  | .receive =>
      if s.received < s.out.length then some { s with received := s.received + 1 } else none
  | .disconnect => some { s with closed := true }

namespace Hub

/-- A process that has just started. -/
def start (sys : System) : Hub :=
  { handoff := .start sys, channels := fun _ => [], streams := fun _ => {} }

/-- The server moves: registered watchers have been sent more. -/
def sync (hub : Hub) (h : Handoff) : Hub :=
  { hub with
    handoff := h
    channels := fun n =>
      ((h.watched.find? (·.2.create = n)).map (·.1.sender)).getD (hub.channels n) }

/-- A stream changes. -/
def setStream (hub : Hub) (i : Nat) (s : Stream) : Hub :=
  { hub with streams := Function.update hub.streams i s }

/-- The next state; `none` when the event cannot happen or ends the process. -/
def step (hub : Hub) : HubEvent → Option Hub
  | .handoff ev => if ev.besideStreams then (hub.handoff.step ev).map hub.sync else none
  | .createRequest i req =>
      match (hub.streams i).loop with
      | .reading =>
          let n := hub.handoff.issued.length
          (hub.handoff.step (.create req)).map fun h =>
            (hub.sync h).setStream i
              { hub.streams i with
                loop := .waiting n (hub.handoff.chooseId req) req.progressNotify
                creates := (hub.streams i).creates ++ [n] }
      | _ => none
  | .cancelRequest i watchId =>
      match (hub.streams i).loop with
      | .reading =>
          (hub.handoff.step (.server (.cancelWatch watchId))).map fun h =>
            (hub.sync h).setStream i { hub.streams i with loop := .canceling watchId }
      | _ => none
  | .drop i j =>
      (hub.streams i).forwarders[j]?.bind fun f =>
        match f.state with
        | .sending _ =>
            if (hub.streams i).closed then
              (hub.handoff.step (.server (.cancelWatch f.watchId))).map fun h =>
                (hub.sync h).setStream i
                  ((hub.streams i).setForwarder j { f with state := .ended })
            else none
        | _ => none
  | .stream i ev =>
      ((hub.streams i).step hub.handoff hub.channels ev).map (hub.setStream i)

/-- The state after a sequence of events. -/
def run (hub : Hub) (evs : List HubEvent) : Option Hub := Trace.run step hub evs

/-- The registered watchers that were created on a stream. -/
def watchersOf (hub : Hub) (i : Nat) : List (WatchRegistration × Origin) :=
  hub.handoff.watched.filter (·.2.create ∈ (hub.streams i).creates)

end Hub

end Rudurru
