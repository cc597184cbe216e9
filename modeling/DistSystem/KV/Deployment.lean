import DistSystem.KV.Channels
import DistSystem.KV.Service
import DistSystem.Raft.Shared

/-!
# The service as its processes

Clerks, the network and a process for each server, with all its goroutines; beside those that meet
on channels it has the ticker, which fills `tickc`, and one for each message, which encodes it. A
message between the servers is in flight until the event loop of the one it is for takes it, and the
answer to a request of a Clerk is in flight from when its handler returns. A process can be gone
whatever its goroutines are at, and a panic ends it too; a restart is a new `StartKVServer` on what
Raft had persisted. That a process is gone within an iteration of its event loop, before that has
persisted, is left out.
-/

namespace DistSystem.KV

variable {n : ℕ}

/-! ## What a process sends -/

namespace Process

variable (s : Process n)

def outbox : Go n Op (Raft n Op × List (Message n Op)) → List (Message n Op)
  | .ok (_, msgs) => msgs
  | .error _ => []

/-- The messages to other servers in an event. -/
def sent : Event n → List (Message n Op)
  | .tick rnd => outbox (s.raft.tick rnd)
  | .recv rnd m => outbox (s.raft.step rnd m)
  | .command h =>
    match s.handlers[h]? with
    | some x => outbox ((s.raft.handleStart (some x.args.entry)).map fun y => (y.1, y.2.1))
    | none => []
  | _ => []

/-- The handler that goes on in an event after which it may have returned. -/
def caller : Event n → Option ℕ
  | .start h => some h
  | .receive h => some h
  | .timeout h => some h
  | .getUnlock h => some h
  | .done =>
    match s.loop with
    | .answering h _ => some h
    | .selecting => none
  | _ => none

/-- What is taken from `tickc`. -/
def Event.ticks : Event n → ℕ
  | .tick _ => 1
  | _ => 0

/-- What comes to a process from outside. -/
def Event.external : Event n → Bool
  | .recv _ _ => true
  | .spawn _ => true
  | _ => false

end Process

/-! ## Hosts -/

/-- What a handler is for: the call of a Clerk, and the number of its request among all that a
server has taken. -/
structure Task where
  id : ℕ
  call : ℕ
  attempt : ℕ
  deriving DecidableEq

structure Host (n : ℕ) where
  process : Process n
  up : Bool
  incarnation : ℕ
  /-- One for each handler. -/
  tasks : List Task
  memory : Memory Op
  /-- What is in `tickc`. -/
  ticks : ℕ

namespace Host

variable (x : Host n)

def step (e : Process.Event n) : Option (Process n) := if x.up then x.process.step e else none

/-- The answer that leaves with an event, after which the process is `s'`. -/
def answers (e : Process.Event n) (s' : Process n) : List Response :=
  match x.process.caller e with
  | none => []
  | some h =>
    match s'.handlers[h]?, x.tasks[h]? with
    | some ⟨_, .returned reply⟩, some task => [⟨task.call, task.attempt, reply⟩]
    | _, _ => []

/-- The event cannot be one of the goroutines: it needs something from outside, or a tick. -/
def blocked (e : Process.Event n) : Bool := e.external || x.ticks < e.ticks

/-- The process has gone on to `y`. -/
def goesOn (e : Process.Event n) (y : Process n) : Host n :=
  { x with process := y, memory := x.memory.append y.raft.log, ticks := x.ticks - e.ticks }

/-- The messages that leave with an event, after which the process is `y`. -/
def parcels (e : Process.Event n) (y : Process n) (incarnation : ℕ) : List (Parcel n Op) :=
  (x.process.sent e).map fun msg => ⟨⟨msg, incarnation⟩, msg.slice (x.goesOn e y).memory⟩

/-- `Tick`: `tickc` has room for ten. -/
def ring : Host n :=
  if x.ticks < 10 then { x with ticks := x.ticks + 1 }
  else { x with process := x.process.fail "A tick missed to fire. Node blocks too long!" }

/-- The process runs. -/
def Alive : Prop := x.up = true ∧ x.process.crash = none

instance : Decidable x.Alive := inferInstanceAs (Decidable (_ ∧ _))

end Host

/-! ## All together -/

structure Deployment (n : ℕ) where
  hosts : Fin n → Host n
  net : List (Parcel n Op)
  clerks : ℕ → Clerk n
  calls : List Call
  requests : List (Request n)
  responses : List Response
  /-- How many requests servers have taken. -/
  dispatched : ℕ

/-- What Clerks do, and the network between them and the servers, but for handing a request over. -/
def Action.AtClerk : Action n → Bool
  | .invoke _ _ => true
  | .call _ => true
  | .fail _ => true
  | .loseRequest _ => true
  | .reply _ => true
  | .loseResponse _ => true
  | _ => false

namespace Deployment

inductive Event (n : ℕ) where
  | client (a : Action n)
  /-- The `k`-th request reaches its server, which starts a handler. -/
  | dispatch (k : ℕ)
  /-- An event of the process of `p` that needs nothing from outside. -/
  | run (p : Fin n) (e : Process.Event n)
  /-- The ticker of `p` fires. -/
  | ring (p : Fin n)
  /-- The `k`-th message is encoded. -/
  | encode (k : ℕ)
  /-- The event loop takes the `k`-th message in flight. -/
  | deliver (k : ℕ) (rnd : ℕ)
  | drop (k : ℕ)
  | crash (p : Fin n)
  | restart (p : Fin n) (rnd : ℕ)

variable (s : Deployment n)

def setHost (p : Fin n) (x : Host n) : Deployment n :=
  { s with hosts := Function.update s.hosts p x }

/-- The side of the Clerks. -/
def front : Service n :=
  ⟨fun _ => ⟨.startKVServer, .running, 0, []⟩, s.clerks, s.calls, s.requests, [], s.responses⟩

/-- An event of a Clerk does what it does in the service. -/
def client (a : Action n) : Deployment n :=
  let v := s.front.exec a
  { s with
    clerks := v.clerks, calls := v.calls, requests := v.requests, responses := v.responses }

/-- The message can be handed to the process it is for. -/
def Receives (pk : Packet n Op) : Prop :=
  pk.msg.isResp = true → pk.incarnation = (s.hosts pk.msg.dst).incarnation

instance (pk : Packet n Op) : Decidable (s.Receives pk) := inferInstanceAs (Decidable (_ → _))

/-- The process that built the message is still there. -/
def Sending (pk : Packet n Op) : Prop :=
  (s.hosts pk.msg.src).Alive ∧ (s.hosts pk.msg.src).incarnation = pk.incarnation

instance (pk : Packet n Op) : Decidable (s.Sending pk) := inferInstanceAs (Decidable (_ ∧ _))

/-- The process of `p` has gone on to `y`. -/
def ran (p : Fin n) (e : Process.Event n) (y : Process n) : Deployment n :=
  let x := s.hosts p
  { s.setHost p (x.goesOn e y) with
    net := s.net ++ x.parcels e y x.incarnation
    responses := s.responses ++ x.answers e y }

/-- The state after an event; one that is not possible changes nothing. -/
def exec : Event n → Deployment n
  | .client a => if a.AtClerk then s.client a else s
  | .dispatch k =>
    match s.requests[k]? with
    | none => s
    | some rq =>
      let x := s.hosts rq.server
      match x.step (.spawn rq.args) with
      | none => s
      | some y =>
        { s.setHost rq.server { x with
            process := y, tasks := x.tasks ++ [⟨s.dispatched, rq.call, rq.attempt⟩] } with
          requests := s.requests.eraseIdx k, dispatched := s.dispatched + 1 }
  | .run p e =>
    if (s.hosts p).blocked e then s
    else match (s.hosts p).step e with
      | none => s
      | some y => s.ran p e y
  | .ring p => if (s.hosts p).Alive then s.setHost p (s.hosts p).ring else s
  | .encode k =>
    match s.net[k]? with
    | some ⟨pk, some slice⟩ =>
      if s.Sending pk then
        let msg := pk.msg.encode (s.hosts pk.msg.src).memory slice
        { s with net := s.net.set k ⟨{ pk with msg := msg }, none⟩ }
      else s
    | _ => s
  | .deliver k rnd =>
    match s.net[k]? with
    | some ⟨pk, none⟩ =>
      let x := s.hosts pk.msg.dst
      if s.Receives pk then
        match x.step (.recv rnd pk.msg) with
        | none => s
        | some y =>
          { s.setHost pk.msg.dst (x.goesOn (.recv rnd pk.msg) y) with
            net := s.net.eraseIdx k ++ x.parcels (.recv rnd pk.msg) y pk.incarnation }
      else s
    | _ => s
  | .drop k => { s with net := s.net.eraseIdx k }
  | .crash p => s.setHost p { s.hosts p with up := false }
  | .restart p rnd =>
    let x := s.hosts p
    let y := Process.init p x.process.raft.persister rnd
    if x.Alive then s
    else s.setHost p ⟨y, true, x.incarnation + 1, [], x.memory.alloc y.raft.log, 0⟩

end Deployment

/-- The servers and ids of the Clerks, the draws of the first `Make` of each server, the room in the
arrays of its log, and the events in order. -/
structure Plan (n : ℕ) where
  servers : ℕ → List (Fin n)
  id : ℕ → ℕ
  rnd : Fin n → ℕ
  spare : Fin n → ℕ → ℕ
  act : ℕ → Deployment.Event n

namespace Plan

variable (π : Plan n)

def run : ℕ → Deployment n
  | 0 =>
    let y p := Process.init p none (π.rnd p)
    ⟨fun p => ⟨y p, true, 0, [], (Memory.empty (π.spare p)).alloc (y p).raft.log, 0⟩, [],
      fun c => ⟨π.servers c, π.id c, 0⟩, [], [], [], 0⟩
  | t + 1 => (run t).exec (π.act t)

end Plan

/-! ## What a run may be assumed to do -/

namespace Deployment

/-- The Clerk on which a call begins in this event. -/
def Event.clerk : Event n → Option ℕ
  | .client a => a.clerk
  | _ => none

variable (s : Deployment n)

/-- The server at which a `Get` is in its critical section in this event. -/
def reading : Event n → Option (Fin n × GetArgs)
  | .run p (.get h) =>
    match (s.hosts p).process.handlers[h]? with
    | some ⟨_, .getting args⟩ => some (p, args)
    | _ => none
  | _ => none

/-- A call begins only when the earlier calls on its Clerk have returned. -/
def OneAtATime (e : Event n) : Prop :=
  ∀ c ∈ e.clerk, ∀ call ∈ s.calls, call.clerk = c → call.returned

instance (e : Event n) : Decidable (s.OneAtATime e) :=
  inferInstanceAs (Decidable (∀ c ∈ e.clerk, ∀ call ∈ s.calls, _ → _))

/-- `Get` does not lower `ack`. -/
def KeepsAck (e : Event n) : Prop :=
  ∀ x ∈ s.reading e, ∀ v ∈ (s.hosts x.1).process.kv.ack x.2.id, v ≤ x.2.reqId

instance (e : Event n) : Decidable (s.KeepsAck e) :=
  inferInstanceAs (Decidable (∀ x ∈ s.reading e, ∀ v ∈ _, v ≤ x.2.reqId))

/-- A request that is encoded in this event still has the entries it was built with. -/
def Intact : Event n → Prop
  | .encode k => ∀ pc ∈ s.net[k]?, ∀ slice ∈ pc.slice, s.Sending pc.packet →
      pc.packet.msg.encode (s.hosts pc.packet.msg.src).memory slice = pc.packet.msg
  | _ => True

instance : (e : Event n) → Decidable (s.Intact e)
  | .encode k => inferInstanceAs (Decidable (∀ pc ∈ s.net[k]?, ∀ slice ∈ pc.slice, _ → _ = _))
  | .client _ | .dispatch _ | .run _ _ | .ring _ | .deliver _ _ | .drop _ | .crash _
  | .restart _ _ => inferInstanceAs (Decidable True)

end Deployment

/-- Every event of the run meets `P`. -/
def Plan.Always (π : Plan n) (P : Deployment n → Deployment.Event n → Prop) : Prop :=
  ∀ t, P (π.run t) (π.act t)

end DistSystem.KV
