import DistSystem.LabRPC.Network
import DistSystem.Raft.Shared

/-!
# The servers in one process

`config.go` runs the servers of `raft.go` as goroutines of one process, joined by a network of
`labrpc.go`, and crashes and restarts them. A crashed server cannot be stopped at once: `crash1`
takes its ends and its server off the network, copies what it has persisted, and then tells it to
stop, which it may do at any time or never; `start1` makes a new instance on the copy. So there can
be any number of instances of one server, all of which take steps. As in a cluster, one iteration of
an event loop is one step: that `crash1` makes its copy within one, before the server has persisted,
is left out. The goroutine of a message is at `propc` (`outbox`), in a `Call` (a call of the
network), or at `recvc` with the answer (`inbox`). At `propc` the entries of a request are still in
the array of the log (`Draft`). The goroutine of the tester goes through its functions one access to
the network at a time.
-/

namespace DistSystem

open LabRPC (Network Method Service makeService)
open MapReduce (Str ascii)

variable {n : ℕ} {C : Type}

/-- The exported methods of `*Raft`. -/
def raftMethods : List Method :=
  [⟨ascii "AppendEnties", [], 3, true, 0⟩, ⟨ascii "Detail", [], 1, false, 1⟩,
    ⟨ascii "GetState", [], 1, false, 2⟩, ⟨ascii "Kill", [], 1, false, 0⟩,
    ⟨ascii "RequestVote", [], 3, true, 0⟩, ⟨ascii "SetLogger", [], 2, false, 0⟩,
    ⟨ascii "Start", [], 2, false, 3⟩, ⟨ascii "Step", [], 2, false, 1⟩,
    ⟨ascii "Tick", [], 1, false, 0⟩]

def raftService : Service := makeService (ascii "Raft") raftMethods

/-- `m.svcMeth`; a response is not sent by a `Call`. -/
def Message.svcMeth : Message n C → Str
  | .msgVote _ _ => ascii "Raft.RequestVote"
  | .msgApp _ _ => ascii "Raft.AppendEnties"
  | _ => []

/-- A message, and the instance whose goroutine sends it or gets it as an answer. -/
structure Item (n : ℕ) (C : Type) where
  inst : ℕ
  msg : Message n C

/-- A message that is not encoded yet. If it is a request for entries, it has a slice of the log. -/
structure Draft (n : ℕ) (C : Type) where
  item : Item n C
  slice : Option Slice

/-- What `Call` encodes. -/
def Draft.encode (m : Memory C) (d : Draft n C) : Item n C :=
  match d.slice with
  | none => d.item
  | some slice => { d.item with msg := d.item.msg.encode m slice }

/-- What `Make` returned once, with its ends and the arrays of its log. -/
structure Instance (n : ℕ) (C : Type) where
  raft : Raft n C
  ends : Fin n → ℕ
  memory : Memory C

/-- What the tester does next. -/
inductive Op (n : ℕ) where
  | setConnected (i : Fin n) (yes : Bool)
  /-- `Enable` of the end of `i` to `j`. -/
  | enable (i j : Fin n) (enabled : Bool)
  | deleteServer (i : Fin n)
  /-- Copies the persister, and calls `Kill`. -/
  | kill (i : Fin n)
  /-- Draws the names of the ends of `i`. -/
  | name (i : Fin n) (endnames : Fin n → ℕ)
  | makeEnd (i j : Fin n)
  /-- `Connect` of the end of `i` to `j`. -/
  | connect (i j : Fin n)
  | make (i : Fin n) (rnd : ℕ) (spare : ℕ → ℕ)
  /-- `MakeService`, `MakeServer`, `AddService` and `AddServer`. -/
  | addServer (i : Fin n)
  | reliable (yes : Bool)
  | longReordering (yes : Bool)

/-- A function of `config.go`, with what it draws. -/
inductive Command (n : ℕ) where
  | connect (i : Fin n)
  | disconnect (i : Fin n)
  | crash1 (i : Fin n)
  | start1 (i : Fin n) (endnames : Fin n → ℕ) (rnd : ℕ) (spare : ℕ → ℕ)
  | setunreliable (unrel : Bool)
  | setlongreordering (longrel : Bool)

structure Config (n : ℕ) (C : Type) where
  net : Network ℕ (Fin n) (Item n C) (Message n C)
  /-- By server object, the instance whose methods it calls. -/
  receivers : List ℕ
  instances : List (Instance n C)
  outbox : List (Draft n C)
  inbox : List (Item n C)
  rafts : Fin n → Option ℕ
  connected : Fin n → Bool
  /-- What a persister holds that no instance writes to. -/
  saved : Fin n → Option (RaftStateData n C)
  endnames : Fin n → Option (Fin n → ℕ)
  /-- What is left of the function that the tester is in. -/
  script : List (Op n)
  panicked : Option String

namespace Config

inductive Event (n : ℕ) (C : Type) where
  /-- The tester calls a function. -/
  | command (cmd : Command n)
  /-- The tester goes on. -/
  | operate
  | tick (q : ℕ) (rnd : ℕ)
  | start (q : ℕ) (command : Option C)
  | stateMachine (q : ℕ)
  /-- `serveChannels` takes a message of the outbox, and `Call` encodes it. -/
  | call (g : ℕ)
  | enter (k : ℕ)
  | abort (k : ℕ)
  /-- `ProcessReq` goes on with a call. -/
  | proceed (k : ℕ) (x : LabRPC.Step (Message n C))
  /-- The event loop takes the request of a handler, which returns the answer. -/
  | handle (k : ℕ) (rnd : ℕ)
  /-- A `Call` returns. -/
  | reply (k : ℕ)
  /-- The event loop takes an answer of the inbox. -/
  | respond (g : ℕ) (rnd : ℕ)

def init : Config n C where
  net := .makeNetwork
  receivers := []
  instances := []
  outbox := []
  inbox := []
  rafts := fun _ => none
  connected := fun _ => false
  saved := fun _ => none
  endnames := fun _ => none
  script := []
  panicked := none

variable (s : Config n C)

/-! ## The tester -/

def connect (i : Fin n) : List (Op n) :=
  let peers := (List.finRange n).filter fun j => j = i ∨ s.connected j
  .setConnected i true :: peers.map (.enable i · true) ++ peers.map (.enable · i true)

def disconnect (i : Fin n) : List (Op n) :=
  let out := if (s.endnames i).isSome then (List.finRange n).map (Op.enable i · false) else []
  let known := (List.finRange n).filter fun j => (s.endnames j).isSome
  .setConnected i false :: out ++ known.map (.enable · i false)

def crash1 (i : Fin n) : List (Op n) := s.disconnect i ++ [.deleteServer i, .kill i]

def start1 (i : Fin n) (endnames : Fin n → ℕ) (rnd : ℕ) (spare : ℕ → ℕ) : List (Op n) :=
  s.crash1 i ++ .name i endnames ::
    (List.finRange n).flatMap (fun j => [.makeEnd i j, .connect i j]) ++
      [.make i rnd spare, .addServer i]

def program : Command n → List (Op n)
  | .connect i => s.connect i
  | .disconnect i => s.disconnect i
  | .crash1 i => s.crash1 i
  | .start1 i endnames rnd spare => s.start1 i endnames rnd spare
  | .setunreliable unrel => [.reliable !unrel]
  | .setlongreordering longrel => [.longReordering longrel]

/-- An access to the network. -/
def onNet (e : LabRPC.Event ℕ (Fin n) (Item n C) (Message n C)) : Option (Config n C) :=
  (Network.step e s.net).map fun net => { s with net := net }

def panic (msg : String) : Config n C := { s with panicked := some msg }

/-- What an operation of the tester does. -/
def operate : Op n → Option (Config n C)
  | .setConnected i yes => some { s with connected := Function.update s.connected i yes }
  | .enable i j enabled =>
    match s.endnames i with
    | none => some (s.panic "runtime error: index out of range")
    | some endnames => s.onNet (.enable (endnames j) enabled)
  | .deleteServer i => s.onNet (.deleteServer i)
  | .kill i =>
    match (s.rafts i).bind fun q => s.instances[q]? with
    | none => some s
    | some x => some { s with
        saved := Function.update s.saved i x.raft.persister
        rafts := Function.update s.rafts i none }
  | .name i endnames => some { s with endnames := Function.update s.endnames i (some endnames) }
  | .makeEnd i j =>
    match s.endnames i with
    | none => some (s.panic "runtime error: index out of range")
    | some endnames => s.onNet (.makeEnd (endnames j))
  | .connect i j =>
    match s.endnames i with
    | none => some (s.panic "runtime error: index out of range")
    | some endnames => s.onNet (.connect (endnames j) j)
  | .make i rnd spare =>
    match s.endnames i with
    | none => none
    | some endnames =>
      let r := Raft.make i (s.saved i) rnd
      some { s with
        instances := s.instances ++ [⟨r, endnames, (Memory.empty spare).alloc r.log⟩]
        rafts := Function.update s.rafts i (some s.instances.length) }
  | .addServer i =>
    match s.rafts i, s.onNet (.makeServer [raftService]) with
    | some q, some s' =>
      { s' with receivers := s'.receivers ++ [q] }.onNet (.addServer i s.net.objects.length)
    | _, _ => none
  | .reliable yes => s.onNet (.reliable yes)
  | .longReordering yes => s.onNet (.longReordering yes)

/-! ## The servers -/

/-- The instance `q` after an iteration of its event loop. -/
def setRaft (q : ℕ) (r : Raft n C) : Config n C :=
  { s with instances := s.instances.modify q fun x =>
      { x with raft := r, memory := x.memory.append r.log } }

/-- A message of the instance `q`. -/
def draft (q : ℕ) (msg : Message n C) : Draft n C :=
  ⟨⟨q, msg⟩, s.instances[q]?.bind fun x => msg.slice x.memory⟩

/-- The instance `q` after an iteration in which it has sent messages. -/
def post (q : ℕ) (r : Raft n C) (msgs : List (Message n C)) : Config n C :=
  { s.setRaft q r with outbox := s.outbox ++ msgs.map ((s.setRaft q r).draft q) }

/-- The end of an iteration. -/
def finish (q : ℕ) : Go n C (Raft n C × List (Message n C)) → Config n C
  | .ok (r, msgs) => s.post q r msgs
  | .error e => s.panic e.msg

/-- The server that the event loop of `q` is at its `select` for. -/
def ready (q : ℕ) : Option (Raft n C) :=
  match s.instances[q]? with
  | none => none
  | some x => if x.raft.commitc = none then some x.raft else none

/-- The state after an event, if the event is possible. -/
def next : Event n C → Option (Config n C)
  | .command cmd => if s.script = [] then some { s with script := s.program cmd } else none
  | .operate =>
    match s.script with
    | [] => none
    | op :: ops => { s with script := ops }.operate op
  | .tick q rnd => (s.ready q).map fun r => s.finish q (r.tick rnd)
  | .start q command =>
    (s.ready q).map fun r => s.finish q ((r.handleStart command).map fun x => (x.1, x.2.1))
  | .stateMachine q =>
    match s.instances[q]? with
    | none => none
    | some x =>
      match x.raft.stateMachine with
      | .ok r => some (s.setRaft q r)
      | .error e => some (s.panic e.msg)
  | .call g =>
    match s.outbox[g]? with
    | none => none
    | some d =>
      match s.instances[d.item.inst]? with
      | none => none
      | some x => { s with outbox := s.outbox.eraseIdx g }.onNet
          (.call ⟨x.ends d.item.msg.dst, d.item.msg.svcMeth, d.encode x.memory⟩)
  | .enter k => s.onNet (.enter k)
  | .abort k => s.onNet (.abort k)
  | .proceed k x =>
    match x with
    | .ret _ => none
    | .reply => none
    | x => s.onNet (.proceed k x)
  | .handle k rnd =>
    match s.net.calls[k]? with
    | some ⟨req, _, .running server⟩ =>
      match s.receivers[server]? with
      | none => none
      | some q =>
        match s.ready q with
        | none => none
        | some r =>
          match r.step rnd req.args.msg with
          | .ok (r, resp :: _) => (s.setRaft q r).onNet (.proceed k (.ret resp))
          | .ok (_, []) => none
          | .error e => some (s.panic e.msg)
    | _ => none
  | .reply k =>
    match s.net.calls[k]? with
    | some ⟨req, .replying (some resp), _⟩ =>
      ({ s with inbox := s.inbox ++ [Item.mk req.args.inst resp] } : Config n C).onNet
        (.proceed k .reply)
    | _ => s.onNet (.proceed k .reply)
  | .respond g rnd =>
    match s.inbox[g]? with
    | none => none
    | some it => (s.ready it.inst).map fun r =>
        { s with inbox := s.inbox.eraseIdx g }.finish it.inst (r.step rnd it.msg)

/-- `rafts[i]`. -/
def server (i : Fin n) : Option (Raft n C) :=
  ((s.rafts i).bind fun q => s.instances[q]?).map Instance.raft

/-- A step of the process, unless it is gone. -/
def step (e : Event n C) (s : Config n C) : Option (Config n C) :=
  if s.panicked = none ∧ s.net.crash = none then s.next e else none

/-! ## Looking for a leader -/

/-- What `checkOneLeader` notes of a server, given what `GetState` has returned if the server is
connected. -/
def leading (i : Fin n) : Option (ℕ × Bool) → Option (ℕ × Fin n)
  | some (t, true) => some (t, i)
  | _ => none

/-- The leaders that were seen, with their terms. -/
def leaders (look : Fin n → Option (ℕ × Bool)) : List (ℕ × Fin n) :=
  (List.finRange n).filterMap fun i => leading i (look i)

def leadersOf (look : Fin n → Option (ℕ × Bool)) (t : ℕ) : List (Fin n) :=
  ((leaders look).filter fun x => x.1 = t).map Prod.snd

/-- One round of `checkOneLeader`, which goes on if it has seen no leader. -/
def checkOneLeader (look : Fin n → Option (ℕ × Bool)) : Except String (Option (Fin n)) :=
  if (leaders look).any fun x => (leadersOf look x.1).length > 1 then
    .error "term %d has %d (>1) leaders"
  else
    match ((leaders look).map Prod.fst).max? with
    | none => .ok none
    | some lastTermWithLeader => .ok (leadersOf look lastTermWithLeader).head?

end Config

/-- What `GetState` returns if the server is `r` when it reads the term and `r'` when it reads the
state. -/
def Raft.getState (r r' : Raft n C) : ℕ × Bool := (r.currentTerm, r'.state = .stateLeader)

end DistSystem
