import DistSystem.Lib.Interleaving
import DistSystem.MapReduce.Common

/-!
# The network of `labrpc.go`

A `Network` with its client ends and servers, the `ProcessReq` goroutine of each call and the
goroutine that runs the handler of a request. A step is one access to the network under its lock,
one meeting on a channel, or a sleep that is over; where the code draws a random number both ways
are possible. What a handler replies is up to the server. A server is the place of its object in
`objects`, so that a server under the name of an old one is another server. Arguments and replies
are values, since they go through `gob`.
-/

namespace DistSystem.LabRPC

open MapReduce (Str ascii)

/-- How the process ends. -/
inductive Crash where
  | panic (text : String)
  | fatal (format : String) (args : List Str)
  deriving DecidableEq

/-! ## Servers -/

/-- A method of a receiver, as `reflect` sees it. -/
structure Method where
  name : Str
  /-- Empty if the name is exported. -/
  pkgPath : Str
  numIn : ℕ
  /-- `In(2)` is a pointer. -/
  ptr : Bool
  numOut : ℕ

/-- The method looks like a handler. -/
def Method.Suitable (m : Method) : Prop :=
  m.pkgPath = [] ∧ m.numIn = 3 ∧ m.ptr = true ∧ m.numOut = 0

instance suitableDecidable (m : Method) : Decidable m.Suitable :=
  inferInstanceAs (Decidable (_ ∧ _))

structure Service where
  name : Str
  methods : List Str

/-- For a receiver whose type has the given name and methods. -/
def makeService (name : Str) (methods : List Method) : Service :=
  ⟨name, (methods.filter fun m => m.Suitable).map Method.name⟩

structure Server where
  services : List Service
  /-- Incoming RPCs. -/
  count : ℕ

def makeServer : Server := ⟨[], 0⟩

/-- The byte of a dot. -/
def dot : UInt8 := 46

/-- A name split at its last dot. -/
def splitMeth (svcMeth : Str) : Option (Str × Str) :=
  match svcMeth.reverse.dropWhile (· ≠ dot) with
  | [] => none
  | _ :: service => some (service.reverse, (svcMeth.reverse.takeWhile (· ≠ dot)).reverse)

namespace Server

variable (rs : Server)

def addService (svc : Service) : Server :=
  { rs with services := svc :: rs.services.filter fun s => s.name ≠ svc.name }

/-- `dispatch` of the server and then of the service, up to the call of the method. -/
def dispatch (svcMeth : Str) : Except Crash Server :=
  let rs := { rs with count := rs.count + 1 }
  match splitMeth svcMeth with
  | none => .error (.panic "runtime error: slice bounds out of range")
  | some (serviceName, methodName) =>
    match rs.services.find? fun svc => svc.name = serviceName with
    | none => .error (.fatal
        "labrpc.Server.dispatch(): unknown service %v in %v.%v; expecting one of %v\n"
        ([serviceName, serviceName, methodName] ++ rs.services.map Service.name))
    | some svc =>
      if methodName ∈ svc.methods then .ok rs
      else .error (.fatal
        "labrpc.Service.dispatch(): unknown method %v in %v; expecting one of %v\n"
        ([methodName, svcMeth] ++ svc.methods))

end Server

/-! ## Calls -/

/-- A request of an end with the name `E`. -/
structure ReqMsg (E A : Type) where
  endname : E
  svcMeth : Str
  args : A

/-- What `ProcessReq` goes on with if there is a server to talk to. -/
structure Route (S : Type) where
  servername : S
  server : ℕ
  reliable : Bool
  longreordering : Bool
  deriving DecidableEq

/-- Where `ProcessReq` is. -/
inductive Stage (S R : Type) where
  /-- Before `ReadEndnameInfo`. -/
  | reading
  /-- Asleep as if there were no reply. -/
  | refusing
  /-- Before the request can be dropped. -/
  | delaying (rt : Route S)
  /-- In the loop, with the handler started. -/
  | waiting (rt : Route S)
  /-- After the loop, with what was received from `ech`. -/
  | checking (rt : Route S) (reply : Option R)
  /-- Before the reply can be dropped or held back. -/
  | deciding (rt : Route S) (reply : R)
  /-- Asleep with a reply. -/
  | holding (reply : R)
  /-- At the send on `replyCh`; `none` is `replyMsg` with `ok` false. -/
  | replying (rep : Option R)
  /-- `Call` has returned. -/
  | replied (rep : Option R)
  deriving DecidableEq

/-- Where the goroutine of the handler is, with the server it is for. -/
inductive Handler (R : Type) where
  | unborn
  /-- Before the server's `dispatch`. -/
  | dispatching (server : ℕ)
  /-- In the method. -/
  | running (server : ℕ)
  /-- At the send on `ech`. -/
  | returned (server : ℕ) (reply : R)
  | ended (server : ℕ)
  deriving DecidableEq

structure Call (E S A R : Type) where
  req : ReqMsg E A
  stage : Stage S R
  handler : Handler R

/-! ## The network -/

structure Network (E S A R : Type) where
  reliable : Bool
  longReordering : Bool
  /-- The names of the ends. -/
  ends : E → Bool
  enabled : E → Bool
  servers : S → Option ℕ
  connections : E → Option S
  objects : List Server
  calls : List (Call E S A R)
  crash : Option Crash

/-- A step of `ProcessReq` or of the handler, within one call. -/
inductive Step (R : Type) where
  | read
  /-- The sleep of a call that has no server is over. -/
  | timeout
  | drop
  /-- The handler's goroutine starts. -/
  | dispatch
  /-- The method returns. -/
  | ret (reply : R)
  /-- The reply comes in on `ech`. -/
  | recv
  /-- 100 ms have passed in the loop. -/
  | poll
  /-- The second `IsServerDead`. -/
  | check
  | lose
  | hold
  | wake
  | deliver
  /-- The send on `replyCh`. -/
  | reply
  deriving DecidableEq

inductive Event (E S A R : Type) where
  | makeEnd (endname : E)
  | connect (endname : E) (servername : S)
  | enable (endname : E) (enabled : Bool)
  /-- `MakeServer` with an `AddService` for each service. -/
  | makeServer (services : List Service)
  | addServer (servername : S) (server : ℕ)
  | deleteServer (servername : S)
  | reliable (yes : Bool)
  | longReordering (yes : Bool)
  /-- A `Call` sends its request, for which a `ProcessReq` starts. -/
  | call (req : ReqMsg E A)
  /-- The handler of the call gets into its method. -/
  | enter (k : ℕ)
  /-- The server has no method for the call. -/
  | abort (k : ℕ)
  | proceed (k : ℕ) (x : Step R)

namespace Network

variable {E S A R : Type}

def makeNetwork : Network E S A R where
  reliable := true
  longReordering := false
  ends := fun _ => false
  enabled := fun _ => false
  servers := fun _ => none
  connections := fun _ => none
  objects := []
  calls := []
  crash := none

variable (rn : Network E S A R)

/-- `ReadEndnameInfo`, with what `ProcessReq` asks of it: the end is enabled and connected, and
there is a server. -/
def readEndnameInfo (endname : E) : Option (Route S) :=
  if rn.enabled endname then
    match rn.connections endname with
    | none => none
    | some servername =>
      match rn.servers servername with
      | none => none
      | some server => some ⟨servername, server, rn.reliable, rn.longReordering⟩
  else none

def isServerDead (endname : E) (servername : S) (server : ℕ) : Bool :=
  !rn.enabled endname || rn.servers servername ≠ some server

/-- The `dispatch` of a server. -/
def dispatch (server : ℕ) (svcMeth : Str) : Option (Except Crash Server) :=
  rn.objects[server]?.map fun rs => rs.dispatch svcMeth

/-- A server that is gone is a nil pointer. -/
def getCount (servername : S) : Except Crash ℕ :=
  match (rn.servers servername).bind fun server => rn.objects[server]? with
  | none => .error (.panic "runtime error: invalid memory address or nil pointer dereference")
  | some rs => .ok rs.count

end Network

namespace Call

variable {E S A R : Type}

/-- The call after a step of its own, if the step is possible. -/
def next (rn : Network E S A R) (c : Call E S A R) : Step R → Option (Call E S A R)
  | .read =>
    match c.stage with
    | .reading =>
      match rn.readEndnameInfo c.req.endname with
      | some rt => some { c with stage := .delaying rt }
      | none => some { c with stage := .refusing }
    | _ => none
  | .timeout =>
    match c.stage with
    | .refusing => some { c with stage := .replying none }
    | _ => none
  | .drop =>
    match c.stage with
    | .delaying rt => if rt.reliable then none else some { c with stage := .replying none }
    | _ => none
  | .dispatch =>
    match c.stage with
    | .delaying rt => some { c with stage := .waiting rt, handler := .dispatching rt.server }
    | _ => none
  | .ret reply =>
    match c.handler with
    | .running server => some { c with handler := .returned server reply }
    | _ => none
  | .recv =>
    match c.stage, c.handler with
    | .waiting rt, .returned server reply =>
      some { c with stage := .checking rt (some reply), handler := .ended server }
    | _, _ => none
  | .poll =>
    match c.stage with
    | .waiting rt =>
      if rn.isServerDead c.req.endname rt.servername rt.server then
        some { c with stage := .checking rt none }
      else some c
    | _ => none
  | .check =>
    match c.stage with
    | .checking rt (some reply) =>
      if rn.isServerDead c.req.endname rt.servername rt.server then
        some { c with stage := .replying none }
      else some { c with stage := .deciding rt reply }
    | .checking _ none => some { c with stage := .replying none }
    | _ => none
  | .lose =>
    match c.stage with
    | .deciding rt _ => if rt.reliable then none else some { c with stage := .replying none }
    | _ => none
  | .hold =>
    match c.stage with
    | .deciding rt reply =>
      if rt.longreordering then some { c with stage := .holding reply } else none
    | _ => none
  | .wake =>
    match c.stage with
    | .holding reply => some { c with stage := .replying (some reply) }
    | _ => none
  | .deliver =>
    match c.stage with
    | .deciding _ reply => some { c with stage := .replying (some reply) }
    | _ => none
  | .reply =>
    match c.stage with
    | .replying rep => some { c with stage := .replied rep }
    | _ => none

end Call

namespace Network

variable {E S A R : Type} [DecidableEq E] [DecidableEq S] (rn : Network E S A R)

/-- The state after an event, if the event is possible. -/
def next : Event E S A R → Option (Network E S A R)
  | .makeEnd endname =>
    if rn.ends endname then
      some { rn with crash := some (.fatal "MakeEnd: %v already exists\n" []) }
    else some { rn with
      ends := Function.update rn.ends endname true
      enabled := Function.update rn.enabled endname false
      connections := Function.update rn.connections endname none }
  | .connect endname servername =>
    some { rn with connections := Function.update rn.connections endname (some servername) }
  | .enable endname enabled =>
    some { rn with enabled := Function.update rn.enabled endname enabled }
  | .makeServer services =>
    some { rn with objects := rn.objects ++ [services.foldl Server.addService LabRPC.makeServer] }
  | .addServer servername server =>
    if server < rn.objects.length then
      some { rn with servers := Function.update rn.servers servername (some server) }
    else none
  | .deleteServer servername =>
    some { rn with servers := Function.update rn.servers servername none }
  | .reliable yes => some { rn with reliable := yes }
  | .longReordering yes => some { rn with longReordering := yes }
  | .call req => some { rn with calls := rn.calls ++ [⟨req, .reading, .unborn⟩] }
  | .enter k =>
    match rn.calls[k]? with
    | some ⟨req, stage, .dispatching server⟩ =>
      match rn.dispatch server req.svcMeth with
      | some (.ok rs) => some { rn with
          objects := rn.objects.set server rs
          calls := rn.calls.set k ⟨req, stage, .running server⟩ }
      | _ => none
    | _ => none
  | .abort k =>
    match rn.calls[k]? with
    | some ⟨req, _, .dispatching server⟩ =>
      match rn.dispatch server req.svcMeth with
      | some (.error crash) => some { rn with crash := some crash }
      | _ => none
    | _ => none
  | .proceed k x =>
    match rn.calls[k]? with
    | some c => (c.next rn x).map fun c => { rn with calls := rn.calls.set k c }
    | none => none

/-- A step of the network, unless the process is gone. -/
def step (e : Event E S A R) (rn : Network E S A R) : Option (Network E S A R) :=
  match rn.crash with
  | none => rn.next e
  | some _ => none

end Network

end DistSystem.LabRPC
