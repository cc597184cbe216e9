import DistSystem.Raft.Server

/-!
# A cluster of servers

Servers of `raft.go` joined by `labrpc`. One action is one iteration of a server's event loop, one
step of its `stateMachine` goroutine, a loss in the network, or a crash or restart. The network is
the list of messages in flight, any of which may be delivered next or dropped; delivering one takes
it out. A response goes to the goroutine that made the call, so it is lost on a caller that has
restarted since (`incarnation`). The event loop waits while a commit index it sends is not taken,
and for good once the process has crashed or panicked; a restart is a new `Make` on the persister.
An action that is not possible changes nothing.
-/

namespace DistSystem

variable {n : ℕ} {C : Type}

inductive Status where
  | running
  | crashed
  | panicked (msg : String)
  deriving DecidableEq, Repr

structure Node (n : ℕ) (C : Type) where
  raft : Raft n C
  status : Status
  incarnation : ℕ

/-- A message in flight and the incarnation of the server that made the call. -/
structure Packet (n : ℕ) (C : Type) where
  msg : Message n C
  incarnation : ℕ
  deriving DecidableEq, Repr

structure Cluster (n : ℕ) (C : Type) where
  nodes : Fin n → Node n C
  net : List (Packet n C)

inductive Action (n : ℕ) (C : Type) where
  | tick (p : Fin n) (rnd : ℕ)
  /-- `Step` on the `k`-th message in flight, by the server it is for. -/
  | deliver (k : ℕ) (rnd : ℕ)
  | drop (k : ℕ)
  | start (p : Fin n) (command : Option C)
  | stateMachine (p : Fin n)
  | crash (p : Fin n)
  | restart (p : Fin n) (rnd : ℕ)
  | idle

namespace Node

variable (x : Node n C)

/-- The event loop is at its `select`. -/
def Ready : Prop := x.status = .running ∧ x.raft.commitc = none

instance : Decidable x.Ready := inferInstanceAs (Decidable (_ ∧ _))

/-- The node after its process ran into a panic. -/
def fail (e : Panic n C) : Node n C := { x with raft := e.raft, status := .panicked e.msg }

end Node

namespace Cluster

variable (s : Cluster n C)

def setNode (p : Fin n) (x : Node n C) : Cluster n C :=
  { s with nodes := Function.update s.nodes p x }

def send (incarnation : ℕ) (msgs : List (Message n C)) : Cluster n C :=
  { s with net := s.net ++ msgs.map (⟨·, incarnation⟩) }

/-- The end of an event-loop iteration of `p`, for calls of the given incarnation. -/
def finish (p : Fin n) (incarnation : ℕ) :
    Go n C (Raft n C × List (Message n C)) → Cluster n C
  | .ok (r, msgs) => (s.setNode p { s.nodes p with raft := r }).send incarnation msgs
  | .error e => s.setNode p ((s.nodes p).fail e)

/-- `pk` can be handled now by the server it is for. -/
def CanDeliver (pk : Packet n C) : Prop :=
  (s.nodes pk.msg.dst).Ready ∧
    (pk.msg.isResp = true → pk.incarnation = (s.nodes pk.msg.dst).incarnation)

instance (pk : Packet n C) : Decidable (s.CanDeliver pk) := inferInstanceAs (Decidable (_ ∧ _))

def exec : Action n C → Cluster n C
  | .tick p rnd =>
    if (s.nodes p).Ready then s.finish p (s.nodes p).incarnation ((s.nodes p).raft.tick rnd)
    else s
  | .deliver k rnd =>
    match s.net[k]? with
    | none => s
    | some pk =>
      if s.CanDeliver pk then
        { s with net := s.net.eraseIdx k }.finish pk.msg.dst pk.incarnation
          ((s.nodes pk.msg.dst).raft.step rnd pk.msg)
      else s
  | .drop k => { s with net := s.net.eraseIdx k }
  | .start p command =>
    if (s.nodes p).Ready then
      s.finish p (s.nodes p).incarnation
        (((s.nodes p).raft.handleStart command).map fun x => (x.1, x.2.1))
    else s
  | .stateMachine p =>
    if (s.nodes p).status = .running then
      match (s.nodes p).raft.stateMachine with
      | .ok r => s.setNode p { s.nodes p with raft := r }
      | .error e => s.setNode p ((s.nodes p).fail e)
    else s
  | .crash p => s.setNode p { s.nodes p with status := .crashed }
  | .restart p rnd =>
    if (s.nodes p).status = .running then s
    else s.setNode p ⟨.make p (s.nodes p).raft.persister rnd, .running,
      (s.nodes p).incarnation + 1⟩
  | .idle => s

/-- What a `Start` handled now by `p` returns. -/
def startReply (p : Fin n) (command : Option C) : Option Raft.StartReply :=
  if (s.nodes p).Ready then
    match (s.nodes p).raft.handleStart command with
    | .ok (_, _, reply) => some reply
    | .error _ => none
  else none

end Cluster

/-- The draws of the first `Make` of each server and the actions in order. -/
structure Schedule (n : ℕ) (C : Type) where
  rnd : Fin n → ℕ
  act : ℕ → Action n C

namespace Schedule

variable (σ : Schedule n C)

def run : ℕ → Cluster n C
  | 0 => ⟨fun p => ⟨.make p none (σ.rnd p), .running, 0⟩, []⟩
  | t + 1 => (run t).exec (σ.act t)

/-- The server `p` after `t` actions. -/
def raft (t : ℕ) (p : Fin n) : Raft n C := ((σ.run t).nodes p).raft

/-- The schedule of a list of actions, and nothing after them. -/
def ofList (as : List (Action n C)) : Schedule n C :=
  ⟨fun _ => 0, fun t => as.getD t .idle⟩

end Schedule

end DistSystem
