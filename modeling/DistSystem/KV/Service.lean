import DistSystem.KV.Server
import DistSystem.Raft.Cluster

/-!
# The key/value service

Clerks of `client.go`, the handler goroutines their calls start, and the servers. One action is one
critical section of `kv.mu`, one step of a handler or of a Clerk's call between two of them, or one
thing that the network or Raft does. Requests and answers in flight may be lost, delayed and
reordered, and a call of `labrpc` may return false at any time, whatever becomes of its request.
From Raft come what `Start` returns and what is sent on `applyCh`; the model leaves both open, and
`FromLog` says what Raft guarantees of them. A crash ends the handlers of a server and a restart is
a new `StartKVServer`. An action that is not possible changes nothing.
-/

namespace DistSystem.KV

variable {n : ℕ}

/-! ## Clerks -/

structure Clerk (n : ℕ) where
  servers : List (Fin n)
  id : ℕ
  reqId : ℕ

/-- A call of `Clerk.Get`, `Clerk.Put` or `Clerk.Append`. -/
inductive Invocation where
  | get (key : String)
  | put (key value : String)
  | append (key value : String)
  deriving DecidableEq, Repr

namespace Clerk

variable (ck : Clerk n)

/-- The critical section of `ck.mu`: `reqId` goes to the request. -/
def next : Clerk n := { ck with reqId := ck.reqId + 1 }

def get (key : String) : Args := .get ⟨key, ck.id, ck.reqId⟩

def putAppend (key value : String) (op : OpType) : Args :=
  .putAppend ⟨key, value, op, ck.id, ck.reqId⟩

def put (key value : String) : Args := ck.putAppend key value .put

def append (key value : String) : Args := ck.putAppend key value .append

/-- What the call sends. -/
def args : Invocation → Args
  | .get key => ck.get key
  | .put key value => ck.put key value
  | .append key value => ck.append key value

end Clerk

inductive CallPhase where
  /-- Before the next `c.Call`. -/
  | calling
  /-- In `c.Call`. -/
  | waiting
  | returned (reply : Reply)
  deriving DecidableEq, Repr

/-- A call on a Clerk, and how many servers it has tried. -/
structure Call where
  clerk : ℕ
  args : Args
  attempt : ℕ
  phase : CallPhase
  deriving DecidableEq, Repr

def Call.returned (call : Call) : Bool :=
  match call.phase with
  | .returned _ => true
  | _ => false

/-- What the loop of the call does with the result of `c.Call`, `none` if it was not ok. -/
def Call.result (call : Call) (reply : Option Reply) : Call :=
  match reply with
  | some r =>
    if r.wrongLeader then { call with attempt := call.attempt + 1, phase := .calling }
    else { call with phase := .returned r }
  | none => { call with attempt := call.attempt + 1, phase := .calling }

/-! ## Servers, handlers and the network -/

/-- An entry that `getApply` has taken, and whether it was executed. -/
structure Applied where
  index : ℕ
  op : Op
  executed : Bool
  deriving DecidableEq, Repr

structure Node where
  kv : RaftKV
  status : Status
  incarnation : ℕ
  /-- What this incarnation has applied. -/
  applied : List Applied

inductive Phase where
  /-- Before `Start`. -/
  | start
  /-- Before `AppendLog` looks up its channel. -/
  | lookup
  /-- In the `select` of `AppendLog`. -/
  | wait
  /-- `AppendLog` has returned true to `Get`. -/
  | read
  | answered (reply : Reply)
  deriving DecidableEq, Repr

/-- The goroutine that handles a request, the index it got from `Start` and how far it is. -/
structure Handler (n : ℕ) where
  call : ℕ
  attempt : ℕ
  args : Args
  server : Fin n
  incarnation : ℕ
  index : ℕ
  phase : Phase
  deriving DecidableEq, Repr

/-- A request in flight, with the call and the attempt it is from. -/
structure Request (n : ℕ) where
  call : ℕ
  attempt : ℕ
  args : Args
  server : Fin n
  deriving DecidableEq, Repr

/-- An answer in flight. -/
structure Response where
  call : ℕ
  attempt : ℕ
  reply : Reply
  deriving DecidableEq, Repr

structure Service (n : ℕ) where
  nodes : Fin n → Node
  clerks : ℕ → Clerk n
  calls : List Call
  requests : List (Request n)
  handlers : List (Handler n)
  responses : List Response

inductive Action (n : ℕ) where
  /-- A call on the Clerk begins and gets its request number. -/
  | invoke (c : ℕ) (x : Invocation)
  /-- The loop of the `j`-th call makes its next `c.Call`. -/
  | call (j : ℕ)
  /-- The `c.Call` of the `j`-th call returns false. -/
  | fail (j : ℕ)
  /-- The `k`-th request reaches its server, which starts a handler. -/
  | dispatch (k : ℕ)
  | loseRequest (k : ℕ)
  /-- `Start` returns to the handler `h`, with an index if the server leads. -/
  | start (h : ℕ) (index : Option ℕ)
  | lookup (h : ℕ)
  | receive (h : ℕ)
  | timeout (h : ℕ)
  /-- The critical section at the end of `Get`. -/
  | read (h : ℕ)
  /-- The `k`-th answer reaches the `c.Call` that waits for it. -/
  | reply (k : ℕ)
  | loseResponse (k : ℕ)
  /-- `getApply` takes a message from `applyCh`. -/
  | apply (p : Fin n) (applyMsg : ApplyMsg Op)
  | crash (p : Fin n)
  | restart (p : Fin n)
  | idle

namespace Node

variable (x : Node)

/-- The prefix of the log that this incarnation has applied. -/
def entries : List Op := x.applied.map (·.op)

/-- The operations among them that were executed. -/
def executed : List Op := (x.applied.filter (·.executed)).map (·.op)

/-- The entry at `index` was applied, and was `op`. -/
def HasApplied (index : ℕ) (op : Op) : Prop := ∃ e ∈ x.applied, e.index = index ∧ e.op = op

instance (index : ℕ) (op : Op) : Decidable (x.HasApplied index op) :=
  inferInstanceAs (Decidable (∃ e ∈ x.applied, _))

/-- One iteration of the `getApply` loop. -/
def getApply (applyMsg : ApplyMsg Op) : Node :=
  match x.kv.getApply applyMsg with
  | .ok kv =>
    { x with
      kv := kv
      applied := x.applied ++
        (applyMsg.command.map fun op => ⟨applyMsg.index, op, !x.kv.checkDup op⟩).toList }
  | .error msg => { x with status := .panicked msg }

end Node

namespace Service

variable (s : Service n)

def setNode (p : Fin n) (x : Node) : Service n := { s with nodes := Function.update s.nodes p x }

def setCall (j : ℕ) (call : Call) : Service n := { s with calls := s.calls.set j call }

def setHandler (h : ℕ) (hd : Handler n) : Service n := { s with handlers := s.handlers.set h hd }

/-- The handler returns from the RPC. -/
def answer (h : ℕ) (hd : Handler n) (reply : Reply) : Service n :=
  { s.setHandler h { hd with phase := .answered reply } with
    responses := s.responses ++ [⟨hd.call, hd.attempt, reply⟩] }

/-- The process that the handler belongs to is there. -/
def Live (hd : Handler n) : Prop :=
  (s.nodes hd.server).status = .running ∧ (s.nodes hd.server).incarnation = hd.incarnation

instance (hd : Handler n) : Decidable (s.Live hd) := inferInstanceAs (Decidable (_ ∧ _))

/-- The handler `h`, if it is in `phase` and its process is there. -/
def handlerAt (h : ℕ) (phase : Phase) : Option (Handler n) :=
  match s.handlers[h]? with
  | some hd => if s.Live hd ∧ hd.phase = phase then some hd else none
  | none => none

/-- The handler `h` of a `Get`, if it is before its critical section. -/
def reader (h : ℕ) : Option (Handler n × GetArgs) :=
  match s.handlerAt h .read with
  | none => none
  | some hd =>
    match hd.args with
    | .get args => some (hd, args)
    | .putAppend _ => none

/-- The `j`-th call, if it is in `phase`. -/
def callAt (j : ℕ) (phase : CallPhase) : Option Call :=
  match s.calls[j]? with
  | some call => if call.phase = phase then some call else none
  | none => none

/-- `AppendLog` got `op` from its channel. -/
def received (h : ℕ) (hd : Handler n) (op : Op) : Service n :=
  if op = hd.args.entry then
    match hd.args with
    | .get _ => s.setHandler h { hd with phase := .read }
    | .putAppend _ => s.answer h hd (.putAppend ⟨false, some .ok⟩)
  else s.answer h hd hd.args.refused

def exec : Action n → Service n
  | .invoke c x =>
    { s with
      clerks := Function.update s.clerks c (s.clerks c).next
      calls := s.calls ++ [⟨c, (s.clerks c).args x, 0, .calling⟩] }
  | .call j =>
    match s.callAt j .calling with
    | none => s
    | some call =>
      let servers := (s.clerks call.clerk).servers
      match servers[call.attempt % servers.length]? with
      | none => s
      | some p =>
        { s.setCall j { call with phase := .waiting } with
          requests := s.requests ++ [⟨j, call.attempt, call.args, p⟩] }
  | .fail j =>
    match s.callAt j .waiting with
    | none => s
    | some call => s.setCall j (call.result none)
  | .dispatch k =>
    match s.requests[k]? with
    | none => s
    | some rq =>
      if (s.nodes rq.server).status = .running then
        { s with
          requests := s.requests.eraseIdx k
          handlers := s.handlers ++ [⟨rq.call, rq.attempt, rq.args, rq.server,
            (s.nodes rq.server).incarnation, 0, .start⟩] }
      else s
  | .loseRequest k => { s with requests := s.requests.eraseIdx k }
  | .start h index =>
    match s.handlerAt h .start with
    | none => s
    | some hd =>
      match index with
      | some i => s.setHandler h { hd with index := i, phase := .lookup }
      | none => s.answer h hd hd.args.refused
  | .lookup h =>
    match s.handlerAt h .lookup with
    | none => s
    | some hd =>
      (s.setNode hd.server { s.nodes hd.server with
        kv := (s.nodes hd.server).kv.lookup hd.index }).setHandler h { hd with phase := .wait }
  | .receive h =>
    match s.handlerAt h .wait with
    | none => s
    | some hd =>
      match (s.nodes hd.server).kv.receive hd.index with
      | none => s
      | some (op, kv) =>
        (s.setNode hd.server { s.nodes hd.server with kv := kv }).received h hd op
  | .timeout h =>
    match s.handlerAt h .wait with
    | none => s
    | some hd => s.answer h hd hd.args.refused
  | .read h =>
    match s.reader h with
    | none => s
    | some (hd, args) =>
      let (reply, kv) := (s.nodes hd.server).kv.get args
      (s.setNode hd.server { s.nodes hd.server with kv := kv }).answer h hd (.get reply)
  | .reply k =>
    match s.responses[k]? with
    | none => s
    | some rs =>
      let s := { s with responses := s.responses.eraseIdx k }
      match s.callAt rs.call .waiting with
      | none => s
      | some call =>
        if call.attempt = rs.attempt then s.setCall rs.call (call.result (some rs.reply)) else s
  | .loseResponse k => { s with responses := s.responses.eraseIdx k }
  | .apply p applyMsg =>
    if (s.nodes p).status = .running then s.setNode p ((s.nodes p).getApply applyMsg) else s
  | .crash p => s.setNode p { s.nodes p with status := .crashed }
  | .restart p =>
    if (s.nodes p).status = .running then s
    else s.setNode p ⟨.startKVServer, .running, (s.nodes p).incarnation + 1, []⟩
  | .idle => s

end Service

/-- The servers and ids of the Clerks, and the actions in order. -/
structure Schedule (n : ℕ) where
  servers : ℕ → List (Fin n)
  id : ℕ → ℕ
  act : ℕ → Action n

namespace Schedule

variable (κ : Schedule n)

def run : ℕ → Service n
  | 0 => ⟨fun _ => ⟨.startKVServer, .running, 0, []⟩, fun c => ⟨κ.servers c, κ.id c, 0⟩, [], [], [],
      []⟩
  | t + 1 => (run t).exec (κ.act t)

/-- The server `p` after `t` actions. -/
def node (t : ℕ) (p : Fin n) : Node := (κ.run t).nodes p

/-- A list of actions, and nothing after them, of Clerks that have their numbers as ids and try the
servers in order. -/
def ofList (as : List (Action n)) : Schedule n :=
  ⟨fun _ => List.finRange n, fun c => c, fun t => as.getD t .idle⟩

/-- Every action of the run meets `P`. -/
def Always (P : Service n → Action n → Prop) : Prop := ∀ t, P (κ.run t) (κ.act t)

end Schedule

/-! ## What a run may be assumed to do -/

/-- The message that `getApply` takes from `applyCh` in this action. -/
def Service.delivery (s : Service n) : Action n → Option (Fin n × ApplyMsg Op)
  | .apply p applyMsg => if (s.nodes p).status = .running then some (p, applyMsg) else none
  | _ => none

/-- What Raft guarantees of `applyCh`: each server gets the entries of one log in order, again from
the first after a restart, and each of them was given to `Start` before. -/
def FromLog (log : ℕ → Op) (s : Service n) (a : Action n) : Prop :=
  ∀ x ∈ s.delivery a,
    x.2 = ⟨(s.nodes x.1).applied.length + 1, some (log (s.nodes x.1).applied.length)⟩ ∧
    ∃ hd ∈ s.handlers, hd.phase ≠ .start ∧ hd.args.entry = log (s.nodes x.1).applied.length

instance (log : ℕ → Op) (s : Service n) (a : Action n) : Decidable (FromLog log s a) :=
  inferInstanceAs (Decidable (∀ x ∈ s.delivery a, _ ∧ _))

/-- The handler of a `Get` that reads the store in this action. -/
def Service.reading (s : Service n) : Action n → Option (Handler n × GetArgs)
  | .read h => s.reader h
  | _ => none

/-- The Clerk on which a call begins in this action. -/
def Action.clerk : Action n → Option ℕ
  | .invoke c _ => some c
  | _ => none

/-- A call begins only when the earlier calls on its Clerk have returned. -/
def OneAtATime (s : Service n) (a : Action n) : Prop :=
  ∀ c ∈ a.clerk, ∀ call ∈ s.calls, call.clerk = c → call.returned

instance (s : Service n) (a : Action n) : Decidable (OneAtATime s a) :=
  inferInstanceAs (Decidable (∀ c ∈ a.clerk, ∀ call ∈ s.calls, _ → _))

end DistSystem.KV
