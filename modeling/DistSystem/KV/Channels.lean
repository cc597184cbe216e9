import DistSystem.KV.Server
import DistSystem.Lib.Interleaving

/-!
# The goroutines of a server

The event loop of `Raft.run`, `Raft.stateMachine`, `RaftKV.getApply` and the handlers of one server,
each at one of the places where it meets another: the channels `commandc`, `m.done`, `commitc` and
`applyCh`, which have no buffer, the channels of `result`, which have room for one `Op`, and
`kv.mu`. An event is one such meeting, or what one of them does by itself up to its next one. Ticks
and messages of other servers may come at any time, and what is sent to them leaves the process; a
panic of one goroutine ends it. `Kill` is left out.
-/

namespace DistSystem.KV

variable {n : ℕ}

namespace RaftKV

variable (kv : RaftKV)

/-- What `getApply` does with a message before `kv.mu.Lock`. -/
def take (applyMsg : ApplyMsg Op) : Except String (Op × RaftKV) :=
  let index := applyMsg.index
  match applyMsg.command with
  | none => .error "interface conversion: interface \x7b\x7d is nil, not raftkv.Op"
  | some op =>
    if index > 1 ∧ kv.prevIndex ≠ index - 1 then
      .error s!"unordered index:{index} prevIndex:{kv.prevIndex}"
    else .ok (op, { kv with prevIndex := index })

/-- The channel of `index` is emptied by the `select`, or made. -/
def drain (index : ℕ) : RaftKV :=
  { kv with result := Function.update kv.result index (some none) }

/-- `ch <- op`, where there is room in the channel of `index`. -/
def send (index : ℕ) (op : Op) : Option RaftKV :=
  match kv.result index with
  | some none => some { kv with result := Function.update kv.result index (some (some op)) }
  | _ => none

end RaftKV

/-- Where the event loop is. -/
inductive EventLoop where
  /-- At the select, or at the send on `commitc` if there is something to send. -/
  | selecting
  /-- At `m.done <- true` in `handleStart`, for the handler `h`. -/
  | answering (h : ℕ) (reply : Raft.StartReply)
  deriving DecidableEq

/-- Where `getApply` is. -/
inductive ApplyLoop where
  | selecting
  /-- At `kv.mu.Lock`. -/
  | locking (index : ℕ) (op : Op)
  /-- Has `kv.mu`. -/
  | applying (index : ℕ) (op : Op)
  /-- Before the channel of the result is emptied or made. -/
  | draining (index : ℕ) (op : Op)
  /-- At `ch <- op`. -/
  | sending (index : ℕ) (op : Op)
  /-- Before `kv.mu.Unlock`. -/
  | unlocking
  deriving DecidableEq

/-- Where a handler is. -/
inductive Stage where
  /-- Before `Start`. -/
  | starting
  /-- At `rf.commandc <- m`. -/
  | proposing
  /-- At `<- m.done`. -/
  | awaiting
  /-- At the `kv.mu.Lock` of `AppendLog`. -/
  | locking (index : ℕ)
  /-- Has `kv.mu`. -/
  | looking (index : ℕ)
  | unlocking (index : ℕ)
  /-- At the select of `AppendLog`. -/
  | waiting (index : ℕ)
  /-- At the `kv.mu.Lock` of `Get`. -/
  | getLocking (args : GetArgs)
  | getting (args : GetArgs)
  | getUnlocking (reply : GetReply)
  | returned (reply : Reply)
  deriving DecidableEq

/-- A goroutine that can have `kv.mu`. -/
inductive Holder where
  | getApply
  | handler (h : ℕ)
  deriving DecidableEq

/-- A call of `Get` or `PutAppend`. -/
structure Running where
  args : Args
  stage : Stage

structure Process (n : ℕ) where
  raft : Raft n Op
  loop : EventLoop
  /-- What `stateMachine` is at the send of. -/
  msg : Option (ApplyMsg Op)
  kv : RaftKV
  mu : Option Holder
  apply : ApplyLoop
  handlers : List Running
  /-- The panic that has ended the process. -/
  crash : Option String

namespace Process

inductive Event (n : ℕ) where
  | tick (rnd : ℕ)
  | recv (rnd : ℕ) (m : Message n Op)
  /-- A request comes in. -/
  | spawn (args : Args)
  /-- The event loop takes the command of the handler `h`. -/
  | command (h : ℕ)
  /-- The handler that the event loop has an answer for gets it. -/
  | done
  /-- `stateMachine` takes a commit index. -/
  | commit
  /-- `stateMachine` reads the next entry of its batch. -/
  | read
  /-- `getApply` takes what `stateMachine` sends. -/
  | deliver
  /-- `stateMachine` is at the end of its batch. -/
  | finish
  | lockApply
  | execute
  | drain
  | send
  | unlockApply
  /-- `Start` reads the state of Raft. -/
  | start (h : ℕ)
  | lock (h : ℕ)
  | lookup (h : ℕ)
  | unlock (h : ℕ)
  | receive (h : ℕ)
  | timeout (h : ℕ)
  | getLock (h : ℕ)
  | get (h : ℕ)
  | getUnlock (h : ℕ)

/-- A step of the goroutines themselves: it needs no clock and nothing from outside. -/
def Event.Internal : Event n → Prop
  | .tick _ => False
  | .recv _ _ => False
  | .spawn _ => False
  | .timeout _ => False
  | _ => True

/-- The process when `StartKVServer` has returned. -/
def init (me : Fin n) (persister : Option (RaftStateData n Op)) (rnd : ℕ) : Process n where
  raft := .make me persister rnd
  loop := .selecting
  msg := none
  kv := .startKVServer
  mu := none
  apply := .selecting
  handlers := []
  crash := none

variable (s : Process n)

def fail (msg : String) : Process n := { s with crash := some msg }

/-- The event loop is at its select. -/
def Idle : Prop := s.raft.commitc = none ∧ s.loop = .selecting

instance : Decidable s.Idle := inferInstanceAs (Decidable (_ ∧ _))

/-- The event loop is done with a tick or a message. -/
def handled : Go n Op (Raft n Op × List (Message n Op)) → Process n
  | .ok (r, _) => { s with raft := r }
  | .error e => { s.fail e.msg with raft := e.raft }

/-- A step of `stateMachine` by itself. -/
def machine : Go n Op (Raft n Op) → Process n
  | .ok r => { s with raft := r }
  | .error e => { s.fail e.msg with raft := e.raft }

def setStage (h : ℕ) (stage : Stage) : Process n :=
  { s with handlers := s.handlers.modify h fun x => { x with stage := stage } }

/-- What `AppendLog` goes on with when `Start` has returned. -/
def started (args : Args) (reply : Raft.StartReply) : Stage :=
  if reply.isLeader then .locking reply.index.toNat else .returned args.refused

/-- What the handler goes on with when `AppendLog` has got `op` from its channel. -/
def received (args : Args) (op : Op) : Stage :=
  if op = args.entry then
    match args with
    | .get args => .getLocking args
    | .putAppend _ => .returned (.putAppend ⟨false, some .ok⟩)
  else .returned args.refused

/-- The state after an event, if the event is possible. -/
def next : Event n → Option (Process n)
  | .tick rnd => if s.Idle then some (s.handled (s.raft.tick rnd)) else none
  | .recv rnd m => if s.Idle then some (s.handled (s.raft.step rnd m)) else none
  | .spawn args => some { s with handlers := s.handlers ++ [⟨args, .starting⟩] }
  | .command h =>
    match s.handlers[h]? with
    | some ⟨args, .proposing⟩ =>
      if s.Idle then
        match s.raft.handleStart (some args.entry) with
        | .ok (r, _, reply) =>
          some { s.setStage h .awaiting with raft := r, loop := .answering h reply }
        | .error e => some { s.fail e.msg with raft := e.raft }
      else none
    | _ => none
  | .done =>
    match s.loop with
    | .answering h reply =>
      match s.handlers[h]? with
      | some ⟨args, .awaiting⟩ =>
        some { s.setStage h (started args reply) with loop := .selecting }
      | _ => none
    | _ => none
  | .commit =>
    match s.msg, s.raft.applying, s.raft.commitc with
    | none, none, some _ => some (s.machine s.raft.stateMachine)
    | _, _, _ => none
  | .read =>
    match s.msg, s.raft.applying with
    | none, some (i, commitIndex) =>
      if i ≤ commitIndex then
        match s.raft.entry i with
        | .ok e => some { s with msg := some ⟨e.index, e.command⟩ }
        | .error e => some (s.fail e.msg)
      else none
    | _, _ => none
  | .deliver =>
    match s.msg, s.raft.applying, s.apply with
    | some applyMsg, some (i, commitIndex), .selecting =>
      let s := { s with
        raft := { s.raft with
          applyCh := s.raft.applyCh ++ [applyMsg], applying := some (i + 1, commitIndex) }
        msg := none }
      match s.kv.take applyMsg with
      | .ok (op, kv) => some { s with kv := kv, apply := .locking applyMsg.index op }
      | .error msg => some (s.fail msg)
    | _, _, _ => none
  | .finish =>
    match s.msg, s.raft.applying with
    | none, some (i, commitIndex) =>
      if commitIndex < i then some (s.machine s.raft.stateMachine) else none
    | _, _ => none
  | .lockApply =>
    match s.apply with
    | .locking index op =>
      if s.mu = none then some { s with mu := some .getApply, apply := .applying index op }
      else none
    | _ => none
  | .execute =>
    match s.apply with
    | .applying index op => some { s with kv := s.kv.apply op, apply := .draining index op }
    | _ => none
  | .drain =>
    match s.apply with
    | .draining index op => some { s with kv := s.kv.drain index, apply := .sending index op }
    | _ => none
  | .send =>
    match s.apply with
    | .sending index op =>
      match s.kv.send index op with
      | some kv => some { s with kv := kv, apply := .unlocking }
      | none => none
    | _ => none
  | .unlockApply =>
    match s.apply with
    | .unlocking => some { s with mu := none, apply := .selecting }
    | _ => none
  | .start h =>
    match s.handlers[h]? with
    | some ⟨args, .starting⟩ =>
      some (s.setStage h (if s.raft.state = .stateLeader then .proposing
        else .returned args.refused))
    | _ => none
  | .lock h =>
    match s.handlers[h]? with
    | some ⟨_, .locking index⟩ =>
      if s.mu = none then some { s.setStage h (.looking index) with mu := some (.handler h) }
      else none
    | _ => none
  | .lookup h =>
    match s.handlers[h]? with
    | some ⟨_, .looking index⟩ =>
      some { s.setStage h (.unlocking index) with kv := s.kv.lookup index }
    | _ => none
  | .unlock h =>
    match s.handlers[h]? with
    | some ⟨_, .unlocking index⟩ => some { s.setStage h (.waiting index) with mu := none }
    | _ => none
  | .receive h =>
    match s.handlers[h]? with
    | some ⟨args, .waiting index⟩ =>
      match s.kv.receive index with
      | some (op, kv) => some { s.setStage h (received args op) with kv := kv }
      | none => none
    | _ => none
  | .timeout h =>
    match s.handlers[h]? with
    | some ⟨args, .waiting _⟩ => some (s.setStage h (.returned args.refused))
    | _ => none
  | .getLock h =>
    match s.handlers[h]? with
    | some ⟨_, .getLocking args⟩ =>
      if s.mu = none then some { s.setStage h (.getting args) with mu := some (.handler h) }
      else none
    | _ => none
  | .get h =>
    match s.handlers[h]? with
    | some ⟨_, .getting args⟩ =>
      some { s.setStage h (.getUnlocking (s.kv.get args).1) with kv := (s.kv.get args).2 }
    | _ => none
  | .getUnlock h =>
    match s.handlers[h]? with
    | some ⟨_, .getUnlocking reply⟩ =>
      some { s.setStage h (.returned (.get reply)) with mu := none }
    | _ => none

/-- A step of the process, unless a panic has ended it. -/
def step (e : Event n) (s : Process n) : Option (Process n) :=
  match s.crash with
  | none => s.next e
  | some _ => none

end Process

end DistSystem.KV
