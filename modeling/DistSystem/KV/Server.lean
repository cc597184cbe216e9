import DistSystem.Raft.Server

/-!
# A key/value server

`common.go` and `server.go` of `kvraft`: the critical sections of `kv.mu`, which the `getApply` loop
and the RPC handlers run on the state of one server. A Go map that is read only at its zero value is
a function; one that is also asked whether a key is there has values in `Option`. A channel of
`result` has room for one `Op` and is here its buffer. Logging, `me`, `maxraftstate` and `stopc` are
left out, and ids and request numbers, `int64` in the source, are natural numbers.
-/

namespace DistSystem.KV

/-- `"Get"`, `"Put"` and `"Append"`. -/
inductive OpType where
  | get
  | put
  | append
  deriving DecidableEq, Repr

structure Op where
  type : OpType
  key : String
  value : String
  id : ℕ
  reqId : ℕ
  deriving DecidableEq, Repr

inductive Err where
  | ok
  | errNoKey
  | errNotLeader
  deriving DecidableEq, Repr

structure PutAppendArgs where
  key : String
  value : String
  op : OpType
  id : ℕ
  reqId : ℕ
  deriving DecidableEq, Repr

structure PutAppendReply where
  wrongLeader : Bool
  err : Option Err
  deriving DecidableEq, Repr

structure GetArgs where
  key : String
  id : ℕ
  reqId : ℕ
  deriving DecidableEq, Repr

structure GetReply where
  wrongLeader : Bool
  err : Option Err
  value : String
  deriving DecidableEq, Repr

/-- The arguments of a call of `RaftKV.Get` or of `RaftKV.PutAppend`. -/
inductive Args where
  | get (args : GetArgs)
  | putAppend (args : PutAppendArgs)
  deriving DecidableEq, Repr

inductive Reply where
  | get (reply : GetReply)
  | putAppend (reply : PutAppendReply)
  deriving DecidableEq, Repr

/-- What the handler gives to `AppendLog`. -/
def Args.entry : Args → Op
  | .get args => ⟨.get, args.key, "", args.id, args.reqId⟩
  | .putAppend args => ⟨args.op, args.key, args.value, args.id, args.reqId⟩

/-- The answer when `AppendLog` has returned false. -/
def Args.refused : Args → Reply
  | .get _ => .get ⟨true, none, ""⟩
  | .putAppend _ => .putAppend ⟨true, none⟩

def Reply.wrongLeader : Reply → Bool
  | .get reply => reply.wrongLeader
  | .putAppend reply => reply.wrongLeader

structure RaftKV where
  db : String → String
  /-- `some none` is a channel with nothing in it. -/
  result : ℕ → Option (Option Op)
  ack : ℕ → Option ℕ
  prevIndex : ℕ

namespace RaftKV

/-- The maps that `StartKVServer` makes. -/
def startKVServer : RaftKV := ⟨fun _ => "", fun _ => none, fun _ => none, 0⟩

variable (kv : RaftKV)

def checkDup (op : Op) : Bool :=
  match kv.ack op.id with
  | some v => decide (v ≥ op.reqId)
  | none => false

/-- What `getApply` does with an operation that is not a duplicate. -/
def execute (op : Op) : RaftKV :=
  { kv with
    db := match op.type with
      | .put => Function.update kv.db op.key op.value
      | .append => Function.update kv.db op.key (kv.db op.key ++ op.value)
      | .get => kv.db
    ack := Function.update kv.ack op.id (some op.reqId) }

def apply (op : Op) : RaftKV := if kv.checkDup op then kv else kv.execute op

/-- The channel of `index` is emptied, or made, before the operation is sent on it. -/
def notify (index : ℕ) (op : Op) : RaftKV :=
  { kv with result := Function.update kv.result index (some (some op)) }

/-- One message from `applyCh`, or the panic it ends in. -/
def getApply (applyMsg : ApplyMsg Op) : Except String RaftKV :=
  let index := applyMsg.index
  match applyMsg.command with
  | none => .error "interface conversion: interface \x7b\x7d is nil, not raftkv.Op"
  | some op =>
    if index > 1 ∧ kv.prevIndex ≠ index - 1 then
      .error s!"unordered index:{index} prevIndex:{kv.prevIndex}"
    else .ok (({ kv with prevIndex := index }.apply op).notify index op)

/-- `AppendLog` looks up the channel of `index` and makes it if it is not there. -/
def lookup (index : ℕ) : RaftKV :=
  match kv.result index with
  | some _ => kv
  | none => { kv with result := Function.update kv.result index (some none) }

/-- `op := <-ch`, where something is in the channel of `index`. -/
def receive (index : ℕ) : Option (Op × RaftKV) :=
  match kv.result index with
  | some (some op) => some (op, { kv with result := Function.update kv.result index (some none) })
  | _ => none

/-- The critical section at the end of `Get`. -/
def get (args : GetArgs) : GetReply × RaftKV :=
  (⟨false, some .ok, kv.db args.key⟩,
    { kv with ack := Function.update kv.ack args.id (some args.reqId) })

end RaftKV

end DistSystem.KV
