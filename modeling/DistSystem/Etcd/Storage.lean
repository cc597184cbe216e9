import DistSystem.MapReduce.Common
import Mathlib.Data.Finset.Erase
import Mathlib.Data.Finset.Insert

/-!
# What a node keeps of the log

The messages of the raft library, its `MemoryStorage`, and the entries that the write-ahead log
gives back. Indices are `uint64`; the two places where their arithmetic can wrap use `add64` and
`sub64`.
-/

namespace DistSystem.Etcd

open MapReduce (Str)

/-- How the process ends, with the numbers in its last message. -/
inductive Crash where
  /-- `log.Fatalf`. -/
  | fatal (format : String) (args : List ℕ)
  | panic (format : String) (args : List ℕ)
  deriving DecidableEq

/-- The number of values of `uint64`. -/
def uint64Size : ℕ := 18446744073709551616

def add64 (a b : ℕ) : ℕ := (a + b) % uint64Size

def sub64 (a b : ℕ) : ℕ := (a + (uint64Size - b)) % uint64Size

/-! ## Messages of the raft library -/

inductive ConfChangeType where
  | addNode
  | removeNode
  | updateNode
  deriving DecidableEq

structure ConfChange where
  type : ConfChangeType
  nodeID : ℕ
  deriving DecidableEq

/-- The type of an entry with its data. -/
inductive Payload where
  | normal (data : Str)
  | confChange (cc : ConfChange)
  deriving DecidableEq

structure Entry where
  term : ℕ
  index : ℕ
  payload : Payload
  deriving DecidableEq

/-- A snapshot with its metadata; it is empty if its index is 0. -/
structure Snapshot where
  index : ℕ
  term : ℕ
  confState : List ℕ
  data : Str
  deriving DecidableEq

def emptySnapshot : Snapshot := ⟨0, 0, [], []⟩

structure Ready where
  /-- To be written to the write-ahead log and to storage. -/
  entries : List Entry
  /-- Received from the leader. -/
  snapshot : Snapshot
  committedEntries : List Entry
  deriving DecidableEq

/-- The node IDs after a change, as `ApplyConfChange` returns them; it ignores the ID 0. -/
def applyConfChange (nodes : Finset ℕ) (cc : ConfChange) : Finset ℕ :=
  if cc.nodeID = 0 then nodes
  else match cc.type with
    | .addNode => insert cc.nodeID nodes
    | .removeNode => nodes.erase cc.nodeID
    | .updateNode => nodes

/-! ## The storage in memory -/

/-- An entry that has only its place. -/
def place (term index : ℕ) : Entry := ⟨term, index, .normal []⟩

structure MemoryStorage where
  snapshot : Snapshot
  /-- `ents[0]`. -/
  dummy : Entry
  /-- `ents[1:]`. -/
  ents : List Entry
  deriving DecidableEq

namespace MemoryStorage

def new : MemoryStorage := ⟨emptySnapshot, place 0 0, []⟩

variable (ms : MemoryStorage)

def firstIndex : ℕ := ms.dummy.index + 1

def lastIndex : ℕ := ms.dummy.index + ms.ents.length

/-- `ErrSnapOutOfDate` is ignored by the caller. -/
def applySnapshot (snap : Snapshot) : MemoryStorage :=
  if snap.index ≤ ms.snapshot.index then ms else ⟨snap, place snap.term snap.index, []⟩

def createSnapshot (i : ℕ) (cs : List ℕ) (data : Str) : Except Crash (Snapshot × MemoryStorage) :=
  if i ≤ ms.snapshot.index then
    .error (.panic "requested index is older than the existing snapshot" [])
  else if ms.lastIndex < i then
    .error (.panic "snapshot %d is out of bound lastindex(%d)" [i, ms.lastIndex])
  else match (ms.dummy :: ms.ents)[sub64 i ms.dummy.index]? with
    | none => .error (.panic "runtime error: index out of range" [])
    | some e => .ok (⟨i, e.term, cs, data⟩, { ms with snapshot := ⟨i, e.term, cs, data⟩ })

def compact (compactIndex : ℕ) : Except Crash MemoryStorage :=
  if compactIndex ≤ ms.dummy.index then
    .error (.panic "requested index is unavailable due to compaction" [])
  else if ms.lastIndex < compactIndex then
    .error (.panic "compact %d is out of bound lastindex(%d)" [compactIndex, ms.lastIndex])
  else match (ms.dummy :: ms.ents)[compactIndex - ms.dummy.index]? with
    | none => .error (.panic "runtime error: index out of range" [])
    | some e => .ok { ms with
        dummy := place e.term e.index
        ents := ms.ents.drop (compactIndex - ms.dummy.index) }

/-- Entries that are not in storage yet, put in their place. -/
def splice (entries : List Entry) : Except Crash MemoryStorage :=
  match entries with
  | [] => .error (.panic "runtime error: index out of range" [])
  | e :: rest =>
    if sub64 e.index ms.dummy.index ≤ ms.ents.length + 1 then
      match (ms.dummy :: ms.ents).take (sub64 e.index ms.dummy.index) with
      | [] => .ok { ms with dummy := e, ents := rest }
      | dummy :: ents => .ok { ms with dummy := dummy, ents := ents ++ entries }
    else .error (.panic "missing log entry [last: %d, append at: %d]" [ms.lastIndex, e.index])

def append (entries : List Entry) : Except Crash MemoryStorage :=
  match entries with
  | [] => .ok ms
  | e :: _ =>
    if e.index + entries.length - 1 < ms.firstIndex then .ok ms
    else if e.index < ms.firstIndex then ms.splice (entries.drop (ms.firstIndex - e.index))
    else ms.splice entries

end MemoryStorage

/-! ## The write-ahead log -/

/-- The entries that `ReadAll` makes of the records, read from index 0. Over a gap there is no
saying what the slice `ents[:e.Index-1]` has: this is up to its capacity. -/
def readAll (wal : List Entry) : Option (List Entry) :=
  wal.foldlM (fun ents e =>
    if e.index = 0 then some ents
    else if e.index ≤ ents.length + 1 then some (ents.take (e.index - 1) ++ [e])
    else none) []

end DistSystem.Etcd
