import DistSystem.Etcd.Codec
import DistSystem.Lib.Interleaving

/-!
# A node

`raftNode` with the loop of `serveChannels`, `kvstore` with the goroutine that is in `readCommits`,
and the disk that outlives them. The two goroutines meet in the sends on `commitC`, which has no
buffer; a step is one such meeting, or what one of them does up to its next access to something
that the other one uses. The raft library hands out one `Ready` after another. The process may end
at any time, and starts again from the disk.
-/

namespace DistSystem.Etcd

open MapReduce (Str)

def defaultSnapCount : ℕ := 10000

def snapshotCatchUpEntriesN : ℕ := 10000

namespace Entry

/-- What is sent on `commitC`, if it is not empty. -/
def data (e : Entry) : Str :=
  match e.payload with
  | .normal data => data
  | .confChange _ => []

/-- A change that takes the node itself out of the cluster. -/
def Removes (id : ℕ) (e : Entry) : Prop := e.payload = .confChange ⟨.removeNode, id⟩

instance removesDecidable (id : ℕ) (e : Entry) : Decidable (e.Removes id) :=
  inferInstanceAs (Decidable (_ = _))

end Entry

/-! ## raftNode -/

structure RaftNode where
  id : ℕ
  /-- The index of the log at the start. -/
  lastIndex : ℕ
  confState : List ℕ
  snapshotIndex : ℕ
  appliedIndex : ℕ
  raftStorage : MemoryStorage

namespace RaftNode

/-- The node when `serveChannels` starts, with the entries of the write-ahead log in storage. -/
def new (id : ℕ) (ents : List Entry) (storage : MemoryStorage) : RaftNode where
  id := id
  lastIndex := (ents.getLast?.map Entry.index).getD 0
  confState := storage.snapshot.confState
  snapshotIndex := storage.snapshot.index
  appliedIndex := storage.snapshot.index
  raftStorage := storage

variable (rc : RaftNode)

def entriesToApply (ents : List Entry) : Except Crash (List Entry) :=
  match ents with
  | [] => .ok []
  | e :: _ =>
    if add64 rc.appliedIndex 1 < e.index then
      .error (.fatal "first index of committed entry[%d] should <= progress.appliedIndex[%d] 1"
        [e.index, rc.appliedIndex])
    else if add64 (sub64 rc.appliedIndex e.index) 1 < ents.length then
      .ok (ents.drop (add64 (sub64 rc.appliedIndex e.index) 1))
    else .ok []

/-- The end of `publishSnapshot`. -/
def publishSnapshot (snap : Snapshot) : RaftNode :=
  { rc with
    confState := snap.confState
    snapshotIndex := snap.index
    appliedIndex := snap.index }

/-- `maybeTriggerSnapshot` goes on. -/
def Due : Prop := defaultSnapCount < sub64 rc.appliedIndex rc.snapshotIndex

instance dueDecidable : Decidable rc.Due := inferInstanceAs (Decidable (_ < _))

def createSnapshot (data : Str) : Except Crash (Snapshot × RaftNode) :=
  match rc.raftStorage.createSnapshot rc.appliedIndex rc.confState data with
  | .error c => .error c
  | .ok (snap, storage) => .ok (snap, { rc with raftStorage := storage })

def compactIndex : ℕ :=
  if snapshotCatchUpEntriesN < rc.appliedIndex then rc.appliedIndex - snapshotCatchUpEntriesN
  else 1

/-- The end of `maybeTriggerSnapshot`. -/
def compact : Except Crash RaftNode :=
  match rc.raftStorage.compact rc.compactIndex with
  | .error c => .error c
  | .ok storage => .ok { rc with raftStorage := storage, snapshotIndex := rc.appliedIndex }

end RaftNode

/-! ## kvstore -/

def nilDereference : Crash :=
  .panic "runtime error: invalid memory address or nil pointer dereference" []

namespace Codec

variable (C : Codec)

/-- The end of the loop of `readCommits`. -/
def storeCommit (store : Store) (data : Str) : Except Crash Store :=
  match C.decode data with
  | none => .error (.fatal "raftexample: could not decode message (%v)" [])
  | some kv => .ok (store.insert kv.key kv.val)

def recoverFromSnapshot (data : Str) : Except Crash Store :=
  match C.unmarshal data with
  | none => .error (.panic "%v" [])
  | some store => .ok store

/-- What `readCommits` makes of a nil, with `newest` on disk. It returns if there is no snapshot;
otherwise it goes on to `*data`. -/
def handleNil (newest : Option Snapshot) (store : Store) : Except Crash Store :=
  match newest with
  | none => .ok store
  | some snap => do
    let _ ← C.recoverFromSnapshot snap.data
    .error nilDereference

end Codec

/-- Where `readCommits` is. -/
inductive Reader where
  /-- At the receive from `commitC`. -/
  | receiving
  | decoding (data : Str)
  /-- Has received nil and is before `Load`. -/
  | loading
  /-- Before `recoverFromSnapshot`. -/
  | loaded (snap : Snapshot)
  /-- After `recoverFromSnapshot`, with the nil pointer still to be read. -/
  | recovered
  | returned
  deriving DecidableEq

/-- Where the goroutine of `raftNode` is. -/
inductive Loop where
  /-- In `replayWAL`, at the send of nil for an empty log. -/
  | replaying
  /-- At the select of `serveChannels`. -/
  | selecting
  /-- The entries are in the write-ahead log; there is a snapshot to save and to apply. -/
  | installing (rd : Ready)
  /-- In `publishSnapshot`. -/
  | announcing (rd : Ready)
  /-- Before `raftStorage.Append`. -/
  | appending (rd : Ready)
  /-- In `publishEntries` with these entries left; with none left, before
  `maybeTriggerSnapshot`. -/
  | publishing (ents : List Entry)
  /-- In `publishEntries` at the send of nil. -/
  | signalling (ents : List Entry)
  /-- `commitC` is closed; in `writeError` there is an error to send. -/
  | stopped (failed : Bool)
  deriving DecidableEq

/-- The goroutine is at a select with `<-rc.stopc`. -/
def Loop.stoppable : Loop → Bool
  | .selecting => true
  | .publishing (e :: _) => e.data ≠ []
  | .signalling _ => true
  | _ => false

/-! ## The node as a whole -/

structure System where
  /-- The records of the write-ahead log. -/
  wal : List Entry
  /-- The snapshot that `Load` returns: the raft library hands out a snapshot only past what is
  committed, so this is the one saved last. -/
  newest : Option Snapshot
  rc : RaftNode
  loop : Loop
  /-- `stopc` is closed. -/
  stopc : Bool
  kvStore : Store
  reader : Reader
  /-- `readCommits` runs in a goroutine of its own. -/
  second : Bool
  /-- `kvs` is assigned. -/
  kvs : Bool
  crash : Option Crash

inductive Event where
  /-- `replayWAL` sends nil. -/
  | replay
  /-- A `Ready` comes in; `wal.Save`. -/
  | ready (rd : Ready)
  /-- `saveSnap` and `ApplySnapshot`. -/
  | install
  /-- `publishSnapshot` sends nil, and sets the fields of `rc`. -/
  | publishSnapshot (snap : Snapshot)
  /-- `publishSnapshot` finds a snapshot that is not new. -/
  | refuseSnapshot
  /-- `raftStorage.Append` and `entriesToApply`. -/
  | append
  /-- `publishEntries` has an entry that is not sent. -/
  | apply (e : Entry)
  /-- `publishEntries` sends an entry. -/
  | send (e : Entry)
  /-- `publishEntries` finds the node removed. -/
  | remove (e : Entry)
  /-- `publishEntries` sends nil. -/
  | signal
  /-- `maybeTriggerSnapshot` returns at once. -/
  | skipSnapshot
  /-- `maybeTriggerSnapshot` calls `getSnapshot`, saves and compacts. Nothing after `getSnapshot`
  depends on the reader, which cannot receive meanwhile. -/
  | snapshot
  /-- `proposeC` or `confChangeC` is closed. -/
  | closeStopc
  /-- `<-rc.stopc`. -/
  | stop
  /-- `<-rc.transport.ErrorC`. -/
  | transportError
  /-- The reader stores what it has received. -/
  | store
  /-- `Load`. -/
  | load
  /-- `recoverFromSnapshot`. -/
  | recover
  /-- `*data`. -/
  | dereference
  /-- The reader finds `commitC` closed. -/
  | drain
  /-- `go s.readCommits`. -/
  | spawn
  /-- `main` assigns `kvs`. -/
  | assign
  /-- The process starts again, with what `ReadAll` returns. -/
  | restart (read : Except Crash (List Entry))

namespace System

/-- The start of a process on a disk. -/
def boot (id : ℕ) (wal : List Entry) (newest : Option Snapshot)
    (read : Except Crash (List Entry)) : System :=
  let fresh : System :=
    { wal := wal
      newest := newest
      rc := .new id [] .new
      loop := .replaying
      stopc := false
      kvStore := ∅
      reader := .receiving
      second := false
      kvs := false
      crash := none }
  match read with
  | .error c => { fresh with crash := some c }
  | .ok [] => fresh
  | .ok (e :: ents) =>
    match MemoryStorage.new.append (e :: ents) with
    | .error c => { fresh with crash := some c }
    | .ok storage => { fresh with rc := .new id (e :: ents) storage, loop := .selecting }

/-- A node that has never run. -/
def start (id : ℕ) : System := boot id [] none (.ok [])

variable (C : Codec) (s : System)

def fail (c : Crash) : System := { s with crash := some c }

/-- `publishEntries` is done with `e`. -/
def advance (e : Entry) (ents : List Entry) : System :=
  { s with
    rc := { s.rc with appliedIndex := e.index }
    loop := if e.index = s.rc.lastIndex then .signalling ents else .publishing ents }

/-- The snapshot that `maybeTriggerSnapshot` saves, with the node after it. -/
def saving : Except Crash (Snapshot × RaftNode) :=
  if s.kvs then s.rc.createSnapshot (C.marshal s.kvStore) else .error nilDereference

/-- The state after an event, if the event is possible. -/
def next : Event → Option System
  | .replay =>
    if s.loop = .replaying ∧ s.reader = .receiving then
      some { s with loop := .selecting, reader := .loading }
    else none
  | .ready rd =>
    if s.loop = .selecting then
      some { s with
        wal := s.wal ++ rd.entries
        loop := if rd.snapshot.index = 0 then .appending rd else .installing rd }
    else none
  | .install =>
    match s.loop with
    | .installing rd => some { s with
        newest := some rd.snapshot
        rc := { s.rc with raftStorage := s.rc.raftStorage.applySnapshot rd.snapshot }
        loop := .announcing rd }
    | _ => none
  | .publishSnapshot snap =>
    match s.loop with
    | .announcing rd =>
      if snap = rd.snapshot ∧ s.rc.appliedIndex < snap.index ∧ s.reader = .receiving then
        some { s with
          rc := s.rc.publishSnapshot snap
          loop := .appending rd
          reader := .loading }
      else none
    | _ => none
  | .refuseSnapshot =>
    match s.loop with
    | .announcing rd =>
      if rd.snapshot.index ≤ s.rc.appliedIndex then
        some (s.fail (.fatal "snapshot index [%d] should > progress.appliedIndex [%d] + 1"
          [rd.snapshot.index, s.rc.appliedIndex]))
      else none
    | _ => none
  | .append =>
    match s.loop with
    | .appending rd =>
      match s.rc.raftStorage.append rd.entries with
      | .error c => some (s.fail c)
      | .ok storage =>
        match s.rc.entriesToApply rd.committedEntries with
        | .error c => some (s.fail c)
        | .ok ents => some { s with
            rc := { s.rc with raftStorage := storage }
            loop := .publishing ents }
    | _ => none
  | .apply e =>
    match s.loop with
    | .publishing (e' :: ents) =>
      if e' = e ∧ e.data = [] ∧ ¬ e.Removes s.rc.id then some (s.advance e ents) else none
    | _ => none
  | .send e =>
    match s.loop with
    | .publishing (e' :: ents) =>
      if e' = e ∧ e.data ≠ [] ∧ s.reader = .receiving then
        some { s.advance e ents with reader := .decoding e.data }
      else none
    | _ => none
  | .remove e =>
    match s.loop with
    | .publishing (e' :: _) =>
      if e' = e ∧ e.Removes s.rc.id then some { s with loop := .stopped false } else none
    | _ => none
  | .signal =>
    match s.loop with
    | .signalling ents =>
      if s.reader = .receiving then some { s with loop := .publishing ents, reader := .loading }
      else none
    | _ => none
  | .skipSnapshot =>
    if s.loop = .publishing [] ∧ ¬ s.rc.Due then some { s with loop := .selecting } else none
  | .snapshot =>
    if s.loop = .publishing [] ∧ s.rc.Due then
      match s.saving C with
      | .error c => some (s.fail c)
      | .ok (snap, rc) =>
        match rc.compact with
        | .error c => some { s.fail c with newest := some snap }
        | .ok rc => some { s with newest := some snap, rc := rc, loop := .selecting }
    else none
  | .closeStopc => some { s with stopc := true }
  | .stop =>
    if s.stopc ∧ s.loop.stoppable then some { s with loop := .stopped false } else none
  | .transportError =>
    if s.loop = .selecting then some { s with loop := .stopped true } else none
  | .store =>
    match s.reader with
    | .decoding data =>
      match C.storeCommit s.kvStore data with
      | .error c => some (s.fail c)
      | .ok store => some { s with kvStore := store, reader := .receiving }
    | _ => none
  | .load =>
    if s.reader = .loading then
      match s.newest with
      | none => some { s with reader := .returned }
      | some snap => some { s with reader := .loaded snap }
    else none
  | .recover =>
    match s.reader with
    | .loaded snap =>
      match C.recoverFromSnapshot snap.data with
      | .error c => some (s.fail c)
      | .ok store => some { s with kvStore := store, reader := .recovered }
    | _ => none
  | .dereference => if s.reader = .recovered then some (s.fail nilDereference) else none
  | .drain =>
    match s.loop with
    | .stopped failed =>
      if s.reader = .receiving then
        if failed then some (s.fail (.fatal "%v" [])) else some { s with reader := .returned }
      else none
    | _ => none
  | .spawn =>
    if s.reader = .returned ∧ ¬ s.second then
      some { s with second := true, reader := .receiving }
    else none
  | .assign => if s.second ∧ ¬ s.kvs then some { s with kvs := true } else none
  | .restart read =>
    match readAll s.wal with
    | none => some (boot s.rc.id s.wal s.newest read)
    | some ents => if read = .ok ents then some (boot s.rc.id s.wal s.newest read) else none

/-- A step of the system; a process that is gone can only start again. -/
def step (e : Event) (s : System) : Option System :=
  match s.crash, e with
  | none, e => s.next C e
  | some _, .restart read => s.next C (.restart read)
  | some _, _ => none

end System

/-! ## The node on its own -/

/-- A turn of the program, or of what stands in for the reader. -/
inductive Turn where
  | node (e : Event)
  /-- The other end of `commitC` gets to `reader`, with `kvStore` to be saved. -/
  | other (reader : Reader) (kvStore : Store)

namespace Turn

def event : Turn → Option Event
  | node e => some e
  | other _ _ => none

def events (u : List Turn) : List Event := u.filterMap event

end Turn

/-- `raftNode` with anything at the other end of `commitC`: it receives when it likes, and has some
store when it is asked for a snapshot. -/
def System.serve (C : Codec) : Turn → System → Option System
  | .node e, s => s.step C e
  | .other reader kvStore, s =>
    some { s with reader := reader, kvStore := kvStore, kvs := true }

end DistSystem.Etcd
