import Mathlib.Data.List.FinRange
import Mathlib.Data.List.Sort

/-!
# A server of `raft.go`

The functions of `raft.go` as the event loop runs them, on the state of one server. A function
that can panic returns the state it panics in with the message, since the deferred calls still
run on that state; so does an index out of range, and `log.Fatal`, which runs no deferred calls.
A server's number is a `Fin n`, `None` is `none`, and what a step sends is returned as a list.
Terms and indices are natural numbers where Go has `int`, which is the same in runs of fewer than
2^63 steps. The draw of `globalRand` is an argument. Logging is left out, and so are
`replyNextIndex`, `votedCount` and the channels nothing here reads; `tick` and `step` follow from
`state`.
-/

namespace DistSystem

variable {n : ℕ} {C : Type}

inductive RaftState where
  | stateFollower
  | stateCandidate
  | stateLeader
  deriving DecidableEq, Repr

/-- A log entry; `command` is an `interface{}`, `none` the nil one. -/
structure Log (C : Type) where
  term : ℕ
  command : Option C
  index : ℕ
  deriving DecidableEq, Repr

structure ApplyMsg (C : Type) where
  index : ℕ
  command : Option C
  deriving DecidableEq, Repr

structure RequestVoteArgs (n : ℕ) where
  term : ℕ
  candidateId : Fin n
  lastLogIndex : ℕ
  lastLogTerm : ℕ
  deriving DecidableEq, Repr

structure RequestVoteReply where
  term : ℕ := 0
  voteGranted : Bool := false
  deriving DecidableEq, Repr

structure AppendEntiesArgs (n : ℕ) (C : Type) where
  term : ℕ
  leaderId : Fin n
  leaderCommit : ℕ
  prevLogIndex : ℕ
  prevLogTerm : ℕ
  entries : List (Log C)
  deriving DecidableEq, Repr

structure AppendEntiesReply where
  term : ℕ := 0
  success : Bool := false
  nextIndex : ℕ := 0
  followerCommitIndex : ℕ := 0
  conflictTerm : ℤ := 0
  conflictIndex : ℤ := 0
  deriving DecidableEq, Repr

/-- A request on its way to the server `dst`, or a response with the arguments it answers. -/
inductive Message (n : ℕ) (C : Type) where
  | msgVote (dst : Fin n) (args : RequestVoteArgs n)
  | msgApp (dst : Fin n) (args : AppendEntiesArgs n C)
  | msgVoteResp (src dst : Fin n) (args : RequestVoteArgs n) (reply : RequestVoteReply)
  | msgAppResp (src dst : Fin n) (args : AppendEntiesArgs n C) (reply : AppendEntiesReply)
  deriving DecidableEq, Repr

namespace Message

/-- `m.Term`: a request has its arguments' term, a response its reply's. -/
def term : Message n C → ℕ
  | msgVote _ args => args.term
  | msgApp _ args => args.term
  | msgVoteResp _ _ _ reply => reply.term
  | msgAppResp _ _ _ reply => reply.term

/-- `m.To`. -/
def dst : Message n C → Fin n
  | msgVote d _ => d
  | msgApp d _ => d
  | msgVoteResp _ d _ _ => d
  | msgAppResp _ d _ _ => d

def isResp : Message n C → Bool
  | msgVote _ _ => false
  | msgApp _ _ => false
  | msgVoteResp _ _ _ _ => true
  | msgAppResp _ _ _ _ => true

/-- The term the request was sent in. -/
def argsTerm : Message n C → ℕ
  | msgVote _ args => args.term
  | msgApp _ args => args.term
  | msgVoteResp _ _ args _ => args.term
  | msgAppResp _ _ args _ => args.term

end Message

/-- What `persist` encodes. -/
structure RaftStateData (n : ℕ) (C : Type) where
  currentTerm : ℕ
  log : List (Log C)
  votedFor : Option (Fin n)
  deriving DecidableEq, Repr

structure Raft (n : ℕ) (C : Type) where
  me : Fin n
  persister : Option (RaftStateData n C)
  currentTerm : ℕ
  votedFor : Option (Fin n)
  log : List (Log C)
  commitIndex : ℕ
  lastApplied : ℕ
  nextIndex : Fin n → ℕ
  matchIndex : Fin n → ℕ
  state : RaftState
  electionElapsed : ℕ
  heartbeatElapsed : ℕ
  randomizedElectionTimeout : ℕ
  lead : Option (Fin n)
  votes : Fin n → Option Bool
  /-- The value the event loop is blocked on sending. -/
  commitc : Option ℕ
  /-- Where `stateMachine` is in a batch: the next index and the last. -/
  applying : Option (ℕ × ℕ)
  /-- What `stateMachine` has sent. -/
  applyCh : List (ApplyMsg C)

structure Panic (n : ℕ) (C : Type) where
  raft : Raft n C
  msg : String
  fatal : Bool := false

abbrev Go (n : ℕ) (C : Type) := Except (Panic n C)

def electionTimeout : ℕ := 10

def heartbeatTimeout : ℕ := 5

namespace Raft

variable (r : Raft n C)

/-- `r.log[i]`. -/
def entry (i : ℕ) : Go n C (Log C) :=
  match r.log[i]? with
  | some e => .ok e
  | none => .error ⟨r, "index out of range", false⟩

/-- The log is never empty, so its last entry is there; the default is `Log{}`. -/
def lastLog : Log C := r.log.getLastD ⟨0, none, 0⟩

def lastIndex : ℕ := r.lastLog.index

def lastTerm : Go n C ℕ := do
  return (← r.entry r.lastIndex).term

def quorum (_ : Raft n C) : ℕ := n / 2 + 1

def persist : Raft n C := { r with persister := some ⟨r.currentTerm, r.log, r.votedFor⟩ }

/-- Decoding gives back what was encoded; there is nothing to decode before the first
`persist`. -/
def readPersist (data : Option (RaftStateData n C)) : Raft n C :=
  match data with
  | none => r
  | some d => { r with currentTerm := d.currentTerm, log := d.log, votedFor := d.votedFor }

def reqMoreUpToDate (args : RequestVoteArgs n) : Bool :=
  args.lastLogTerm > r.lastLog.term ||
    (args.lastLogTerm == r.lastLog.term && args.lastLogIndex ≥ r.lastLog.index)

/-- The new commit index stays in `commitc` until `stateMachine` takes it. -/
def commitTo (tocommit : ℕ) : Go n C (Raft n C) :=
  if tocommit > r.lastIndex then .error ⟨r, " tocommit > r.lastIndex() ", false⟩
  else if r.commitIndex < tocommit then
    .ok { r with commitIndex := tocommit, commitc := some tocommit }
  else .ok r

def updateCommitIndex : Go n C (Raft n C) :=
  let mis := (List.ofFn r.matchIndex).insertionSort (· ≥ ·)
  match mis[r.quorum - 1]? with
  | none => .error ⟨r, "index out of range", false⟩
  | some mci =>
    if mci > r.commitIndex then do
      if (← r.entry mci).term == r.currentTerm then r.commitTo mci else return r
    else return r

/-! ## Changing state -/

def resetRandomizedElectionTimeout (rnd : ℕ) : Raft n C :=
  { r with randomizedElectionTimeout := electionTimeout + rnd % electionTimeout }

def sentinel : Log C := ⟨1, none, 0⟩

def reset (rnd term : ℕ) : Raft n C :=
  let r := if r.currentTerm ≠ term then { r with currentTerm := term, votedFor := none } else r
  let r := { r with lead := none, heartbeatElapsed := 0, electionElapsed := 0 }
  let r := r.resetRandomizedElectionTimeout rnd
  { r with
    votes := fun _ => none
    log := if r.log = [] then [sentinel] else r.log
    nextIndex := fun _ => 0
    matchIndex := fun _ => 0 }

def becomeFollower (rnd term : ℕ) (lead : Option (Fin n)) : Raft n C :=
  { r.reset rnd term with state := .stateFollower, lead := lead }

def becomeCandidate (rnd : ℕ) : Go n C (Raft n C) :=
  if r.state = .stateLeader then .error ⟨r, "invalid transition [leader -> candidate]", false⟩
  else .ok { r.reset rnd (r.currentTerm + 1) with votedFor := some r.me, state := .stateCandidate }

def becomeLeader (rnd : ℕ) : Go n C (Raft n C) :=
  if r.state = .stateFollower then
    .error ⟨r, "invalid transition [follower -> leader]", false⟩
  else .ok { r.reset rnd r.currentTerm with
    lead := some r.me
    state := .stateLeader
    nextIndex := fun _ => r.log.length }

/-- How many of the recorded answers are `v`. -/
def countVotes (v : Bool) : ℕ := (List.finRange n).countP fun i => r.votes i = some v

def poll (id : Fin n) (v : Bool) : Raft n C × ℕ :=
  let r := if r.votes id = none then { r with votes := Function.update r.votes id (some v) } else r
  (r, r.countVotes true)

/-- `rf := &Raft{}` with what `Make` sets before `becomeFollower`. -/
def zero (me : Fin n) (persister : Option (RaftStateData n C)) : Raft n C where
  me := me
  persister := persister
  currentTerm := 0
  votedFor := none
  log := []
  commitIndex := 0
  lastApplied := 0
  nextIndex := fun _ => 0
  matchIndex := fun _ => 0
  state := .stateFollower
  electionElapsed := 0
  heartbeatElapsed := 0
  randomizedElectionTimeout := 0
  lead := none
  votes := fun _ => none
  commitc := none
  applying := none
  applyCh := []

def make (me : Fin n) (persister : Option (RaftStateData n C)) (rnd : ℕ) : Raft n C :=
  ((zero me persister).becomeFollower rnd 1 none).readPersist persister

/-! ## Sending -/

def peers : List (Fin n) := (List.finRange n).filter (· ≠ r.me)

def bcastRequestVoteRPC : Go n C (Raft n C × List (Message n C)) := do
  let r := r.persist
  let msgs ← r.peers.mapM fun i => do
    return .msgVote i ⟨r.currentTerm, r.me, r.lastIndex, ← r.lastTerm⟩
  return (r, msgs)

def appendArgs (i : Fin n) : Go n C (AppendEntiesArgs n C) :=
  let prevLogIndex : ℤ := r.nextIndex i - 1
  if prevLogIndex < 0 ∨ prevLogIndex > r.lastIndex then
    .error ⟨r, "prevLogIndex < 0 || prevLogIndex  > rf.lastIndex() ", false⟩
  else do
    let e ← r.entry prevLogIndex.toNat
    return ⟨r.currentTerm, r.me, r.commitIndex, prevLogIndex.toNat, e.term,
      r.log.drop (prevLogIndex.toNat + 1)⟩

def bcastAppend : Go n C (Raft n C × List (Message n C)) := do
  let r := r.persist
  let msgs ← r.peers.mapM fun i => do return .msgApp i (← r.appendArgs i)
  return (r, msgs)

/-- Start an election. -/
def campaign (rnd : ℕ) : Go n C (Raft n C × List (Message n C)) := do
  let r ← r.becomeCandidate rnd
  let (r, granted) := r.poll r.me true
  if r.quorum == granted then
    let r ← r.becomeLeader rnd
    return (r, [])
  else r.bcastRequestVoteRPC

def tickElection (rnd : ℕ) : Go n C (Raft n C × List (Message n C)) :=
  let r := { r with electionElapsed := r.electionElapsed + 1 }
  if r.electionElapsed ≥ r.randomizedElectionTimeout then
    { r with electionElapsed := 0 }.campaign rnd
  else .ok (r, [])

def tickHeartbeat : Go n C (Raft n C × List (Message n C)) :=
  let r := { r with heartbeatElapsed := r.heartbeatElapsed + 1 }
  if r.heartbeatElapsed ≥ heartbeatTimeout then { r with heartbeatElapsed := 0 }.bcastAppend
  else .ok (r, [])

def tick (rnd : ℕ) : Go n C (Raft n C × List (Message n C)) :=
  if r.state = .stateLeader then r.tickHeartbeat else r.tickElection rnd

/-! ## Following a leader -/

def matchTerm (index term : ℕ) : Go n C Bool :=
  if index ≤ r.lastIndex then do return (← r.entry index).term == term
  else return false

def findConflict : List (Log C) → Go n C ℕ
  | [] => return 0
  | ne :: ents => do
    if ← r.matchTerm ne.index ne.term then findConflict ents else return ne.index

def appendLog (ents : List (Log C)) : Go n C (Raft n C) :=
  match ents with
  | [] => .ok r
  | e :: _ =>
    if (e.index : ℤ) - 1 < r.commitIndex then .error ⟨r, "appendLog", false⟩
    else if r.log.length < e.index then .error ⟨r, "slice bounds out of range", false⟩
    else .ok { r with log := r.log.take e.index ++ ents }

/-- `checkLog`: every entry carries its own position. -/
def checkLog : Go n C Unit :=
  if r.log.map Log.index = List.range r.log.length then .ok ()
  else .error ⟨r, "error log index", true⟩

/-- The reply to a request from before what is committed here. -/
def appendUnordered : AppendEntiesReply :=
  { term := r.currentTerm, success := true, nextIndex := r.commitIndex + 1,
    followerCommitIndex := r.commitIndex }

/-- The `switch` on the first conflicting index `ci`. -/
def appendFrom (args : AppendEntiesArgs n C) (ci : ℕ) : Go n C (Raft n C) :=
  let offset := args.prevLogIndex + 1
  if ci = 0 then .ok r
  else if ci ≤ r.commitIndex then .error ⟨r, "ci <= r.commitIndex", false⟩
  else if ci < offset ∨ args.entries.length < ci - offset then
    .error ⟨r, "slice bounds out of range", false⟩
  else r.appendLog (args.entries.drop (ci - offset))

def commitLeader (leaderCommit : ℕ) : Go n C (Raft n C) :=
  if leaderCommit > r.commitIndex then
    if leaderCommit > r.lastIndex then .error ⟨r, "args.LeaderCommit > rf.lastIndex()", false⟩
    else r.commitTo leaderCommit
  else .ok r

/-- The branch where the entry before the new ones is here. -/
def appendMatched (args : AppendEntiesArgs n C) : Go n C (Raft n C × AppendEntiesReply) := do
  let nexti := args.prevLogIndex + args.entries.length + 1
  let ci ← r.findConflict args.entries
  let r ← r.appendFrom args ci
  r.checkLog
  let r ← r.commitLeader args.leaderCommit
  return (r, { term := r.currentTerm, success := true, nextIndex := nexti,
               followerCommitIndex := r.commitIndex })

/-- `ConflictTerm` and `ConflictIndex`. The loop that looks for the first entry of the conflicting
term counts in a variable of its own, so the index that is sent stays 0. -/
def conflictAt (prevLogIndex : ℕ) : Go n C (ℤ × ℤ) :=
  if prevLogIndex ≤ r.lastIndex then do return ((← r.entry prevLogIndex).term, 0)
  else return (-1, -1)

/-- The branch where it is not. -/
def appendMismatched (args : AppendEntiesArgs n C) : Go n C (Raft n C × AppendEntiesReply) := do
  let conflict ← r.conflictAt args.prevLogIndex
  let nextIndex : ℤ := min ((r.commitIndex : ℤ) + 1) ((args.prevLogIndex : ℤ) - 1)
  return (r, { term := r.currentTerm, success := false,
               nextIndex := if nextIndex < 1 then 1 else nextIndex.toNat,
               followerCommitIndex := r.commitIndex,
               conflictTerm := conflict.1, conflictIndex := conflict.2 })

/-- The deferred check of `handleAppendEntries`. -/
def checkNextIndex (reply : AppendEntiesReply) : Go n C (Raft n C × AppendEntiesReply) :=
  if reply.nextIndex > r.lastIndex + 1 then
    .error ⟨r, "reply.NextIndex > rf.lastIndex() + 1", false⟩
  else .ok (r, reply)

def handleAppendEntries (args : AppendEntiesArgs n C) : Go n C (Raft n C × AppendEntiesReply) :=
  let r := { r with electionElapsed := 0, lead := some args.leaderId }
  if args.prevLogIndex < r.commitIndex then r.checkNextIndex r.appendUnordered
  else do
    let found ← r.matchTerm args.prevLogIndex args.prevLogTerm
    let (r, reply) ← if found then r.appendMatched args else r.appendMismatched args
    if reply.nextIndex < 1 then .error ⟨r, "reply.NextIndex < 1", false⟩
    else r.checkNextIndex reply

/-! ## Steps -/

def stepFollower : Message n C → Go n C (Raft n C × List (Message n C))
  | .msgVote _ args =>
    if (r.votedFor = none ∨ r.votedFor = some args.candidateId) ∧ r.reqMoreUpToDate args then
      .ok ({ r with electionElapsed := 0, votedFor := some args.candidateId },
        [.msgVoteResp r.me args.candidateId args ⟨r.currentTerm, true⟩])
    else .ok (r, [.msgVoteResp r.me args.candidateId args ⟨r.currentTerm, false⟩])
  | .msgApp _ args => do
    let (r, reply) ← r.handleAppendEntries args
    return (r, [.msgAppResp r.me args.leaderId args reply])
  | _ => .ok (r, [])

def stepCandidate (rnd : ℕ) : Message n C → Go n C (Raft n C × List (Message n C))
  | .msgApp _ args => do
    let r := r.becomeFollower rnd r.currentTerm (some args.leaderId)
    let (r, reply) ← r.handleAppendEntries args
    return (r, [.msgAppResp r.me args.leaderId args reply])
  | .msgVote _ args => .ok (r, [.msgVoteResp r.me args.candidateId args ⟨r.currentTerm, false⟩])
  | .msgVoteResp src _ _ reply =>
    let (r, gr) := r.poll src reply.voteGranted
    if r.quorum = gr then do
      let r ← r.becomeLeader rnd
      r.bcastAppend
    else if r.quorum = r.countVotes false then
      .ok (r.becomeFollower rnd r.currentTerm none, [])
    else .ok (r, [])
  | .msgAppResp _ _ _ _ => .ok (r, [])

/-- The scan for the last entry of term `t` at `i` or below, 0 if there is none. -/
def scanTerm (t : ℤ) : ℕ → Go n C ℕ
  | 0 => return 0
  | i + 1 => do
    if ((← r.entry (i + 1)).term : ℤ) = t then return i + 1 else scanTerm t i

/-- A leader's handling of an answer to a request of its own. -/
def handleAppResp (src : Fin n) (args : AppendEntiesArgs n C) (reply : AppendEntiesReply) :
    Go n C (Raft n C) :=
  if reply.nextIndex > r.lastIndex + 1 then
    .error ⟨r, "reply.NextIndex > r.lastIndex()+1", false⟩
  else if reply.success then
    if reply.nextIndex ≥ r.nextIndex src then
      { r with
        nextIndex := Function.update r.nextIndex src reply.nextIndex
        matchIndex := Function.update r.matchIndex src (reply.nextIndex - 1) }.updateCommitIndex
    else .ok r
  else do
    let nexti ← r.scanTerm reply.conflictTerm (args.prevLogIndex - 1)
    if nexti = 0 ∧ reply.conflictIndex > 0 then
      return { r with
        nextIndex := Function.update r.nextIndex src reply.conflictIndex.toNat }
    else return { r with nextIndex := Function.update r.nextIndex src reply.nextIndex }

/-- A request the leader does not handle is answered by the zero reply. -/
def stepLeader : Message n C → Go n C (Raft n C × List (Message n C))
  | .msgAppResp src _ args reply => do return (← r.handleAppResp src args reply, [])
  | .msgVoteResp _ _ _ _ => .ok (r, [])
  | .msgVote _ args => .ok (r, [.msgVoteResp r.me args.candidateId args {}])
  | .msgApp _ args => .ok (r, [.msgAppResp r.me args.leaderId args {}])

/-- `r.step(r, m)`. -/
def stepState (rnd : ℕ) (m : Message n C) : Go n C (Raft n C × List (Message n C)) :=
  match r.state with
  | .stateFollower => r.stepFollower m
  | .stateCandidate => r.stepCandidate rnd m
  | .stateLeader => r.stepLeader m

/-- The answer to a message from an earlier term. -/
def stepStale : Message n C → List (Message n C)
  | .msgApp _ args => [.msgAppResp r.me args.leaderId args
      { term := r.currentTerm, success := false, nextIndex := r.commitIndex + 1 }]
  | .msgVote _ args => [.msgVoteResp r.me args.candidateId args ⟨r.currentTerm, false⟩]
  | _ => []

def stepTerm (rnd : ℕ) (m : Message n C) : Go n C (Raft n C × List (Message n C)) :=
  if m.term > r.currentTerm then (r.becomeFollower rnd m.term none).stepState rnd m
  else if m.term < r.currentTerm then .ok (r, r.stepStale m)
  else r.stepState rnd m

/-- `Step`: handle a message, then persist, also when handling it panics. -/
def step (rnd : ℕ) (m : Message n C) : Go n C (Raft n C × List (Message n C)) :=
  match r.stepTerm rnd m with
  | .ok (r, msgs) => .ok (r.persist, msgs)
  | .error e => .error (if e.fatal then e else { e with raft := e.raft.persist })

/-! ## Commands -/

/-- What `Start` returns. -/
structure StartReply where
  index : ℤ
  term : ℤ
  isLeader : Bool
  deriving DecidableEq, Repr

def handleStart (command : Option C) :
    Go n C (Raft n C × List (Message n C) × StartReply) :=
  if r.state ≠ .stateLeader then .ok (r, [], ⟨-1, -1, false⟩)
  else do
    let term := r.currentTerm
    let index := r.log.length
    let r := { r with
      log := r.log ++ [Log.mk term command index]
      nextIndex := Function.update r.nextIndex r.me (index + 1)
      matchIndex := Function.update r.matchIndex r.me index }
    let (r, msgs) ← r.bcastAppend
    return (r, msgs, ⟨index, term, true⟩)

/-! ## The state machine -/

/-- One step of the `stateMachine` goroutine: receive a commit index, send the next entry of the
batch, or end the batch. -/
def stateMachine : Go n C (Raft n C) :=
  match r.applying with
  | none =>
    match r.commitc with
    | none => .ok r
    | some commitIndex =>
      let r := { r with commitc := none }
      if commitIndex > r.lastApplied then
        if r.lastIndex < commitIndex then .error ⟨r, "stateMachine error", false⟩
        else .ok { r with applying := some (r.lastApplied + 1, commitIndex) }
      else .ok r
  | some (i, commitIndex) =>
    if i ≤ commitIndex then do
      let e ← r.entry i
      return { r with
        applyCh := r.applyCh ++ [⟨e.index, e.command⟩]
        applying := some (i + 1, commitIndex) }
    else .ok { r with lastApplied := commitIndex, applying := none }

end Raft

end DistSystem
