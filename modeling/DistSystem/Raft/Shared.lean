import DistSystem.Raft.Cluster

/-!
# Requests that share the array of the log

`bcastAppend` puts a slice of `rf.log` into its arguments, and `Call` encodes them later, in the
goroutine that sends the message. Until then the entries are cells of the array that the log is in,
and `append` writes to these in place as long as it has the room. So a server here has its arrays
beside it, a request has the place of its entries, and encoding is an action of its own. In a
cluster (`Cluster`) requests are values, as if each was encoded when it was built.
-/

namespace DistSystem

variable {n : ℕ} {C : Type}

/-- The `len` cells of an array from `off` on. -/
structure Slice where
  array : ℕ
  off : ℕ
  len : ℕ
  deriving DecidableEq, Repr

/-- The arrays that the log of a server has been in, by number. -/
structure Memory (C : Type) where
  arrays : ℕ → List (Log C)
  /-- The array that `rf.log` is in, from the first cell on. -/
  cur : ℕ
  /-- How many cells more than are needed an array gets when it is made. -/
  spare : ℕ → ℕ

namespace Memory

/-- Before there is a log. -/
def empty (spare : ℕ → ℕ) : Memory C := ⟨fun _ => [], 0, spare⟩

variable (m : Memory C)

/-- The log in a new array. -/
def alloc (log : List (Log C)) : Memory C :=
  { m with
    arrays := Function.update m.arrays (m.cur + 1)
      (log ++ List.replicate (m.spare (m.cur + 1)) ⟨0, none, 0⟩)
    cur := m.cur + 1 }

/-- What `append` does to make the log `log`: it writes to the array, if that is long enough. The
cells in front of the new entries have been what they are in `log`. -/
def append (log : List (Log C)) : Memory C :=
  if log.length ≤ (m.arrays m.cur).length then
    { m with arrays := Function.update m.arrays m.cur (log ++ (m.arrays m.cur).drop log.length) }
  else m.alloc log

def read (slice : Slice) : List (Log C) :=
  ((m.arrays slice.array).drop slice.off).take slice.len

end Memory

namespace Message

/-- `rf.log[prevLogIndex + 1:]`, in the arguments of a request that was just built. -/
def slice (m : Memory C) : Message n C → Option Slice
  | .msgApp _ args => some ⟨m.cur, args.prevLogIndex + 1, args.entries.length⟩
  | _ => none

/-- What `Call` encodes: the entries are those the slice has now. -/
def encode (m : Memory C) (slice : Slice) : Message n C → Message n C
  | .msgApp dst args => .msgApp dst { args with entries := m.read slice }
  | msg => msg

/-- The server whose goroutine makes the call. -/
def src : Message n C → Fin n
  | .msgVote _ args => args.candidateId
  | .msgApp _ args => args.leaderId
  | .msgVoteResp src _ _ _ => src
  | .msgAppResp src _ _ _ => src

end Message

/-- A message in flight. Before it is encoded a request has a slice, and in `packet` the entries
that it was built with. -/
structure Parcel (n : ℕ) (C : Type) where
  packet : Packet n C
  slice : Option Slice
  deriving DecidableEq, Repr

/-- Encoding a message as it was built only marks it. -/
theorem Parcel.map_packet_set {net : List (Parcel n C)} {k : ℕ} {pc : Parcel n C}
    (h : net[k]? = some pc) : (net.set k ⟨pc.packet, none⟩).map packet = net.map packet := by
  have hget : (net.map packet)[k]? = some pc.packet := by simp [h]
  obtain ⟨hlt, hpk⟩ := List.getElem?_eq_some_iff.1 hget
  rw [List.map_set, ← hpk, List.set_getElem_self]

/-- A cluster with the arrays of its servers. -/
structure Shared (n : ℕ) (C : Type) where
  nodes : Fin n → Node n C
  memory : Fin n → Memory C
  net : List (Parcel n C)

namespace Shared

inductive Action (n : ℕ) (C : Type) where
  /-- What is done in a cluster. -/
  | act (a : DistSystem.Action n C)
  /-- `Call` encodes the arguments of the `k`-th message. -/
  | encode (k : ℕ)

variable (s : Shared n C)

/-- The servers, and the messages as they were built or encoded. -/
def cluster : Cluster n C := ⟨s.nodes, s.net.map Parcel.packet⟩

/-- The end of an event-loop iteration of `p`. -/
def finish (p : Fin n) (incarnation : ℕ) :
    Go n C (Raft n C × List (Message n C)) → Shared n C
  | .ok (r, msgs) =>
    let memory := (s.memory p).append r.log
    ⟨Function.update s.nodes p { s.nodes p with raft := r }, Function.update s.memory p memory,
      s.net ++ msgs.map fun msg => ⟨⟨msg, incarnation⟩, msg.slice memory⟩⟩
  | .error e => { s with nodes := Function.update s.nodes p ((s.nodes p).fail e) }

/-- The process that built the message is still there. -/
def Sending (pk : Packet n C) : Prop :=
  (s.nodes pk.msg.src).status = .running ∧ (s.nodes pk.msg.src).incarnation = pk.incarnation

instance (pk : Packet n C) : Decidable (s.Sending pk) := inferInstanceAs (Decidable (_ ∧ _))

def exec : Action n C → Shared n C
  | .act (.tick p rnd) =>
    if (s.nodes p).Ready then s.finish p (s.nodes p).incarnation ((s.nodes p).raft.tick rnd)
    else s
  | .act (.deliver k rnd) =>
    match s.net[k]? with
    | some ⟨pk, none⟩ =>
      if s.cluster.CanDeliver pk then
        { s with net := s.net.eraseIdx k }.finish pk.msg.dst pk.incarnation
          ((s.nodes pk.msg.dst).raft.step rnd pk.msg)
      else s
    | _ => s
  | .act (.drop k) => { s with net := s.net.eraseIdx k }
  | .act (.start p command) =>
    if (s.nodes p).Ready then
      s.finish p (s.nodes p).incarnation
        (((s.nodes p).raft.handleStart command).map fun x => (x.1, x.2.1))
    else s
  | .act (.restart p rnd) =>
    if (s.nodes p).status = .running then s
    else
      -- the log that was decoded is in a new array
      let r := Raft.make p (s.nodes p).raft.persister rnd
      { s with
        nodes := Function.update s.nodes p ⟨r, .running, (s.nodes p).incarnation + 1⟩
        memory := Function.update s.memory p ((s.memory p).alloc r.log) }
  -- the others do not change a log and send nothing
  | .act a => { s with nodes := (s.cluster.exec a).nodes }
  | .encode k =>
    match s.net[k]? with
    | some ⟨pk, some slice⟩ =>
      if s.Sending pk then
        let msg := pk.msg.encode (s.memory pk.msg.src) slice
        { s with net := s.net.set k ⟨{ pk with msg := msg }, none⟩ }
      else s
    | _ => s

end Shared

/-- The draws of the first `Make` of each server, the room in its arrays, and the actions in
order. -/
structure SharedSchedule (n : ℕ) (C : Type) where
  rnd : Fin n → ℕ
  spare : Fin n → ℕ → ℕ
  act : ℕ → Shared.Action n C

namespace SharedSchedule

variable (σ : SharedSchedule n C)

def run : ℕ → Shared n C
  | 0 =>
    let raft p := Raft.make p none (σ.rnd p)
    ⟨fun p => ⟨raft p, .running, 0⟩, fun p => (Memory.empty (σ.spare p)).alloc (raft p).log, []⟩
  | t + 1 => (run t).exec (σ.act t)

/-- The server `p` after `t` actions. -/
def raft (t : ℕ) (p : Fin n) : Raft n C := ((σ.run t).nodes p).raft

/-- The schedule of a list of actions, and nothing after them. -/
def ofList (spare : Fin n → ℕ → ℕ) (as : List (Shared.Action n C)) : SharedSchedule n C :=
  ⟨fun _ => 0, spare, fun t => as.getD t (.act .idle)⟩

end SharedSchedule

end DistSystem
