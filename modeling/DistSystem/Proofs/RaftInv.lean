import DistSystem.Lib.ReplogCommit
import DistSystem.Proofs.RaftLeader
import Mathlib.Data.Fintype.Card

/-!
# What holds of a server and of a message

Both are said of the history `τ` of the replicas the servers are: a message in flight was sent
from a state its sender was in, an answer by a state in which what it says was so (`MessageOk`),
and what a server has recorded of the others was so of them at some time before (`RaftOk`).
-/

namespace DistSystem

open Replog (CandidateAt LeaderAt Move Run)

variable {n : ℕ} {C : Type}

/-- The protocol the servers run: a quorum is more than half of them. -/
def protocol (n : ℕ) (C : Type) : Replog.Protocol (Fin n) (Log C) where
  termOf := Log.term
  quorum := {Q | n / 2 + 1 ≤ Q.card}
  base := [Raft.sentinel]
  term₀ := 1
  inter := by
    intro Q Q' hQ hQ'
    simp only [Set.mem_ofPred_eq] at hQ hQ'
    have hlt : (Finset.univ : Finset (Fin n)).card < Q.card + Q'.card := by
      rw [Finset.card_univ, Fintype.card_fin]
      omega
    obtain ⟨v, hv⟩ := Finset.inter_nonempty_of_card_lt_card_add_card (Finset.subset_univ Q)
      (Finset.subset_univ Q') hlt
    exact ⟨v, Finset.mem_inter.1 hv⟩
  base_ne := by simp
  base_le := by simp [Raft.sentinel]
  base_sorted := by simp

@[simp] theorem protocol_termOf (e : Log C) : (protocol n C).termOf e = e.term := rfl

/-- What the servers were at each time. -/
abbrev History (n : ℕ) (C : Type) := ℕ → Fin n → Replog.Replica (Fin n) (Log C)

variable (τ : History n C) (t : ℕ)

/-! ## Messages -/

/-- A candidate sent this request. -/
def VoteRequested (args : RequestVoteArgs n) : Prop :=
  ∃ u ≤ t, CandidateAt τ u args.candidateId args.term ∧
    args.lastLogIndex + 1 = (τ u args.candidateId).log.length ∧
    args.lastLogTerm = (protocol n C).lastTerm (τ u args.candidateId).log

/-- A leader sent this request. -/
def AppendRequested (args : AppendEntiesArgs n C) : Prop :=
  ∃ u ≤ t, LeaderAt τ u args.leaderId args.term ∧
    FromLeader args (τ u args.leaderId).log (τ u args.leaderId).commit

/-- A vote granted to `dst` was cast for it, in the term of the request. -/
def VoteAnswered (src dst : Fin n) (args : RequestVoteArgs n) (reply : RequestVoteReply) : Prop :=
  reply.voteGranted = true → reply.term = args.term ∧
    ∃ u ≤ t, (τ u src).term = reply.term ∧ (τ u src).vote = some dst

/-- The next index in an answer of `src`: just past what `src` took for committed, or past a
leader's log that `src` held, or before the request's entries. -/
structure AppendAnswered (src : Fin n) (args : AppendEntiesArgs n C)
    (reply : AppendEntiesReply) : Prop where
  pos : 1 ≤ reply.nextIndex
  conflict : reply.conflictIndex ≤ 0
  le : args.term ≤ reply.term
  success : reply.success = true → reply.term = args.term
  next : ∃ u ≤ t, (τ u src).term = reply.term ∧
    (reply.nextIndex = (τ u src).commit + 1 ∨
      (reply.success = true ∧ ∃ w ≤ u, LeaderAt τ w args.leaderId args.term ∧
        (τ w args.leaderId).log <+: (τ u src).log ∧
        reply.nextIndex = (τ w args.leaderId).log.length) ∨
      (reply.success = false ∧ reply.term = args.term ∧
        reply.nextIndex ≤ max 1 (args.prevLogIndex - 1)))

/-- The zero reply is the one a leader gives. -/
def MessageOk : Message n C → Prop
  | .msgVote _ args => VoteRequested τ t args
  | .msgApp _ args => AppendRequested τ t args
  | .msgVoteResp src dst args reply =>
    dst = args.candidateId ∧ VoteRequested τ t args ∧ VoteAnswered τ t src dst args reply
  | .msgAppResp src dst args reply =>
    dst = args.leaderId ∧ AppendRequested τ t args ∧
      (reply = {} ∨ AppendAnswered τ t src args reply)

/-! ## Servers -/

/-- Who is recorded as granting a vote has cast it, and neither count has reached a quorum. -/
structure CandidateOk (r : Raft n C) : Prop where
  granted : ∀ q, r.votes q = some true →
    ∃ u ≤ t, (τ u q).term = r.currentTerm ∧ (τ u q).vote = some r.me
  undecided : ∀ v, r.countVotes v < n / 2 + 1

/-- The next indices are in range, and what a follower is recorded as matching it held in this
term. -/
structure ProgressOk (r : Raft n C) : Prop where
  next : ∀ q, 1 ≤ r.nextIndex q ∧ r.nextIndex q ≤ r.log.length
  matched_lt : ∀ q, r.matchIndex q < r.log.length
  matched : ∀ q, r.matchIndex q = 0 ∨ ∃ u ≤ t, (τ u q).term = r.currentTerm ∧
    r.log.take (r.matchIndex q + 1) <+: (τ u q).log

/-- What was sent on `applyCh` was in the log and committed. -/
def Applied (p : Fin n) (m : ApplyMsg C) : Prop :=
  ∃ u ≤ t, m.index ≤ (τ u p).commit ∧ ∃ e, (τ u p).log[m.index]? = some e ∧ e.command = m.command

/-- What was sent on `applyCh` has the indices from 1 on, and `stateMachine` goes on with the
next. -/
structure Raft.Stream (r : Raft n C) : Prop where
  index : ∀ k m, r.applyCh[k]? = some m → m.index = k + 1
  applying : ∀ i c, r.applying = some (i, c) → i = r.applyCh.length + 1 ∧ i ≤ c + 1
  idle : r.applying = none → r.lastApplied = r.applyCh.length

/-- The state machine goes through the log in order, behind the commit index. -/
structure ApplierOk (p : Fin n) (r : Raft n C) : Prop where
  commitc : ∀ c, r.commitc = some c → c ≤ r.commitIndex
  applying : ∀ i c, r.applying = some (i, c) → c ≤ r.commitIndex
  applied : ∀ m ∈ r.applyCh, Applied τ t p m
  stream : r.Stream

structure RaftOk (p : Fin n) (r : Raft n C) : Prop where
  me : r.me = p
  wf : LogWf r.log
  applier : ApplierOk τ t p r
  candidate : r.state = .stateCandidate → CandidateOk τ t r
  leader : r.state = .stateLeader → ProgressOk τ t r

/-- A restart gives back the term, the vote and the log. -/
def Raft.Durable (r : Raft n C) : Prop :=
  match r.persister with
  | none => r.currentTerm = 1 ∧ r.log = [Raft.sentinel] ∧ r.votedFor = none
  | some d => d = ⟨r.currentTerm, r.log, r.votedFor⟩

/-- `r` is a state that server `p` may have next, having sent `msgs`. -/
structure Handled (p : Fin n) (r : Raft n C) (msgs : List (Message n C)) : Prop where
  move : Move (protocol n C) τ t p r.abs
  ok : RaftOk τ (t + 1) p r
  sent : ∀ m ∈ msgs, MessageOk τ (t + 1) m

/-! ## Later -/

section Mono

variable {τ : History n C} {t u : ℕ} (htu : t ≤ u)
include htu

theorem VoteRequested.mono {args : RequestVoteArgs n} (h : VoteRequested τ t args) :
    VoteRequested τ u args := by
  obtain ⟨w, hw, h⟩ := h
  exact ⟨w, hw.trans htu, h⟩

theorem AppendRequested.mono {args : AppendEntiesArgs n C} (h : AppendRequested τ t args) :
    AppendRequested τ u args := by
  obtain ⟨w, hw, h⟩ := h
  exact ⟨w, hw.trans htu, h⟩

theorem MessageOk.mono {m : Message n C} (h : MessageOk τ t m) : MessageOk τ u m := by
  cases m with
  | msgVote => exact VoteRequested.mono htu h
  | msgApp => exact AppendRequested.mono htu h
  | msgVoteResp =>
    refine ⟨h.1, h.2.1.mono htu, fun hg => ?_⟩
    obtain ⟨h1, w, hw, h2⟩ := h.2.2 hg
    exact ⟨h1, w, hw.trans htu, h2⟩
  | msgAppResp =>
    refine ⟨h.1, h.2.1.mono htu, h.2.2.imp_right fun h => ?_⟩
    obtain ⟨w, hw, hnext⟩ := h.next
    exact ⟨h.pos, h.conflict, h.le, h.success, w, hw.trans htu, hnext⟩

theorem ApplierOk.mono {p : Fin n} {r : Raft n C} (h : ApplierOk τ t p r) :
    ApplierOk τ u p r := by
  refine ⟨h.commitc, h.applying, fun m hm => ?_, h.stream⟩
  obtain ⟨w, hw, h⟩ := h.applied m hm
  exact ⟨w, hw.trans htu, h⟩

theorem ProgressOk.mono {r : Raft n C} (h : ProgressOk τ t r) : ProgressOk τ u r := by
  refine ⟨h.next, h.matched_lt, fun q => (h.matched q).imp_right fun hq => ?_⟩
  obtain ⟨w, hw, h⟩ := hq
  exact ⟨w, hw.trans htu, h⟩

theorem CandidateOk.mono {r : Raft n C} (h : CandidateOk τ t r) : CandidateOk τ u r := by
  refine ⟨fun q hq => ?_, h.undecided⟩
  obtain ⟨w, hw, h⟩ := h.granted q hq
  exact ⟨w, hw.trans htu, h⟩

theorem RaftOk.mono {p : Fin n} {r : Raft n C} (h : RaftOk τ t p r) : RaftOk τ u p r :=
  ⟨h.me, h.wf, h.applier.mono htu, fun hs => (h.candidate hs).mono htu,
    fun hs => (h.leader hs).mono htu⟩

end Mono

variable {τ} {t} {p : Fin n} {r r' : Raft n C}

theorem ApplierOk.of_le (h : ApplierOk τ t p r) (hle : r.commitIndex ≤ r'.commitIndex)
    (hc : ∀ c, r'.commitc = some c → c ≤ r'.commitIndex) (ha : r'.applying = r.applying)
    (hch : r'.applyCh = r.applyCh) (hla : r'.lastApplied = r.lastApplied) : ApplierOk τ t p r' := by
  refine ⟨hc, fun i c hi => (h.applying i c (ha ▸ hi)).trans hle,
    fun m hm => h.applied m (hch ▸ hm), ?_, ?_, ?_⟩
  · rw [hch]
    exact h.stream.index
  · rw [ha, hch]
    exact h.stream.applying
  · rw [ha, hch, hla]
    exact h.stream.idle

/-- The state machine's part of a server is untouched by the rest of it. -/
theorem ApplierOk.congr (h : ApplierOk τ t p r) (hle : r'.commitIndex = r.commitIndex)
    (hc : r'.commitc = r.commitc) (ha : r'.applying = r.applying)
    (hch : r'.applyCh = r.applyCh) (hla : r'.lastApplied = r.lastApplied) : ApplierOk τ t p r' :=
  h.of_le hle.ge (fun c hr => hle ▸ h.commitc c (hc ▸ hr)) ha hch hla

theorem RaftOk.timers (h : RaftOk τ t p r) (d : Option (RaftStateData n C)) (e b x : ℕ)
    (l : Option (Fin n)) :
    RaftOk τ t p { r with
      persister := d
      electionElapsed := e
      heartbeatElapsed := b
      randomizedElectionTimeout := x
      lead := l } :=
  ⟨h.me, h.wf, h.applier.congr rfl rfl rfl rfl rfl,
    fun hs => ⟨(h.candidate hs).granted, (h.candidate hs).undecided⟩,
    fun hs => ⟨(h.leader hs).next, (h.leader hs).matched_lt, (h.leader hs).matched⟩⟩

theorem RaftOk.persist (h : RaftOk τ t p r) : RaftOk τ t p r.persist := h.timers _ _ _ _ _

/-- A follower needs nothing from the records of the others. -/
theorem RaftOk.follower (hs : r.state = .stateFollower) (hme : r.me = p) (hw : LogWf r.log)
    (ha : ApplierOk τ t p r) : RaftOk τ t p r :=
  ⟨hme, hw, ha, fun h => by simp [hs] at h, fun h => by simp [hs] at h⟩

theorem RaftOk.becomeFollower (h : RaftOk τ t p r) (rnd T : ℕ) (lead : Option (Fin n)) :
    RaftOk τ t p (r.becomeFollower rnd T lead) :=
  .follower rfl ((r.reset_me rnd T).trans h.me)
    (by simpa [Raft.becomeFollower, Raft.reset_log _ _ h.wf.ne] using h.wf)
    (h.applier.congr (r.reset_commitIndex rnd T) (r.reset_commitc rnd T)
      (r.reset_applying rnd T) (r.reset_applyCh rnd T) (r.reset_lastApplied rnd T))

theorem Raft.Durable.persist (r : Raft n C) : r.persist.Durable := rfl

theorem Handled.persist {msgs : List (Message n C)} (h : Handled τ t p r msgs) :
    Handled τ t p r.persist msgs :=
  ⟨h.move, h.ok.persist, h.sent⟩

end DistSystem
