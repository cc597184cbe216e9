import DistSystem.Proofs.RaftBallot

/-!
# Answers to requests of an earlier term

Such an answer should change nothing, and does not unless it is stamped with the term the server is
in now: then a candidate that has nothing recorded from its sender takes it for a refusal, and a
leader moves the next index by it, or panics (`Misread`).
-/

namespace DistSystem

open Replog (CandidateAt Run)

variable {n : ℕ} {C : Type}

/-- An answer to a request of an earlier term that is stamped with the term of the server, and
reaches a candidate with nothing recorded from its sender, or a leader with another next index for
the sender or with a log that ends before the request's place. -/
def Misread (r : Raft n C) : Message n C → Prop
  | .msgVoteResp src _ args reply =>
    args.term < r.currentTerm ∧ reply.term = r.currentTerm ∧ r.state = .stateCandidate ∧
      r.votes src = none
  | .msgAppResp src _ args reply =>
    args.term < r.currentTerm ∧ reply.term = r.currentTerm ∧ r.state = .stateLeader ∧
      (reply.nextIndex ≠ r.nextIndex src ∨ r.lastIndex + 1 < args.prevLogIndex)
  | _ => False

instance (r : Raft n C) : (m : Message n C) → Decidable (Misread r m)
  | .msgVoteResp _ _ _ _ => inferInstanceAs (Decidable (_ ∧ _ ∧ _ ∧ _))
  | .msgAppResp _ _ _ _ => inferInstanceAs (Decidable (_ ∧ _ ∧ _ ∧ (_ ∨ _)))
  | .msgVote _ _ => inferInstanceAs (Decidable False)
  | .msgApp _ _ => inferInstanceAs (Decidable False)

/-- The part of a server that answers are recorded in. -/
structure SameRecords (r r' : Raft n C) : Prop where
  votes : r'.votes = r.votes
  nextIndex : r'.nextIndex = r.nextIndex
  matchIndex : r'.matchIndex = r.matchIndex
  commitIndex : r'.commitIndex = r.commitIndex
  log : r'.log = r.log

theorem SameRecords.refl (r : Raft n C) : SameRecords r r := ⟨rfl, rfl, rfl, rfl, rfl⟩

theorem SameRecords.persist (r : Raft n C) : SameRecords r r.persist := ⟨rfl, rfl, rfl, rfl, rfl⟩

namespace Raft

variable {r : Raft n C} {m : Message n C}

theorem step_lt (h : m.term < r.currentTerm) (rnd : ℕ) :
    r.step rnd m = .ok (r.persist, r.stepStale m) := by
  unfold step stepTerm
  rw [if_neg (by omega), if_pos h]

theorem step_ok_iff (h : m.term = r.currentTerm) {rnd : ℕ} {r' : Raft n C}
    {msgs : List (Message n C)} :
    r.step rnd m = .ok (r', msgs) ↔
      ∃ r₁, r.stepState rnd m = .ok (r₁, msgs) ∧ r₁.persist = r' := by
  unfold step stepTerm
  rw [if_neg (by omega), if_neg (by omega)]
  cases r.stepState rnd m with
  | error e => simp
  | ok x => simp [Prod.ext_iff, and_comm]

theorem pollVotes_of_some {id : Fin n} (v : Bool) (h : r.votes id ≠ none) :
    r.pollVotes id v = r.votes := if_neg h

end Raft

section Stale

variable {τ : History n C} {t : ℕ} {p : Fin n} {r : Raft n C}

/-- A refusal that a candidate has already heard of changes nothing. -/
theorem refusal_known (hok : RaftOk τ t p r) (hs : r.state = .stateCandidate) {src dst : Fin n}
    {args : RequestVoteArgs n} {reply : RequestVoteReply} (hv : r.votes src ≠ none) (rnd : ℕ) :
    r.stepCandidate rnd (.msgVoteResp src dst args reply) = .ok (r, []) := by
  have hund := (hok.candidate hs).undecided
  simp only [Raft.stepCandidate, Raft.poll_eq, Raft.pollVotes_of_some _ hv, Raft.quorum]
  rw [if_neg (hund true).ne', if_neg (hund false).ne']

/-- A refusal that a candidate has not heard of changes what it has recorded. -/
theorem refusal_recorded (h2 : 2 ≤ n) (hok : RaftOk τ t p r) (hs : r.state = .stateCandidate)
    {src dst : Fin n} {args : RequestVoteArgs n} {reply : RequestVoteReply}
    (hg : reply.voteGranted = false) (hv : r.votes src = none) {rnd : ℕ} {r' : Raft n C}
    {msgs : List (Message n C)}
    (h : r.stepCandidate rnd (.msgVoteResp src dst args reply) = .ok (r', msgs)) :
    r'.votes ≠ r.votes := by
  have hund := (hok.candidate hs).undecided
  intro hsame
  simp only [Raft.stepCandidate, Raft.poll_eq, Raft.quorum, hg] at h
  split_ifs at h with hwin hlose
  · -- no more votes are counted than before
    have hle : { r with votes := r.pollVotes src false }.countVotes true ≤ r.countVotes true := by
      rw [Raft.countVotes_eq, Raft.countVotes_eq]
      refine Finset.card_le_card fun q hq => ?_
      simp only [Finset.mem_filter, Finset.mem_univ, true_and] at hq ⊢
      rcases Raft.pollVotes_some hq with hq | ⟨-, hb⟩
      · exact hq
      · cases hb
    have := hund true
    omega
  · -- an earlier refusal is forgotten
    cases h
    have hle := Raft.countVotes_poll_le r src false false
    have hpos : 0 < r.countVotes false := by omega
    rw [Raft.countVotes_eq, Finset.card_pos] at hpos
    obtain ⟨q, hq⟩ := hpos
    have hq' := (Finset.mem_filter.1 hq).2
    rw [← hsame] at hq'
    simp [Raft.becomeFollower] at hq'
  · cases h
    have hsrc := congrFun hsame src
    simp [Raft.pollVotes, hv] at hsrc

/-- A rejection changes nothing just when the next index is the one it says and the log reaches the
request's place. -/
theorem rejection_unaffected_iff (hok : RaftOk τ t p r) (hs : r.state = .stateLeader)
    {src : Fin n} (dst : Fin n) {args : AppendEntiesArgs n C} {reply : AppendEntiesReply}
    (ha : AppendAnswered τ t src args reply) (hsu : reply.success = false)
    (hle : reply.nextIndex ≤ r.log.length) (rnd : ℕ) :
    (∃ r' msgs, r.stepState rnd (.msgAppResp src dst args reply) = .ok (r', msgs) ∧
      SameRecords r r') ↔
      ¬ (reply.nextIndex ≠ r.nextIndex src ∨ r.lastIndex + 1 < args.prevLogIndex) := by
  have hlast := Raft.lastIndex_eq hok.wf
  rw [Raft.stepState_leader hs, Raft.stepLeader, not_or, not_not, Nat.not_lt, hlast]
  by_cases hprev : args.prevLogIndex ≤ r.log.length
  · rw [Raft.handleAppResp_reject hok.wf hsu hle ha.conflict hprev]
    constructor
    · rintro ⟨r', msgs, heq, hsame⟩
      cases heq
      have := congrFun hsame.nextIndex src
      exact ⟨by simpa using this, hprev⟩
    · intro h
      refine ⟨_, _, rfl, rfl, ?_, rfl, rfl, rfl⟩
      rw [h.1, Function.update_eq_self]
  · rw [Raft.handleAppResp_panic hok.wf hsu hle (Nat.lt_of_not_le hprev)]
    constructor
    · rintro ⟨r', msgs, heq, -⟩
      cases heq
    · exact fun h => absurd h.2 hprev

/-- Whether a message of the server's term is handled without effect is seen before `persist`. -/
theorem unaffected_iff_stepState {m : Message n C} (hT : m.term = r.currentTerm) (rnd : ℕ) :
    (∃ r' msgs, r.step rnd m = .ok (r', msgs) ∧ SameRecords r r') ↔
      ∃ r' msgs, r.stepState rnd m = .ok (r', msgs) ∧ SameRecords r r' := by
  constructor
  · rintro ⟨r', msgs, hstep, hsame⟩
    obtain ⟨r₁, h₁, rfl⟩ := (Raft.step_ok_iff hT).1 hstep
    exact ⟨r₁, msgs, h₁, hsame.votes, hsame.nextIndex, hsame.matchIndex, hsame.commitIndex,
      hsame.log⟩
  · rintro ⟨r₁, msgs, h₁, hsame⟩
    exact ⟨_, msgs, (Raft.step_ok_iff hT).2 ⟨r₁, h₁, rfl⟩, hsame.votes, hsame.nextIndex,
      hsame.matchIndex, hsame.commitIndex, hsame.log⟩

theorem vote_unaffected_iff (h2 : 2 ≤ n) (hok : RaftOk τ t p r) {src dst : Fin n}
    {args : RequestVoteArgs n} {reply : RequestVoteReply}
    (hm : MessageOk τ t (.msgVoteResp src dst args reply)) (hold : args.term < r.currentTerm)
    (hT : reply.term = r.currentTerm) (rnd : ℕ) :
    (∃ r' msgs, r.stepState rnd (.msgVoteResp src dst args reply) = .ok (r', msgs) ∧
      SameRecords r r') ↔ ¬ Misread r (.msgVoteResp src dst args reply) := by
  have hg : reply.voteGranted = false := by
    by_contra hg
    have := (hm.2.2 (by simpa using hg)).1
    exact (this.symm.trans hT).not_lt hold
  cases hs : r.state with
  | stateFollower =>
    exact ⟨fun _ hmis => by simpa [hs] using hmis.2.2.1,
      fun _ => ⟨r, [], Raft.stepState_follower hs _, .refl r⟩⟩
  | stateLeader =>
    exact ⟨fun _ hmis => by simpa [hs] using hmis.2.2.1,
      fun _ => ⟨r, [], Raft.stepState_leader hs _, .refl r⟩⟩
  | stateCandidate =>
    rw [Raft.stepState_candidate hs]
    by_cases hv : r.votes src = none
    · refine ⟨?_, fun hmis => absurd ⟨hold, hT, hs, hv⟩ hmis⟩
      rintro ⟨r', msgs, hstep, hsame⟩
      exact absurd hsame.votes (refusal_recorded h2 hok hs hg hv hstep)
    · exact ⟨fun _ hmis => hv hmis.2.2.2, fun _ => ⟨r, [], refusal_known hok hs hv rnd, .refl r⟩⟩

theorem append_unaffected_iff (hrun : Run (protocol n C) τ t) (hr : τ t p = r.abs)
    (hok : RaftOk τ t p r) {src dst : Fin n} {args : AppendEntiesArgs n C}
    {reply : AppendEntiesReply} (hm : MessageOk τ t (.msgAppResp src dst args reply))
    (hold : args.term < r.currentTerm) (hT : reply.term = r.currentTerm) (rnd : ℕ) :
    (∃ r' msgs, r.stepState rnd (.msgAppResp src dst args reply) = .ok (r', msgs) ∧
      SameRecords r r') ↔ ¬ Misread r (.msgAppResp src dst args reply) := by
  cases hs : r.state with
  | stateFollower =>
    exact ⟨fun _ hmis => by simpa [hs] using hmis.2.2.1,
      fun _ => ⟨r, [], Raft.stepState_follower hs _, .refl r⟩⟩
  | stateCandidate =>
    exact ⟨fun _ hmis => by simpa [hs] using hmis.2.2.1,
      fun _ => ⟨r, [], Raft.stepState_candidate hs _, .refl r⟩⟩
  | stateLeader =>
    obtain ⟨-, hreq, ha⟩ := hm
    have ha := answered_of_term hrun hr ha hT
    have hsu : reply.success = false := by
      by_contra hsu
      have := ha.success (by simpa using hsu)
      exact (this.symm.trans hT).not_lt hold
    obtain ⟨hle, -⟩ := answered_next hrun hr hs hreq ha hT
    rw [rejection_unaffected_iff hok hs dst ha hsu hle rnd]
    exact not_congr ⟨fun h => ⟨hold, hT, hs, h⟩, fun hmis => hmis.2.2.2⟩

/-- An old answer that is not from a later term changes nothing just when it is not misread. -/
theorem stale_unaffected_iff (h2 : 2 ≤ n) (hrun : Run (protocol n C) τ t) (hr : τ t p = r.abs)
    (hok : RaftOk τ t p r) {m : Message n C} (hm : MessageOk τ t m) (hresp : m.isResp = true)
    (hold : m.argsTerm < r.currentTerm) (hT : m.term ≤ r.currentTerm) (rnd : ℕ) :
    (∃ r' msgs, r.step rnd m = .ok (r', msgs) ∧ SameRecords r r') ↔ ¬ Misread r m := by
  rcases hT.lt_or_eq with hlt | heq
  · refine ⟨fun _ hmis => ?_, fun _ => ⟨_, _, Raft.step_lt hlt rnd, .persist r⟩⟩
    cases m with
    | msgVote | msgApp => exact hmis
    | msgVoteResp => exact hlt.ne hmis.2.1
    | msgAppResp => exact hlt.ne hmis.2.1
  · rw [unaffected_iff_stepState heq]
    cases m with
    | msgVote | msgApp => simp [Message.isResp] at hresp
    | msgVoteResp => exact vote_unaffected_iff h2 hok hm hold heq rnd
    | msgAppResp => exact append_unaffected_iff hrun hr hok hm hold heq rnd

/-- A rejection past the end of the log is one of the misread answers. -/
theorem misread_of_pastEnd (hrun : Run (protocol n C) τ t) (hr : τ t p = r.abs)
    {m : Message n C} (hm : MessageOk τ t m) (hend : PastEnd r m) (hok : RaftOk τ t p r) :
    Misread r m := by
  cases m with
  | msgVote | msgApp | msgVoteResp => exact False.elim hend
  | msgAppResp src dst args reply =>
    obtain ⟨hs, hT, hsu, hlt⟩ := hend
    obtain ⟨-, hreq, ha⟩ := hm
    have hlast := Raft.lastIndex_eq hok.wf
    refine ⟨?_, hT, hs, .inr hlt⟩
    have hne : args.term ≠ r.currentTerm := by
      intro hargs
      have := requested_prev hrun hr hs hreq hargs
      omega
    exact lt_of_le_of_ne ((answered_of_term hrun hr ha hT).le.trans_eq hT) hne

end Stale

end DistSystem
