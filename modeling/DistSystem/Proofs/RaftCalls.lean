import DistSystem.Proofs.RaftBallot

/-!
# Whose call a message belongs to

An iteration of an event loop answers one request, for the caller of that request, or sends requests
of its own.
-/

namespace DistSystem

variable {n : ℕ} {C : Type} {r r' : Raft n C} {msgs : List (Message n C)} {m : Message n C}
  {rnd : ℕ}

/-- The server whose goroutine made the call. -/
def Message.caller : Message n C → Fin n
  | msgVote _ args => args.candidateId
  | msgApp _ args => args.leaderId
  | msgVoteResp _ dst _ _ => dst
  | msgAppResp _ dst _ _ => dst

theorem Message.caller_of_isResp (h : m.isResp = true) : m.caller = m.dst := by
  cases m with
  | msgVote | msgApp => cases h
  | msgVoteResp | msgAppResp => rfl

namespace Raft

/-- The messages are requests of `r`, which goes on as `r'`. -/
structure Requests (r r' : Raft n C) (msgs : List (Message n C)) : Prop where
  me : r'.me = r.me
  isResp : ∀ m ∈ msgs, m.isResp = false
  caller : ∀ m ∈ msgs, m.caller = r.me

theorem Requests.nil (h : r'.me = r.me) : Requests r r' [] := ⟨h, by simp, by simp⟩

theorem Requests.congr {r₁ : Raft n C} (h : Requests r₁ r' msgs) (hme : r₁.me = r.me) :
    Requests r r' msgs := ⟨h.me.trans hme, h.isResp, fun m hm => (h.caller m hm).trans hme⟩

theorem bcastAppend_requests (h : r.bcastAppend = .ok (r', msgs)) : Requests r r' msgs := by
  obtain rfl : r' = r.persist := bcastAppend_raft h
  refine ⟨rfl, ?_, ?_⟩
  · intro m hm
    obtain ⟨i, args, rfl, -, -⟩ := bcastAppend_msgs h m hm
    rfl
  · intro m hm
    obtain ⟨i, args, rfl, -, hargs⟩ := bcastAppend_msgs h m hm
    exact hargs

theorem bcastRequestVoteRPC_requests (h : r.bcastRequestVoteRPC = .ok (r', msgs)) :
    Requests r r' msgs := by
  obtain ⟨ms, hms, h⟩ := bind_eq_ok.mp h
  cases h
  have hmsg : ∀ m ∈ msgs, ∃ i args, m = .msgVote i args ∧ args.candidateId = r.me := by
    intro m hm
    obtain ⟨i, -, hi⟩ := mapM_eq_ok hms m hm
    obtain ⟨T, -, hi⟩ := bind_eq_ok.mp hi
    cases hi
    exact ⟨i, _, rfl, rfl⟩
  refine ⟨rfl, fun m hm => ?_, fun m hm => ?_⟩
  · obtain ⟨i, args, rfl, -⟩ := hmsg m hm
    rfl
  · obtain ⟨i, args, rfl, hargs⟩ := hmsg m hm
    exact hargs

theorem poll_me (r : Raft n C) (id : Fin n) (v : Bool) : (r.poll id v).1.me = r.me := by
  unfold poll
  split_ifs <;> rfl

theorem becomeLeader_me (h : r.becomeLeader rnd = .ok r') : r'.me = r.me := by
  unfold becomeLeader at h
  split_ifs at h
  cases h
  exact r.reset_me rnd _

theorem campaign_requests (h : r.campaign rnd = .ok (r', msgs)) : Requests r r' msgs := by
  obtain ⟨r₁, hr₁, h⟩ := bind_eq_ok.mp h
  have hme : r₁.me = r.me := by
    unfold becomeCandidate at hr₁
    split_ifs at hr₁
    cases hr₁
    exact r.reset_me rnd _
  have hpoll := (poll_me r₁ r₁.me true).trans hme
  dsimp only at h
  split_ifs at h
  · obtain ⟨r₂, hr₂, h⟩ := bind_eq_ok.mp h
    cases h
    exact .nil ((becomeLeader_me hr₂).trans hpoll)
  · exact (bcastRequestVoteRPC_requests h).congr hpoll

theorem tick_requests (h : r.tick rnd = .ok (r', msgs)) : Requests r r' msgs := by
  cases tick_ticks h with
  | heartbeat _ _ hb => exact (bcastAppend_requests hb).congr rfl
  | leading => exact .nil rfl
  | campaign _ _ _ hc => exact (campaign_requests hc).congr rfl
  | waiting => exact .nil rfl

theorem handleStart_requests {command : Option C} {reply : StartReply}
    (h : r.handleStart command = .ok (r', msgs, reply)) : Requests r r' msgs := by
  rcases handleStart_cases h with ⟨-, hb, -⟩ | ⟨-, rfl, rfl⟩
  · exact (bcastAppend_requests hb).congr rfl
  · exact .nil rfl

theorem stateMachine_me (h : r.stateMachine = .ok r') : r'.me = r.me := by
  obtain ⟨_, _, _, _, rfl⟩ := stateMachine_fields h
  rfl

/-- On a response a server may go on to send requests. -/
theorem step_requests (hm : m.isResp = true) (h : r.step rnd m = .ok (r', msgs)) :
    Requests r r' msgs := by
  rcases step_cases h with ⟨-, rfl, rfl⟩ | ⟨r₁, r₂, h', rfl, -, -, hme, -, -⟩
  · cases m with
    | msgVote | msgApp => cases hm
    | msgVoteResp | msgAppResp => exact .nil rfl
  · suffices Requests r₁ r₂ msgs from (⟨this.me, this.isResp, this.caller⟩ :
      Requests r₁ r₂.persist msgs).congr hme
    cases hs : r₁.state with
    | stateFollower =>
      rw [stepState_follower hs] at h'
      cases m with
      | msgVote | msgApp => cases hm
      | msgVoteResp | msgAppResp =>
        cases h'
        exact .nil rfl
    | stateLeader =>
      rw [stepState_leader hs] at h'
      cases m with
      | msgVote | msgApp => cases hm
      | msgVoteResp =>
        cases h'
        exact .nil rfl
      | msgAppResp src dst args reply =>
        obtain ⟨r₃, hr₃, h'⟩ := bind_eq_ok.mp h'
        cases h'
        exact .nil (handleAppResp_advances hr₃).me
    | stateCandidate =>
      rw [stepState_candidate hs] at h'
      cases m with
      | msgVote | msgApp => cases hm
      | msgAppResp =>
        cases h'
        exact .nil rfl
      | msgVoteResp src dst args reply =>
        have hpoll := poll_me r₁ src reply.voteGranted
        simp only [stepCandidate] at h'
        split_ifs at h'
        · obtain ⟨r₃, hr₃, h'⟩ := bind_eq_ok.mp h'
          exact (bcastAppend_requests h').congr ((becomeLeader_me hr₃).trans hpoll)
        · cases h'
          exact .nil ((reset_me _ rnd _).trans hpoll)
        · cases h'
          exact .nil hpoll

/-- A request gets one answer, which is for its caller. -/
theorem step_reply (hm : m.isResp = false) (h : r.step rnd m = .ok (r', msgs)) :
    r'.me = r.me ∧ ∃ resp, msgs = [resp] ∧ resp.isResp = true ∧ resp.caller = m.caller := by
  rcases step_cases h with ⟨-, rfl, rfl⟩ | ⟨r₁, r₂, h', rfl, -, -, hme, -, -⟩
  · refine ⟨rfl, ?_⟩
    cases m with
    | msgVoteResp | msgAppResp => cases hm
    | msgVote | msgApp => exact ⟨_, rfl, rfl, rfl⟩
  · suffices r₂.me = r₁.me ∧ ∃ resp, msgs = [resp] ∧ resp.isResp = true ∧
      resp.caller = m.caller from ⟨this.1.trans hme, this.2⟩
    cases hs : r₁.state with
    | stateFollower =>
      rw [stepState_follower hs] at h'
      cases m with
      | msgVoteResp | msgAppResp => cases hm
      | msgVote dst args =>
        simp only [stepFollower] at h'
        split_ifs at h' <;> cases h' <;> exact ⟨rfl, _, rfl, rfl, rfl⟩
      | msgApp dst args =>
        obtain ⟨x, hx, h'⟩ := bind_eq_ok.mp h'
        cases h'
        exact ⟨(handleAppendEntries_advances hx).me, _, rfl, rfl, rfl⟩
    | stateLeader =>
      rw [stepState_leader hs] at h'
      cases m with
      | msgVoteResp | msgAppResp => cases hm
      | msgVote | msgApp =>
        cases h'
        exact ⟨rfl, _, rfl, rfl, rfl⟩
    | stateCandidate =>
      rw [stepState_candidate hs] at h'
      cases m with
      | msgVoteResp | msgAppResp => cases hm
      | msgVote dst args =>
        cases h'
        exact ⟨rfl, _, rfl, rfl, rfl⟩
      | msgApp dst args =>
        obtain ⟨x, hx, h'⟩ := bind_eq_ok.mp h'
        cases h'
        exact ⟨(handleAppendEntries_advances hx).me.trans (r₁.reset_me rnd _), _, rfl, rfl, rfl⟩

theorem step_me (h : r.step rnd m = .ok (r', msgs)) : r'.me = r.me := by
  rcases hm : m.isResp with _ | _
  · exact (step_reply hm h).1
  · exact (step_requests hm h).me

end Raft

end DistSystem
