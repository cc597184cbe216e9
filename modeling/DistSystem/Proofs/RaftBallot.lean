import DistSystem.Lib.Fallible
import DistSystem.Proofs.RaftReply

/-!
# Votes and the messages that carry them

What each function does to the vote a server has cast and to the votes it has recorded. A vote for
another server is cast only on its request, and a vote is recorded only from a response; everything
else leaves both alone or drops them (`Keeps`). What the event loop leaves to `stateMachine` it
does not touch, but for raising the commit index (`SameApplier`).
-/

namespace DistSystem

variable {n : ℕ} {C : Type}

/-- The part of a server that votes are about. -/
structure SameVotes (r r' : Raft n C) : Prop where
  votedFor : r'.votedFor = r.votedFor
  currentTerm : r'.currentTerm = r.currentTerm
  state : r'.state = r.state
  votes : r'.votes = r.votes

/-- From `r` to `r'` no vote is cast and none recorded. -/
structure Keeps (r r' : Raft n C) : Prop where
  vote : ∀ c, r'.votedFor = some c → r.votedFor = some c ∧ r'.currentTerm = r.currentTerm
  votes : r'.state = .stateCandidate →
    r.state = .stateCandidate ∧ r'.currentTerm = r.currentTerm ∧ r'.votes = r.votes

/-- The part of a server that `stateMachine` works on, with perhaps more committed. -/
structure SameApplier (r r' : Raft n C) : Prop where
  commitIndex : r.commitIndex ≤ r'.commitIndex
  lastApplied : r'.lastApplied = r.lastApplied
  applying : r'.applying = r.applying
  applyCh : r'.applyCh = r.applyCh

/-- What handling entries, or an answer about them, does to all that. -/
structure Advances (r r' : Raft n C) : Prop extends SameVotes r r', SameApplier r r' where
  me : r'.me = r.me

theorem SameVotes.refl (r : Raft n C) : SameVotes r r := ⟨rfl, rfl, rfl, rfl⟩

theorem SameVotes.trans {a b c : Raft n C} (h : SameVotes a b) (h' : SameVotes b c) :
    SameVotes a c :=
  ⟨h'.votedFor.trans h.votedFor, h'.currentTerm.trans h.currentTerm, h'.state.trans h.state,
    h'.votes.trans h.votes⟩

theorem SameApplier.refl (r : Raft n C) : SameApplier r r := ⟨le_rfl, rfl, rfl, rfl⟩

theorem SameApplier.trans {a b c : Raft n C} (h : SameApplier a b) (h' : SameApplier b c) :
    SameApplier a c :=
  ⟨h.commitIndex.trans h'.commitIndex, h'.lastApplied.trans h.lastApplied,
    h'.applying.trans h.applying, h'.applyCh.trans h.applyCh⟩

theorem Advances.refl (r : Raft n C) : Advances r r := ⟨.refl r, .refl r, rfl⟩

theorem Advances.trans {a b c : Raft n C} (h : Advances a b) (h' : Advances b c) :
    Advances a c :=
  ⟨h.toSameVotes.trans h'.toSameVotes, h.toSameApplier.trans h'.toSameApplier, h'.me.trans h.me⟩

theorem SameVotes.keeps {r r' : Raft n C} (h : SameVotes r r') : Keeps r r' :=
  ⟨fun _ hc => ⟨h.votedFor ▸ hc, h.currentTerm⟩,
    fun hs => ⟨h.state ▸ hs, h.currentTerm, h.votes⟩⟩

theorem Keeps.trans {a b c : Raft n C} (h : Keeps a b) (h' : Keeps b c) : Keeps a c := by
  refine ⟨fun x hx => ?_, fun hs => ?_⟩
  · obtain ⟨h1, h2⟩ := h'.vote x hx
    obtain ⟨h3, h4⟩ := h.vote x h1
    exact ⟨h3, h2.trans h4⟩
  · obtain ⟨h1, h2, h3⟩ := h'.votes hs
    obtain ⟨h4, h5, h6⟩ := h.votes h1
    exact ⟨h4, h2.trans h5, h3.trans h6⟩

theorem Keeps.persist {r r' : Raft n C} (h : Keeps r r') : Keeps r r'.persist :=
  ⟨h.vote, h.votes⟩

theorem Keeps.becomeFollower (r : Raft n C) (rnd T : ℕ) (lead : Option (Fin n)) :
    Keeps r (r.becomeFollower rnd T lead) := by
  refine ⟨fun c hc => ?_, fun hs => by simp [Raft.becomeFollower] at hs⟩
  have hv := r.reset_votedFor rnd T
  change (r.reset rnd T).votedFor = some c at hc
  rw [hv] at hc
  split_ifs at hc with hT
  exact ⟨hc, (r.reset_currentTerm rnd T).trans (not_not.1 hT).symm⟩

theorem Keeps.leadership (r : Raft n C) (rnd : ℕ) : Keeps r (r.leadership rnd) := by
  refine ⟨fun c hc => ?_, fun hs => by simp [Raft.leadership] at hs⟩
  change (r.reset rnd r.currentTerm).votedFor = some c at hc
  rw [r.reset_votedFor, if_neg (by simp)] at hc
  exact ⟨hc, r.reset_currentTerm rnd _⟩

theorem SameApplier.reset (r : Raft n C) (rnd T : ℕ) : SameApplier r (r.reset rnd T) :=
  ⟨(r.reset_commitIndex rnd T).ge, r.reset_lastApplied rnd T, r.reset_applying rnd T,
    r.reset_applyCh rnd T⟩

theorem SameApplier.becomeFollower (r : Raft n C) (rnd T : ℕ) (lead : Option (Fin n)) :
    SameApplier r (r.becomeFollower rnd T lead) :=
  ⟨(SameApplier.reset r rnd T).1, r.reset_lastApplied rnd T, r.reset_applying rnd T,
    r.reset_applyCh rnd T⟩

namespace Raft

variable {r r' : Raft n C}

/-! ## Following and leading -/

theorem commitTo_advances {c : ℕ} (h : r.commitTo c = .ok r') : Advances r r' := by
  unfold commitTo at h
  split_ifs at h with hlast hlt
  · cases h
    exact ⟨⟨rfl, rfl, rfl, rfl⟩, ⟨hlt.le, rfl, rfl, rfl⟩, rfl⟩
  · cases h
    exact .refl r

theorem appendLog_advances {ents : List (Log C)} (h : r.appendLog ents = .ok r') :
    Advances r r' := by
  unfold appendLog at h
  split at h
  · cases h
    exact .refl r
  · split_ifs at h
    cases h
    exact ⟨⟨rfl, rfl, rfl, rfl⟩, ⟨le_rfl, rfl, rfl, rfl⟩, rfl⟩

theorem appendFrom_advances {args : AppendEntiesArgs n C} {ci : ℕ}
    (h : r.appendFrom args ci = .ok r') : Advances r r' := by
  simp only [appendFrom] at h
  split_ifs at h
  · cases h
    exact .refl r
  · exact appendLog_advances h

theorem commitLeader_advances {c : ℕ} (h : r.commitLeader c = .ok r') : Advances r r' := by
  unfold commitLeader at h
  split_ifs at h
  · exact commitTo_advances h
  · cases h
    exact .refl r

theorem appendMatched_advances {args : AppendEntiesArgs n C} {x : Raft n C × AppendEntiesReply}
    (h : r.appendMatched args = .ok x) : Advances r x.1 := by
  unfold appendMatched at h
  simp only [bind_eq_ok] at h
  obtain ⟨ci, -, r₁, h1, -, -, r₂, h2, h3⟩ := h
  cases h3
  exact (appendFrom_advances h1).trans (commitLeader_advances h2)

theorem appendMismatched_advances {args : AppendEntiesArgs n C} {x : Raft n C × AppendEntiesReply}
    (h : r.appendMismatched args = .ok x) : Advances r x.1 := by
  unfold appendMismatched at h
  simp only [bind_eq_ok] at h
  obtain ⟨conflict, -, h⟩ := h
  cases h
  exact .refl r

theorem checkNextIndex_eq {reply : AppendEntiesReply} {x : Raft n C × AppendEntiesReply}
    (h : r.checkNextIndex reply = .ok x) : x = (r, reply) := by
  unfold checkNextIndex at h
  split_ifs at h
  exact (Except.ok.inj h).symm

theorem handleAppendEntries_advances {args : AppendEntiesArgs n C}
    {x : Raft n C × AppendEntiesReply} (h : r.handleAppendEntries args = .ok x) :
    Advances r x.1 := by
  set r₀ : Raft n C := { r with electionElapsed := 0, lead := some args.leaderId } with hr₀
  have h₀ : Advances r r₀ := ⟨⟨rfl, rfl, rfl, rfl⟩, ⟨le_rfl, rfl, rfl, rfl⟩, rfl⟩
  unfold handleAppendEntries at h
  simp only [← hr₀] at h
  split_ifs at h
  · rw [checkNextIndex_eq h]
    exact h₀
  · rw [bind_eq_ok] at h
    obtain ⟨found, -, h⟩ := h
    -- both branches check the reply they come with
    have hcheck : ∀ {y : Raft n C × AppendEntiesReply}, Advances r₀ y.1 →
        (if y.2.nextIndex < 1 then .error ⟨y.1, "reply.NextIndex < 1", false⟩
          else y.1.checkNextIndex y.2) = Except.ok x → Advances r x.1 := by
      intro y hy hx
      split_ifs at hx
      rw [checkNextIndex_eq hx]
      exact h₀.trans hy
    split_ifs at h
    · obtain ⟨y, h1, h2⟩ := bind_eq_ok.1 h
      exact hcheck (appendMatched_advances h1) h2
    · obtain ⟨y, h1, h2⟩ := bind_eq_ok.1 h
      exact hcheck (appendMismatched_advances h1) h2

theorem updateCommitIndex_advances (h : r.updateCommitIndex = .ok r') : Advances r r' := by
  unfold updateCommitIndex at h
  simp only at h
  split at h
  · cases h
  · split_ifs at h
    · simp only [bind_eq_ok] at h
      obtain ⟨e, -, h⟩ := h
      split_ifs at h
      · exact commitTo_advances h
      · cases h
        exact .refl r
    · cases h
      exact .refl r

theorem handleAppResp_advances {src : Fin n} {args : AppendEntiesArgs n C}
    {reply : AppendEntiesReply} (h : r.handleAppResp src args reply = .ok r') :
    Advances r r' := by
  unfold handleAppResp at h
  split_ifs at h
  · obtain ⟨⟨h1, h2, h3, h4⟩, ⟨h5, h6, h7, h8⟩, h9⟩ := updateCommitIndex_advances h
    exact ⟨⟨h1, h2, h3, h4⟩, ⟨h5, h6, h7, h8⟩, h9⟩
  · cases h
    exact .refl r
  · simp only [bind_eq_ok] at h
    obtain ⟨nexti, -, h⟩ := h
    split_ifs at h <;> cases h <;>
      exact ⟨⟨rfl, rfl, rfl, rfl⟩, ⟨le_rfl, rfl, rfl, rfl⟩, rfl⟩

end Raft

/-! ## Requests and responses -/

/-- The candidate, the voter and the term of a vote that a message asks for or brings. -/
def Message.ballot : Message n C → Option (Fin n × Fin n × ℕ)
  | .msgVote dst args => some (args.candidateId, dst, args.term)
  | .msgVoteResp src _ args _ => some (args.candidateId, src, args.term)
  | .msgApp _ _ => none
  | .msgAppResp _ _ _ _ => none

namespace Raft

variable {r r' : Raft n C} {rnd : ℕ} {msgs : List (Message n C)}

/-- What a broadcast sends goes from this server to the others. -/
theorem bcastAppend_msgs {x : Raft n C × List (Message n C)} (h : r.bcastAppend = .ok x) :
    ∀ m ∈ x.2, ∃ i args, m = .msgApp i args ∧ i ≠ r.me ∧ args.leaderId = r.me := by
  simp only [bcastAppend, bind_eq_ok] at h
  obtain ⟨ms, hms, h⟩ := h
  cases h
  intro m hm
  obtain ⟨i, hi, hmi⟩ := mapM_eq_ok hms m hm
  obtain ⟨args, hargs, hmi⟩ := bind_eq_ok.1 hmi
  cases hmi
  refine ⟨i, args, rfl, mem_peers.1 hi, ?_⟩
  unfold appendArgs at hargs
  simp only at hargs
  split_ifs at hargs
  obtain ⟨e, -, hargs⟩ := bind_eq_ok.1 hargs
  cases hargs
  rfl

theorem bcastAppend_ballot {x : Raft n C × List (Message n C)} (h : r.bcastAppend = .ok x) :
    ∀ m ∈ x.2, m.ballot = none := by
  intro m hm
  obtain ⟨i, args, rfl, -⟩ := bcastAppend_msgs h m hm
  rfl

theorem stepState_follower (hs : r.state = .stateFollower) (m : Message n C) :
    r.stepState rnd m = r.stepFollower m := by
  simp [stepState, hs]

theorem stepState_candidate (hs : r.state = .stateCandidate) (m : Message n C) :
    r.stepState rnd m = r.stepCandidate rnd m := by
  simp [stepState, hs]

theorem stepState_leader (hs : r.state = .stateLeader) (m : Message n C) :
    r.stepState rnd m = r.stepLeader m := by
  simp [stepState, hs]

/-- Handling a message is dropping an old one, or handling one of the present term, perhaps as a
follower that has just entered it. -/
theorem step_cases {m : Message n C} (h : r.step rnd m = .ok (r', msgs)) :
    (m.term < r.currentTerm ∧ r' = r.persist ∧ msgs = r.stepStale m) ∨
      ∃ r₁ r₂, r₁.stepState rnd m = .ok (r₂, msgs) ∧ r' = r₂.persist ∧ Keeps r r₁ ∧
        SameApplier r r₁ ∧ r₁.me = r.me ∧ m.term = r₁.currentTerm ∧
        (r₁.state ≠ .stateFollower → r₁ = r) := by
  unfold step stepTerm at h
  split_ifs at h with hgt hlt
  · split at h
    · rename_i r₂ msgs' heq
      cases h
      exact .inr ⟨_, r₂, heq, rfl, .becomeFollower r rnd _ _, .becomeFollower r rnd _ _,
        r.reset_me rnd _, (r.reset_currentTerm rnd _).symm, fun hs => absurd rfl hs⟩
    · cases h
  · cases h
    exact .inl ⟨hlt, rfl, rfl⟩
  · split at h
    · rename_i r₂ msgs' heq
      cases h
      exact .inr ⟨r, r₂, heq, rfl, (SameVotes.refl r).keeps, .refl r, rfl, by omega,
        fun _ => rfl⟩
    · cases h

/-- A request for a vote is answered, and a vote is cast only if the answer says so. -/
theorem step_request {dst : Fin n} {args : RequestVoteArgs n}
    (h : r.step rnd (.msgVote dst args) = .ok (r', msgs)) :
    ∃ reply, msgs = [.msgVoteResp r.me args.candidateId args reply] ∧
      ((reply.voteGranted = true ∧ r'.votedFor = some args.candidateId ∧
          r'.currentTerm = args.term ∧ r'.state = .stateFollower) ∨
        (reply.voteGranted = false ∧ Keeps r r')) := by
  rcases step_cases h with ⟨-, rfl, rfl⟩ | ⟨r₁, r₂, h', rfl, hk, -, hme, hT, -⟩
  · exact ⟨_, rfl, .inr ⟨rfl, (SameVotes.refl _).keeps.persist⟩⟩
  · rw [← hme]
    cases hs : r₁.state with
    | stateFollower =>
      rw [stepState_follower hs, stepFollower] at h'
      split_ifs at h' with hg
      · cases h'
        exact ⟨_, rfl, .inl ⟨rfl, rfl, hT.symm, hs⟩⟩
      · cases h'
        exact ⟨_, rfl, .inr ⟨rfl, hk.persist⟩⟩
    | stateCandidate =>
      rw [stepState_candidate hs, stepCandidate] at h'
      cases h'
      exact ⟨_, rfl, .inr ⟨rfl, hk.persist⟩⟩
    | stateLeader =>
      rw [stepState_leader hs, stepLeader] at h'
      cases h'
      exact ⟨_, rfl, .inr ⟨rfl, hk.persist⟩⟩

/-- A vote is recorded by a candidate that gets a response of its own term. -/
theorem step_answer {src dst : Fin n} {args : RequestVoteArgs n} {reply : RequestVoteReply}
    (h : r.step rnd (.msgVoteResp src dst args reply) = .ok (r', msgs)) :
    (∀ m ∈ msgs, m.ballot = none) ∧ (Keeps r r' ∨ (r.state = .stateCandidate ∧
      reply.term = r.currentTerm ∧ r'.currentTerm = r.currentTerm ∧ r'.votedFor = r.votedFor ∧
      r'.votes = r.pollVotes src reply.voteGranted)) := by
  rcases step_cases h with ⟨-, rfl, rfl⟩ | ⟨r₁, r₂, h', rfl, hk, -, -, hT, hst⟩
  · exact ⟨by simp [stepStale], .inl (SameVotes.refl _).keeps.persist⟩
  · cases hs : r₁.state with
    | stateFollower =>
      rw [stepState_follower hs] at h'
      cases h'
      exact ⟨by simp, .inl hk.persist⟩
    | stateLeader =>
      rw [stepState_leader hs, stepLeader] at h'
      cases h'
      exact ⟨by simp, .inl hk.persist⟩
    | stateCandidate =>
      obtain rfl := hst (by simp [hs])
      rw [stepState_candidate hs] at h'
      simp only [stepCandidate, poll_eq] at h'
      split_ifs at h' with hwin hlose
      · rw [becomeLeader_eq (by exact hs), leadership_setVotes] at h'
        have hr : r₂ = (r₁.leadership rnd).persist := bcastAppend_raft h'
        exact ⟨bcastAppend_ballot h', .inl (hr ▸ (Keeps.leadership r₁ rnd).persist.persist)⟩
      · cases h'
        rw [becomeFollower, reset_setVotes]
        exact ⟨by simp, .inl (Keeps.becomeFollower r₁ rnd _ none).persist⟩
      · cases h'
        exact ⟨by simp, .inr ⟨hs, hT, rfl, rfl, rfl⟩⟩

/-- Nothing about entries casts, records or carries a vote. -/
theorem step_append {m : Message n C} (hm : m.ballot = none)
    (h : r.step rnd m = .ok (r', msgs)) : (∀ m' ∈ msgs, m'.ballot = none) ∧ Keeps r r' := by
  rcases step_cases h with ⟨-, rfl, rfl⟩ | ⟨r₁, r₂, h', rfl, hk, -, -, -, -⟩
  · refine ⟨?_, (SameVotes.refl _).keeps.persist⟩
    cases m with
    | msgVote | msgVoteResp => simp [Message.ballot] at hm
    | msgApp | msgAppResp => simp [stepStale, Message.ballot]
  · -- the request is answered from the state it leaves
    have hfollow : ∀ {r₀ : Raft n C} {args : AppendEntiesArgs n C}, Keeps r r₀ →
        (do let x ← r₀.handleAppendEntries args
            return (x.1, [.msgAppResp x.1.me args.leaderId args x.2])) = Except.ok (r₂, msgs) →
        (∀ m' ∈ msgs, m'.ballot = none) ∧ Keeps r r₂.persist := by
      intro r₀ args hk₀ heq
      obtain ⟨x, hx, heq⟩ := bind_eq_ok.1 heq
      cases heq
      exact ⟨by simp [Message.ballot],
        (hk₀.trans (handleAppendEntries_advances hx).toSameVotes.keeps).persist⟩
    cases m with
    | msgVote | msgVoteResp => simp [Message.ballot] at hm
    | msgApp dst args =>
      cases hs : r₁.state with
      | stateFollower =>
        rw [stepState_follower hs] at h'
        exact hfollow hk h'
      | stateCandidate =>
        rw [stepState_candidate hs] at h'
        exact hfollow (hk.trans (.becomeFollower r₁ rnd _ _)) h'
      | stateLeader =>
        rw [stepState_leader hs, stepLeader] at h'
        cases h'
        exact ⟨by simp [Message.ballot], hk.persist⟩
    | msgAppResp src dst args reply =>
      cases hs : r₁.state with
      | stateFollower =>
        rw [stepState_follower hs] at h'
        cases h'
        exact ⟨by simp, hk.persist⟩
      | stateCandidate =>
        rw [stepState_candidate hs, stepCandidate] at h'
        cases h'
        exact ⟨by simp, hk.persist⟩
      | stateLeader =>
        rw [stepState_leader hs, stepLeader] at h'
        obtain ⟨r₃, hr, h'⟩ := bind_eq_ok.1 h'
        cases h'
        exact ⟨by simp, (hk.trans (handleAppResp_advances hr).toSameVotes.keeps).persist⟩

/-! ## The rest of the event loop -/

/-- What a tick does. -/
inductive Ticks (r : Raft n C) (rnd : ℕ) : Raft n C → List (Message n C) → Prop
  | heartbeat (ms : List (Message n C)) : r.state = .stateLeader →
      { r with heartbeatElapsed := 0 }.bcastAppend =
        .ok ({ r with heartbeatElapsed := 0 }.persist, ms) →
      Ticks r rnd { r with heartbeatElapsed := 0 }.persist ms
  | leading (k) : r.state = .stateLeader → Ticks r rnd { r with heartbeatElapsed := k } []
  | campaign (r₁ : Raft n C) (ms : List (Message n C)) : r.state ≠ .stateLeader →
      { r with electionElapsed := 0 }.campaign rnd = .ok (r₁, ms) → Ticks r rnd r₁ ms
  | waiting (k) : r.state ≠ .stateLeader → Ticks r rnd { r with electionElapsed := k } []

theorem tick_ticks (h : r.tick rnd = .ok (r', msgs)) : Ticks r rnd r' msgs := by
  unfold tick at h
  split_ifs at h with hs
  · simp only [tickHeartbeat] at h
    split_ifs at h
    · have hr := bcastAppend_raft h
      simp only at hr
      subst hr
      exact .heartbeat msgs hs h
    · cases h
      exact .leading _ hs
  · simp only [tickElection] at h
    split_ifs at h
    · exact .campaign r' msgs hs h
    · cases h
      exact .waiting _ hs

theorem handleStart_cases {command : Option C} {reply : StartReply}
    (h : r.handleStart command = .ok (r', msgs, reply)) :
    (r.state = .stateLeader ∧ (r.started command).bcastAppend = .ok (r', msgs) ∧
        r' = (r.started command).persist) ∨
      (r.state ≠ .stateLeader ∧ r' = r ∧ msgs = []) := by
  by_cases hs : r.state = .stateLeader
  · rw [handleStart_eq hs] at h
    cases hb : (r.started command).bcastAppend with
    | error e => simp [hb, Except.map] at h
    | ok x =>
      rw [hb] at h
      cases h
      exact .inl ⟨hs, rfl, bcastAppend_raft hb⟩
  · rw [show r.handleStart command = .ok (r, [], ⟨-1, -1, false⟩) from if_pos hs] at h
    cases h
    exact .inr ⟨hs, rfl, rfl⟩

/-- `stateMachine` has fields of its own. -/
theorem stateMachine_fields (h : r.stateMachine = .ok r') : ∃ commitc applying lastApplied applyCh,
    r' = { r with commitc, applying, lastApplied, applyCh } := by
  unfold stateMachine at h
  split at h
  · split at h
    · cases h
      exact ⟨_, _, _, _, rfl⟩
    · simp only at h
      split_ifs at h <;> cases h <;> exact ⟨_, _, _, _, rfl⟩
  · split_ifs at h
    · obtain ⟨e, -, h⟩ := bind_eq_ok.1 h
      cases h
      exact ⟨_, _, _, _, rfl⟩
    · cases h
      exact ⟨_, _, _, _, rfl⟩

/-- A tick that starts no election. -/
theorem tick_votes (h2 : 2 ≤ n) (hw : LogWf r.log) (h : r.tick rnd = .ok (r', msgs)) :
    ((∀ m ∈ msgs, m.ballot = none) ∧ Keeps r r') ∨
      ∃ args, args.candidateId = r.me ∧ args.term = r.currentTerm + 1 ∧
        msgs = r.peers.map (.msgVote · args) ∧ r'.currentTerm = r.currentTerm + 1 ∧
        r'.votedFor = some r.me ∧ ∀ q b, r'.votes q = some b → q = r.me := by
  cases tick_ticks h with
  | heartbeat msgs hs hb =>
    exact .inl ⟨bcastAppend_ballot hb, Keeps.persist (SameVotes.keeps ⟨rfl, rfl, rfl, rfl⟩)⟩
  | leading k hs => exact .inl ⟨by simp, SameVotes.keeps ⟨rfl, rfl, rfl, rfl⟩⟩
  | campaign r' msgs hs hc =>
    set r₀ : Raft n C := { r with electionElapsed := 0 }
    rw [campaign_eq (r := r₀) h2 hw hs] at hc
    cases hc
    have hme : (r₀.candidacy rnd).me = r.me := r₀.reset_me rnd _
    have hT : (r₀.candidacy rnd).currentTerm = r.currentTerm + 1 := r₀.reset_currentTerm rnd _
    have hv : ∀ q b, (r₀.candidacy rnd).votes q = some b → q = r₀.me :=
      fun q b hq => candidacy_votes hq
    refine .inr ⟨(r₀.candidacy rnd).voteArgs, hme, hT, ?_, hT, rfl, hv⟩
    simp only [peers, hme]
  | waiting k hs => exact .inl ⟨by simp, SameVotes.keeps ⟨rfl, rfl, rfl, rfl⟩⟩

theorem handleStart_votes {command : Option C} {reply : StartReply}
    (h : r.handleStart command = .ok (r', msgs, reply)) :
    (∀ m ∈ msgs, m.ballot = none) ∧ Keeps r r' := by
  rcases handleStart_cases h with ⟨-, hb, rfl⟩ | ⟨-, rfl, rfl⟩
  · exact ⟨bcastAppend_ballot hb, Keeps.persist (SameVotes.keeps ⟨rfl, rfl, rfl, rfl⟩)⟩
  · exact ⟨by simp, (SameVotes.refl r').keeps⟩

theorem stateMachine_votes (h : r.stateMachine = .ok r') : Keeps r r' := by
  obtain ⟨_, _, _, _, rfl⟩ := stateMachine_fields h
  exact SameVotes.keeps ⟨rfl, rfl, rfl, rfl⟩

theorem make_votes (h : r.Durable) (p : Fin n) (rnd : ℕ) :
    Keeps r (make p r.persister rnd) := by
  have habs := abs_make (p := p) h rnd
  refine ⟨fun c hc => ⟨?_, congrArg Replog.Replica.term habs⟩, fun hs => ?_⟩
  · exact (congrArg Replog.Replica.vote habs).symm.trans hc
  · have := congrArg Replog.Replica.role habs
    simp [abs, hs, RaftState.role] at this

end Raft

end DistSystem
