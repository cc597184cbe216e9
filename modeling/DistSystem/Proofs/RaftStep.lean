import DistSystem.Proofs.RaftInv

/-!
# What one iteration of the event loop does

Each function the event loop calls makes a move of the protocol, keeps what holds of a server and
sends only messages its state backs (`Handled`). The only panic on the way is a leader's: a
rejection that answers a request of an earlier leadership may point past the end of the log
(`stepLeader_handled`).
-/

namespace DistSystem

open Replog (CandidateAt LeaderAt Move Run)

variable {n : ℕ} {C : Type} {τ : History n C} {t : ℕ} {p : Fin n} {r : Raft n C}

theorem Handled.quiet {msgs : List (Message n C)} (hr : τ t p = r.abs) (hok : RaftOk τ t p r)
    (hs : ∀ m ∈ msgs, MessageOk τ t m) : Handled τ t p r msgs :=
  ⟨hr ▸ .quiet, hok.mono (Nat.le_succ t), fun m hm => (hs m hm).mono (Nat.le_succ t)⟩

theorem leaderAt_of_abs (hr : τ t p = r.abs) (hs : r.state = .stateLeader) :
    LeaderAt τ t p r.currentTerm :=
  ⟨by rw [hr]; simpa [Raft.abs] using hs, by rw [hr]; rfl⟩

theorem move_enter (T : ℕ) : Move (protocol n C) τ t p ((τ t p).enter T) := by
  by_cases h : (τ t p).term < T
  · exact .observe h
  · rw [Replog.Replica.enter_of_le (Nat.not_lt.1 h)]
    exact .quiet

theorem move_follow (T : ℕ) :
    Move (protocol n C) τ t p { (τ t p).enter T with role := .follower } := by
  by_cases h : (τ t p).term < T
  · have := Move.observe (P := protocol n C) h
    rwa [Replog.Replica.enter_of_lt h] at this ⊢
  · rw [Replog.Replica.enter_of_le (Nat.not_lt.1 h)]
    exact .stepDown

/-- A server that is not a follower has not just heard of a new term. -/
theorem abs_of_enter (he : r.abs = (τ t p).enter r.currentTerm) (hs : r.state ≠ .stateFollower) :
    τ t p = r.abs := by
  by_cases h : (τ t p).term < r.currentTerm
  · rw [Replog.Replica.enter_of_lt h] at he
    have : r.state.role = .follower := congrArg Replog.Replica.role he
    simp [hs] at this
  · rw [he, Replog.Replica.enter_of_le (Nat.not_lt.1 h)]

theorem Handled.stay {msgs : List (Message n C)} (he : r.abs = (τ t p).enter r.currentTerm)
    (hok : RaftOk τ t p r) (hs : ∀ m ∈ msgs, MessageOk τ (t + 1) m) : Handled τ t p r msgs :=
  ⟨he ▸ move_enter _, hok.mono (Nat.le_succ t), hs⟩

/-! ## Ticks -/

namespace Raft

/-- The votes after `poll`. -/
def pollVotes (r : Raft n C) (id : Fin n) (v : Bool) : Fin n → Option Bool :=
  if r.votes id = none then Function.update r.votes id (some v) else r.votes

theorem poll_eq (r : Raft n C) (id : Fin n) (v : Bool) :
    r.poll id v = ({ r with votes := r.pollVotes id v },
      { r with votes := r.pollVotes id v }.countVotes true) := by
  unfold poll pollVotes
  split_ifs <;> rfl

theorem poll_fresh (h : r.votes = fun _ => none) (id : Fin n) (v : Bool) :
    r.poll id v = ({ r with votes := Function.update (fun _ => none) id (some v) },
      { r with votes := Function.update (fun _ => none) id (some v) }.countVotes true) := by
  rw [poll_eq, pollVotes, h, if_pos rfl]

theorem pollVotes_some {id q : Fin n} {v b : Bool} (h : r.pollVotes id v q = some b) :
    r.votes q = some b ∨ (q = id ∧ b = v) := by
  unfold pollVotes at h
  split_ifs at h
  · by_cases hq : q = id
    · subst hq
      simp only [Function.update_self, Option.some.injEq] at h
      exact .inr ⟨rfl, h.symm⟩
    · rw [Function.update_of_ne hq] at h
      exact .inl h
  · exact .inl h

theorem countVotes_poll_le (r : Raft n C) (id : Fin n) (v b : Bool) :
    { r with votes := r.pollVotes id v }.countVotes b ≤ r.countVotes b + 1 := by
  rw [countVotes_eq, countVotes_eq]
  refine (Finset.card_le_card fun q hq => ?_).trans (Finset.card_insert_le id _)
  simp only [Finset.mem_filter, Finset.mem_univ, true_and, Finset.mem_insert] at hq ⊢
  exact (pollVotes_some hq).symm.imp_left And.left

/-- The server once it has entered a new term and voted for itself. -/
def candidacy (r : Raft n C) (rnd : ℕ) : Raft n C :=
  { r.reset rnd (r.currentTerm + 1) with
    votedFor := some r.me
    state := .stateCandidate
    votes := Function.update (fun _ => none) r.me (some true) }

theorem candidacy_log (h : LogWf r.log) (rnd : ℕ) : (r.candidacy rnd).log = r.log :=
  reset_log _ _ h.ne

theorem abs_candidacy (h : LogWf r.log) (rnd : ℕ) :
    (r.candidacy rnd).abs =
      { r.abs with term := r.currentTerm + 1, vote := some r.me, role := .candidate } := by
  simp [abs, candidacy, reset_log _ _ h.ne, RaftState.role]

theorem candidacy_votes {rnd : ℕ} {q : Fin n} {v : Bool}
    (h : (r.candidacy rnd).votes q = some v) : q = r.me := by
  by_contra hne
  simp [candidacy, Function.update_of_ne hne] at h

theorem countVotes_candidacy (r : Raft n C) (rnd : ℕ) (v : Bool) :
    (r.candidacy rnd).countVotes v ≤ 1 := by
  rw [countVotes_eq]
  refine (Finset.card_le_card fun q hq => ?_).trans (Finset.card_singleton r.me).le
  exact Finset.mem_singleton.2 (candidacy_votes (Finset.mem_filter.1 hq).2)

theorem becomeCandidate_poll (hs : r.state ≠ .stateLeader) (rnd : ℕ) :
    ∃ r₀, r.becomeCandidate rnd = .ok r₀ ∧
      r₀.poll r₀.me true = (r.candidacy rnd, (r.candidacy rnd).countVotes true) := by
  refine ⟨_, if_neg hs, (poll_fresh rfl _ _).trans ?_⟩
  simp only [reset_me, candidacy]

theorem campaign_eq (h2 : 2 ≤ n) (h : LogWf r.log) (hs : r.state ≠ .stateLeader) (rnd : ℕ) :
    r.campaign rnd = .ok ((r.candidacy rnd).persist,
      (r.candidacy rnd).peers.map fun i => .msgVote i (r.candidacy rnd).voteArgs) := by
  have hq : n / 2 + 1 ≠ (r.candidacy rnd).countVotes true := by
    have := countVotes_candidacy r rnd true
    omega
  obtain ⟨r₀, hc, hp⟩ := becomeCandidate_poll hs rnd
  simp only [campaign, hc, bind, Except.bind, hp, quorum, beq_iff_eq, if_neg hq]
  exact bcastRequestVoteRPC_eq (by rw [candidacy_log h]; exact h)

end Raft

theorem lastTerm_log (h : LogWf r.log) : (protocol n C).lastTerm r.log = r.lastLog.term := by
  have := Raft.getElem?_lastLog h.ne
  rw [← List.getLast?_eq_getElem?] at this
  simp [Replog.Protocol.lastTerm, this]

theorem campaign_handled (hr : τ t p = r.abs) (hok : RaftOk τ t p r) (h2 : 2 ≤ n)
    (hs : r.state ≠ .stateLeader) (rnd : ℕ) (hn : τ (t + 1) p = (r.candidacy rnd).abs) :
    Handled τ t p (r.candidacy rnd).persist
      ((r.candidacy rnd).peers.map fun i => .msgVote i (r.candidacy rnd).voteArgs) := by
  have hlog := Raft.candidacy_log hok.wf rnd
  have hme : (r.candidacy rnd).me = p := (r.reset_me rnd _).trans hok.me
  have habs := Raft.abs_candidacy hok.wf rnd
  have hwf : LogWf (r.candidacy rnd).log := by rw [hlog]; exact hok.wf
  refine ⟨?_, RaftOk.persist ⟨hme, hwf, ?_, fun _ => ⟨fun q hq => ?_, fun v => ?_⟩, ?_⟩, ?_⟩
  · have := Move.campaign (P := protocol n C) (τ := τ) (t := t) (v := p) (by simpa [hr, Raft.abs])
    rw [hr] at this
    rw [Raft.abs_persist, habs, hok.me]
    exact this
  · exact (hok.applier.mono (Nat.le_succ t)).congr (r.reset_commitIndex rnd _)
      (r.reset_commitc rnd _) (r.reset_applying rnd _) (r.reset_applyCh rnd _)
      (r.reset_lastApplied rnd _)
  · obtain rfl : q = p := (Raft.candidacy_votes hq).trans hok.me
    refine ⟨t + 1, le_rfl, by rw [hn]; rfl, ?_⟩
    rw [hn, habs, hme, hok.me]
  · have := Raft.countVotes_candidacy r rnd v
    omega
  · exact fun h => by simp [Raft.candidacy] at h
  · intro m hm
    obtain ⟨i, -, rfl⟩ := List.mem_map.1 hm
    have hlast := Raft.lastIndex_eq hwf
    refine ⟨t + 1, le_rfl, ⟨?_, ?_⟩, ?_, ?_⟩ <;> simp only [Raft.voteArgs, hme, hn]
    · rfl
    · rfl
    · exact hlast
    · exact (lastTerm_log hwf).symm

theorem bcastAppend_sent (hme : r.me = p) (hw : LogWf r.log) (hs : r.state = .stateLeader)
    (hnext : ∀ q, 1 ≤ r.nextIndex q ∧ r.nextIndex q ≤ r.log.length) :
    ∃ msgs, r.bcastAppend = .ok (r.persist, msgs) ∧
      (τ t p = r.abs → ∀ m ∈ msgs, MessageOk τ t m) := by
  obtain ⟨msgs, hb, hm⟩ := Raft.bcastAppend_ok hw fun i _ => hnext i
  refine ⟨msgs, hb, fun hr m hm' => ?_⟩
  obtain ⟨i, args, -, rfl, hT, hid, hfrom⟩ := hm m hm'
  rw [hme] at hid
  refine ⟨t, le_rfl, ?_, ?_⟩
  · rw [hid, hT]
    exact leaderAt_of_abs hr hs
  · rw [hid, hr]
    exact hfrom

theorem tick_handled (hr : τ t p = r.abs) (hok : RaftOk τ t p r) (h2 : 2 ≤ n) (rnd : ℕ) :
    ∃ r' msgs, r.tick rnd = .ok (r', msgs) ∧ (r.Durable → r'.Durable) ∧
      (τ (t + 1) p = r'.abs → Handled τ t p r' msgs) := by
  by_cases hs : r.state = .stateLeader
  · simp only [Raft.tick, if_pos hs, Raft.tickHeartbeat]
    split_ifs with hb
    · set r₀ : Raft n C := { r with heartbeatElapsed := 0 }
      have hok₀ : RaftOk τ t p r₀ := hok.timers _ _ _ _ _
      obtain ⟨msgs, hbc, hm⟩ := bcastAppend_sent hok₀.me hok₀.wf hs (hok₀.leader hs).next
      exact ⟨_, msgs, hbc, fun _ => .persist r₀, fun _ => .quiet hr hok₀.persist (hm hr)⟩
    · exact ⟨_, [], rfl, id, fun _ => .quiet hr (hok.timers _ _ _ _ _) (by simp)⟩
  · simp only [Raft.tick, if_neg hs, Raft.tickElection]
    split_ifs with hb
    · set r₀ : Raft n C := { r with electionElapsed := 0 }
      have hok₀ : RaftOk τ t p r₀ := hok.timers _ _ _ _ _
      exact ⟨_, _, Raft.campaign_eq h2 (r := r₀) hok.wf hs rnd, fun _ => .persist _,
        campaign_handled (r := r₀) hr hok₀ h2 hs rnd⟩
    · exact ⟨_, [], rfl, id, fun _ => .quiet hr (hok.timers _ _ _ _ _) (by simp)⟩

/-! ## Commitment -/

theorem updateCommitIndex_handled (hr : τ t p = r.abs) (hs : r.state = .stateLeader)
    (hok : RaftOk τ t p r) :
    ∃ r', r.updateCommitIndex = .ok r' ∧ Handled τ t p r' [] := by
  have h := hok.leader hs
  rcases Raft.updateCommitIndex_spec hok.wf h.matched_lt (Fin.pos p) with
    heq | ⟨k, e, hk, hterm, hlt, hcard, heq⟩
  · exact ⟨_, heq, .quiet hr hok (by simp)⟩
  · refine ⟨_, heq, ?_, RaftOk.mono (Nat.le_succ t) ⟨hok.me, hok.wf, ?_, ?_, ?_⟩, by simp⟩
    · have := Move.advance (P := protocol n C) (τ := τ) (t := t) (v := p) (k := k) (e := e)
        (by rw [hr]; exact RaftState.role_eq_leader.2 hs) (by rw [hr]; exact hk)
        (by rw [hr]; exact hterm) hcard fun q hq => ?_
      · rw [hr] at this
        exact this
      · have hkq : k ≤ r.matchIndex q := (Finset.mem_filter.1 hq).2
        rcases h.matched q with h0 | ⟨u, hu, hT, hpre⟩
        · omega
        · rw [hr]
          have htake : r.log.take (k + 1) <+: r.log.take (r.matchIndex q + 1) :=
            List.take_prefix_take_left (by omega)
          exact ⟨u, hu, hT, htake.trans hpre⟩
    · exact hok.applier.of_le hlt.le (fun c hc => (Option.some.inj hc).ge) rfl rfl rfl
    · exact fun hc => by simp [hs] at hc
    · exact fun _ => ⟨h.next, h.matched_lt, h.matched⟩

/-! ## Requests -/

theorem upToDate_of_req (h : LogWf r.log) {args : RequestVoteArgs n} {L : List (Log C)}
    (hi : args.lastLogIndex + 1 = L.length) (hT : args.lastLogTerm = (protocol n C).lastTerm L)
    (hreq : r.reqMoreUpToDate args = true) : (protocol n C).UpToDate L r.log := by
  have hlast : r.lastLog.index + 1 = r.log.length := Raft.lastIndex_eq h
  simp only [Raft.reqMoreUpToDate, Bool.or_eq_true, Bool.and_eq_true, decide_eq_true_eq,
    beq_iff_eq] at hreq
  unfold Replog.Protocol.UpToDate
  rw [lastTerm_log h, ← hT]
  refine hreq.imp id fun hreq => ⟨hreq.1, ?_⟩
  omega

/-- A vote in the term the server is in. -/
theorem vote_handled (hok : RaftOk τ t p r) (he : r.abs = (τ t p).enter r.currentTerm)
    (hs : r.state = .stateFollower) {args : RequestVoteArgs n} (hm : VoteRequested τ t args)
    (hT : args.term = r.currentTerm)
    (hv : r.votedFor = none ∨ r.votedFor = some args.candidateId)
    (hreq : r.reqMoreUpToDate args = true)
    (hn : τ (t + 1) p = { r.abs with vote := some args.candidateId }) :
    Handled τ t p { r with electionElapsed := 0, votedFor := some args.candidateId }
      [.msgVoteResp r.me args.candidateId args ⟨r.currentTerm, true⟩] := by
  refine ⟨?_, ?_, ?_⟩
  · obtain ⟨u, hu, hc, hi, hlT⟩ := hm
    rw [hT] at hc
    have hlog : (τ t p).log = r.log := by
      rw [← (τ t p).enter_log r.currentTerm, ← he]
      rfl
    have := Move.grant (P := protocol n C) (τ := τ) (t := t) (v := p) (T := r.currentTerm)
      (by rw [← he]; rfl) (by rw [← he]; simpa [Raft.abs] using hs) (by rw [← he]; exact hv)
      hu hc (by rw [hlog]; exact upToDate_of_req hok.wf hi hlT hreq)
    rwa [← he] at this
  · exact .follower hs hok.me hok.wf ((hok.applier.mono (Nat.le_succ t)).congr rfl rfl rfl rfl rfl)
  · intro m hmem
    obtain rfl := List.mem_singleton.1 hmem
    refine ⟨rfl, hm.mono (Nat.le_succ t), fun _ => ⟨hT.symm, t + 1, le_rfl, ?_⟩⟩
    rw [hok.me, hn]
    exact ⟨rfl, rfl⟩

/-- A vote request the server turns down. -/
theorem refuse_handled (hok : RaftOk τ t p r) (he : r.abs = (τ t p).enter r.currentTerm)
    {args : RequestVoteArgs n} (hm : VoteRequested τ t args) (reply : RequestVoteReply)
    (hg : reply.voteGranted = false) :
    Handled τ t p r [.msgVoteResp r.me args.candidateId args reply] := by
  refine .stay he hok fun m hmem => ?_
  obtain rfl := List.mem_singleton.1 hmem
  exact ⟨rfl, hm.mono (Nat.le_succ t), fun h => by simp [hg] at h⟩

section Run

variable (hrun : Run (protocol n C) τ t) (hwf : ∀ u ≤ t, ∀ q, LogWf (τ u q).log)
include hrun

include hwf in
/-- A follower takes over what the leader of its term sent. -/
theorem follow_handled (hok : RaftOk τ t p r) (hs : r.state = .stateFollower)
    (he : r.abs = { (τ t p).enter r.currentTerm with role := .follower })
    (hnl : ((τ t p).enter r.currentTerm).role ≠ .leader) {args : AppendEntiesArgs n C}
    (hm : AppendRequested τ t args) (hT : args.term = r.currentTerm) :
    ∃ r' reply, r.handleAppendEntries args = .ok (r', reply) ∧ r'.me = r.me ∧
      (τ (t + 1) p = r'.abs →
        Handled τ t p r' [.msgAppResp r.me args.leaderId args reply]) := by
  have hlog : r.log = (τ t p).log := by
    rw [← (τ t p).enter_log r.currentTerm]
    exact congrArg Replog.Replica.log he
  have hcommit : r.commitIndex = (τ t p).commit := by
    rw [← (τ t p).enter_commit r.currentTerm]
    exact congrArg Replog.Replica.commit he
  have hterm : r.currentTerm = ((τ t p).enter r.currentTerm).term :=
    congrArg Replog.Replica.term he
  have hvote : r.votedFor = ((τ t p).enter r.currentTerm).vote :=
    congrArg Replog.Replica.vote he
  obtain ⟨w, hw, hlead, hfrom⟩ := id hm
  rw [hT] at hlead
  obtain ⟨reply, log, ci, cc, heq, hterm', hpos, hcf, hcases⟩ := Raft.handleAppendEntries_spec
    hok.wf (hwf w hw _) (fun ha hb hab => by
      rw [hlog] at ha ⊢
      exact hrun.log_matching le_rfl hw ha hb hab) hfrom (hrun.commit_lt hw _)
    (by rw [hlog, hcommit]; exact hrun.commit_lt le_rfl p)
  refine ⟨_, reply, heq, rfl, fun hn => ?_⟩
  have happ := hok.applier.mono (Nat.le_succ t)
  have hle : args.term ≤ reply.term := by rw [hterm', hT]
  have hsent : AppendAnswered τ (t + 1) p args reply →
      ∀ m ∈ [Message.msgAppResp r.me args.leaderId args reply], MessageOk τ (t + 1) m := by
    intro hans m hmem
    obtain rfl := List.mem_singleton.1 hmem
    exact ⟨rfl, hm.mono (Nat.le_succ t), .inr (hok.me ▸ hans)⟩
  rcases hcases with ⟨hsu, hnx, rfl, rfl, rfl⟩ | ⟨hsu, hnx, rfl, rfl, rfl⟩ |
      ⟨hsu, hnx, rfl, rfl, rfl⟩
  · refine ⟨he ▸ move_follow r.currentTerm,
      .follower hs hok.me hok.wf (happ.congr rfl rfl rfl rfl rfl), hsent
      ⟨hpos, hcf, hle, fun _ => hterm'.trans hT.symm, t + 1, le_rfl, ?_, .inl ?_⟩⟩
    · rw [hn, hterm']
      rfl
    · rw [hn, hnx]
      rfl
  · refine ⟨?_, .follower hs hok.me ((hwf w hw _).merge hok.wf) (happ.of_le (le_max_left _ _) ?_
      rfl rfl rfl), hsent ⟨hpos, hcf, hle, fun _ => hterm'.trans hT.symm, t + 1, le_rfl, ?_,
        .inr (.inl ⟨hsu, w, by omega, hT ▸ hlead, ?_, hnx⟩)⟩⟩
    · have := Move.accept (P := protocol n C) (τ := τ) (t := t) (v := p) hterm.symm hnl hw hlead
      rw [← hlog, ← hcommit] at this
      convert this using 1
      exact Replog.Replica.ext hterm hvote (RaftState.role_eq_follower.2 hs) rfl rfl
    · intro c hc
      split_ifs at hc with hlt
      · rw [← Option.some.inj hc]
        exact le_max_right _ _
      · exact (hok.applier.commitc c hc).trans (le_max_left _ _)
    · rw [hn, hterm']
      rfl
    · rw [hn]
      exact Replog.prefix_merge _ _
  · refine ⟨he ▸ move_follow r.currentTerm,
      .follower hs hok.me hok.wf (happ.congr rfl rfl rfl rfl rfl), hsent
      ⟨hpos, hcf, hle, fun h => by simp [hsu] at h, t + 1, le_rfl, ?_,
        .inr (.inr ⟨hsu, hterm'.trans hT.symm, hnx⟩)⟩⟩
    rw [hn, hterm']
    rfl

/-! ## Answers to a leader -/

/-- A leader's request reaches no further than its log does while it leads. -/
theorem requested_prev (hr : τ t p = r.abs) (hs : r.state = .stateLeader)
    {args : AppendEntiesArgs n C} (hreq : AppendRequested τ t args)
    (hT : args.term = r.currentTerm) : args.prevLogIndex < r.log.length := by
  obtain ⟨w, hw, hlead, hfrom⟩ := hreq
  rw [hT] at hlead
  have hle := hrun.leader_log_mono hw le_rfl hlead (leaderAt_of_abs hr hs)
  rw [hr] at hle
  exact hfrom.prev_lt.trans_le hle.length_le

/-- The answer of a server that handled the request, since an empty one is of no term. -/
theorem answered_of_term (hr : τ t p = r.abs) {src : Fin n} {args : AppendEntiesArgs n C}
    {reply : AppendEntiesReply} (ha : reply = {} ∨ AppendAnswered τ t src args reply)
    (hT : reply.term = r.currentTerm) : AppendAnswered τ t src args reply := by
  refine ha.resolve_left fun h0 => ?_
  have h1 : 1 ≤ (τ t p).term := hrun.term_ge le_rfl p
  rw [hr] at h1
  subst h0
  exact absurd (show (0 : ℕ) = r.currentTerm from hT) (Nat.ne_of_lt h1)

/-- The next index in an answer is in range, and after a success what is below it is held. -/
theorem answered_next (hr : τ t p = r.abs) (hs : r.state = .stateLeader) {src : Fin n}
    {args : AppendEntiesArgs n C} {reply : AppendEntiesReply}
    (hreq : AppendRequested τ t args) (ha : AppendAnswered τ t src args reply)
    (hT : reply.term = r.currentTerm) :
    reply.nextIndex ≤ r.log.length ∧ (reply.success = true →
      ∃ u ≤ t, (τ u src).term = r.currentTerm ∧ r.log.take reply.nextIndex <+: (τ u src).log) := by
  have hl := leaderAt_of_abs hr hs
  have hlog : (τ t p).log = r.log := by rw [hr]; rfl
  -- a list that both logs start with is what is below its length
  have key : ∀ {u : ℕ} {l : List (Log C)}, u ≤ t → (τ u src).term = r.currentTerm →
      l <+: (τ u src).log → l <+: r.log → reply.nextIndex = l.length →
      reply.nextIndex ≤ r.log.length ∧ (reply.success = true → ∃ u ≤ t,
        (τ u src).term = r.currentTerm ∧ r.log.take reply.nextIndex <+: (τ u src).log) := by
    intro u l hu hterm hsrc hlead hn
    rw [hn]
    refine ⟨hlead.length_le, fun _ => ⟨u, hu, hterm, ?_⟩⟩
    rwa [← List.prefix_iff_eq_take.1 hlead]
  obtain ⟨u, hu, hterm, hnext⟩ := ha.next
  rw [hT] at hterm
  rcases hnext with hnext | ⟨hsu, w, hw, hlw, hsrc, hnext⟩ | ⟨hsu, hargs, hnext⟩
  · have hle := hrun.committed_le_leader hu le_rfl hl (.inr ⟨hterm, hu⟩)
    rw [hlog] at hle
    refine key hu hterm ?_ hle ?_
    · exact List.take_prefix _ _
    · have := hrun.commit_lt hu src
      rw [List.length_take]
      omega
  · rw [← ha.success hsu, hT] at hlw
    have hle := hrun.leader_log_mono (hw.trans hu) le_rfl hlw hl
    rw [hlog] at hle
    exact key hu hterm hsrc hle hnext
  · have := requested_prev hrun hr hs hreq (hargs.symm.trans hT)
    exact ⟨by omega, fun h => by simp [hsu] at h⟩

/-- The leader after a success that moves `src` on. -/
theorem progress_matched (hr : τ t p = r.abs) (hs : r.state = .stateLeader)
    (hok : RaftOk τ t p r) {src : Fin n} {args : AppendEntiesArgs n C}
    {reply : AppendEntiesReply} (hreq : AppendRequested τ t args)
    (ha : AppendAnswered τ t src args reply) (hT : reply.term = r.currentTerm)
    (hsu : reply.success = true) :
    ProgressOk τ t { r with
      nextIndex := Function.update r.nextIndex src reply.nextIndex
      matchIndex := Function.update r.matchIndex src (reply.nextIndex - 1) } := by
  obtain ⟨hle, hheld⟩ := answered_next hrun hr hs hreq ha hT
  have hpos := ha.pos
  have h := hok.leader hs
  refine ⟨fun q => ?_, fun q => ?_, fun q => ?_⟩ <;> by_cases hq : q = src
  · subst hq
    simp [hpos, hle]
  · simpa [Function.update_of_ne hq] using h.next q
  · subst hq
    simp only [Function.update_self]
    omega
  · simpa [Function.update_of_ne hq] using h.matched_lt q
  · subst hq
    simp only [Function.update_self, show reply.nextIndex - 1 + 1 = reply.nextIndex by omega]
    exact .inr (hheld hsu)
  · simpa [Function.update_of_ne hq] using h.matched q

end Run

/-! ## Answers to a candidate -/

namespace Raft

/-- The server once elected. -/
def leadership (r : Raft n C) (rnd : ℕ) : Raft n C :=
  { r.reset rnd r.currentTerm with
    lead := some r.me
    state := .stateLeader
    nextIndex := fun _ => r.log.length }

theorem reset_setVotes (r : Raft n C) (rnd T : ℕ) (v : Fin n → Option Bool) :
    { r with votes := v }.reset rnd T = r.reset rnd T := by
  unfold reset resetRandomizedElectionTimeout
  split_ifs <;> rfl

theorem leadership_setVotes (r : Raft n C) (rnd : ℕ) (v : Fin n → Option Bool) :
    { r with votes := v }.leadership rnd = r.leadership rnd := by
  simp only [leadership, reset_setVotes]

theorem becomeLeader_eq (hs : r.state = .stateCandidate) (rnd : ℕ) :
    r.becomeLeader rnd = .ok (r.leadership rnd) := by
  rw [becomeLeader, if_neg (by simp [hs])]
  rfl

theorem leadership_log (h : LogWf r.log) (rnd : ℕ) : (r.leadership rnd).log = r.log :=
  reset_log _ _ h.ne

theorem abs_leadership (h : LogWf r.log) (rnd : ℕ) :
    (r.leadership rnd).abs = { r.abs with role := .leader } := by
  simp [abs, leadership, reset_log _ _ h.ne, reset_votedFor, RaftState.role]

end Raft

theorem RaftOk.leadership (h : RaftOk τ t p r) (rnd : ℕ) : RaftOk τ t p (r.leadership rnd) where
  me := (r.reset_me rnd _).trans h.me
  wf := by rw [Raft.leadership_log h.wf]; exact h.wf
  applier := h.applier.congr (r.reset_commitIndex rnd _) (r.reset_commitc rnd _)
    (r.reset_applying rnd _) (r.reset_applyCh rnd _) (r.reset_lastApplied rnd _)
  candidate hs := by simp [Raft.leadership] at hs
  leader _ := by
    have hpos := List.length_pos_iff.2 h.wf.ne
    have hlog := Raft.leadership_log h.wf rnd
    refine ⟨fun q => ?_, fun q => ?_, fun q => .inl rfl⟩
    · rw [hlog]
      exact ⟨hpos, le_rfl⟩
    · rw [hlog]
      exact hpos

/-- A vote is recorded for a candidate that then wins, gives up or goes on waiting. -/
theorem voteResp_handled (hr : τ t p = r.abs) (hok : RaftOk τ t p r)
    (hs : r.state = .stateCandidate) {src dst : Fin n} {args : RequestVoteArgs n}
    {reply : RequestVoteReply} (hdst : dst = p) (ha : VoteAnswered τ t src dst args reply)
    (hT : reply.term = r.currentTerm) (rnd : ℕ) :
    ∃ r' msgs, r.stepCandidate rnd (.msgVoteResp src dst args reply) = .ok (r', msgs) ∧
      (τ (t + 1) p = r'.abs → Handled τ t p r' msgs) := by
  subst hdst
  set r₁ : Raft n C := { r with votes := r.pollVotes src reply.voteGranted } with hr₁
  have hcand := hok.candidate hs
  have hgranted : ∀ q, r₁.votes q = some true →
      ∃ u ≤ t, (τ u q).term = r.currentTerm ∧ (τ u q).vote = some r.me := by
    intro q hq
    rcases Raft.pollVotes_some hq with hq | ⟨rfl, hg⟩
    · exact hcand.granted q hq
    · obtain ⟨-, u, hu, hterm, hvote⟩ := ha hg.symm
      exact ⟨u, hu, hterm.trans hT, hok.me ▸ hvote⟩
  have hcount : ∀ v, r₁.countVotes v ≤ n / 2 + 1 := fun v =>
    (Raft.countVotes_poll_le r src reply.voteGranted v).trans (hcand.undecided v)
  simp only [Raft.stepCandidate, Raft.poll_eq, ← hr₁, Raft.quorum]
  split_ifs with hwin hlose
  · have hok' := (hok.mono (Nat.le_succ t)).leadership rnd
    obtain ⟨msgs, hb, hm⟩ := bcastAppend_sent hok'.me hok'.wf rfl (hok'.leader rfl).next
    refine ⟨_, msgs, ?_, fun hn => ⟨?_, hok'.persist, hm hn⟩⟩
    · rw [Raft.becomeLeader_eq (by exact hs), Raft.leadership_setVotes]
      exact hb
    · rw [Raft.abs_persist, Raft.abs_leadership hok.wf]
      have hcard : n / 2 + 1 ≤ (Finset.univ.filter fun q => r₁.votes q = some true).card := by
        rw [← Raft.countVotes_eq, ← hwin]
      have := Move.elect (P := protocol n C) (τ := τ) (t := t) (v := dst)
        (by rw [hr]; exact RaftState.role_eq_candidate.2 hs) hcard fun q hq => ?_
      · rw [hr] at this
        exact this
      · obtain ⟨u, hu, hterm, hvote⟩ := hgranted q (Finset.mem_filter.1 hq).2
        exact ⟨u, hu, by rw [hr]; exact hterm, hok.me ▸ hvote⟩
  · refine ⟨_, [], rfl, fun _ => ⟨?_, ?_, by simp⟩⟩
    · rw [Raft.abs_becomeFollower_self _ _ (by exact hok.wf.ne)]
      exact hr ▸ .stepDown
    · rw [Raft.becomeFollower, hr₁, Raft.reset_setVotes]
      exact (hok.mono (Nat.le_succ t)).becomeFollower _ _ _
  · refine ⟨_, [], rfl, fun _ => .quiet hr ⟨hok.me, hok.wf, hok.applier.congr rfl rfl rfl rfl rfl,
      fun _ => ⟨hgranted, fun v => ?_⟩, fun h => ?_⟩ (by simp)⟩
    · have := hcount v
      cases v <;> omega
    · simp [hr₁, hs] at h

/-! ## Steps -/

/-- The call leaves the state `r`, having sent `msgs`; it panics just when `bad` holds, and what a
panic was about to send is lost. -/
inductive Leaves (bad : Prop) :
    Go n C (Raft n C × List (Message n C)) → Raft n C → List (Message n C) → Prop
  | ok (h : ¬ bad) (r : Raft n C) (msgs : List (Message n C)) : Leaves bad (.ok (r, msgs)) r msgs
  | panic (h : bad) (r : Raft n C) (msg : String) : Leaves bad (.error ⟨r, msg, false⟩) r []

theorem Leaves.ok_iff {bad : Prop} {x : Go n C (Raft n C × List (Message n C))}
    {msgs : List (Message n C)} (h : Leaves bad x r msgs) : x = .ok (r, msgs) ↔ ¬ bad := by
  cases h with
  | ok h => simp [h]
  | panic h => simp [h]

theorem Leaves.congr {bad bad' : Prop} {x : Go n C (Raft n C × List (Message n C))}
    {msgs : List (Message n C)} (h : Leaves bad x r msgs) (hb : bad ↔ bad') :
    Leaves bad' x r msgs := by
  cases h with
  | ok h => exact .ok (fun h' => h (hb.2 h')) _ _
  | panic h => exact .panic (hb.1 h) _ _

/-- A leader gets a rejection, stamped with its own term, of a request that starts further on than
just past the end of its log. -/
def PastEnd (r : Raft n C) : Message n C → Prop
  | .msgAppResp _ _ args reply =>
    r.state = .stateLeader ∧ reply.term = r.currentTerm ∧ reply.success = false ∧
      r.lastIndex + 1 < args.prevLogIndex
  | _ => False

instance (r : Raft n C) : (m : Message n C) → Decidable (PastEnd r m)
  | .msgAppResp _ _ _ _ => inferInstanceAs (Decidable (_ ∧ _ ∧ _ ∧ _))
  | .msgVote _ _ => inferInstanceAs (Decidable False)
  | .msgApp _ _ => inferInstanceAs (Decidable False)
  | .msgVoteResp _ _ _ _ => inferInstanceAs (Decidable False)

theorem not_pastEnd_of_state (hs : r.state ≠ .stateLeader) (m : Message n C) : ¬ PastEnd r m := by
  intro h
  cases m with
  | msgAppResp => exact hs h.1
  | msgVote | msgApp | msgVoteResp => exact h

theorem not_pastEnd_of_term {m : Message n C} (hT : m.term ≠ r.currentTerm) : ¬ PastEnd r m := by
  intro h
  cases m with
  | msgAppResp => exact hT h.2.1
  | msgVote | msgApp | msgVoteResp => exact h

section Run

variable (hrun : Run (protocol n C) τ t) (hwf : ∀ u ≤ t, ∀ q, LogWf (τ u q).log)
include hrun

theorem appResp_handled (hr : τ t p = r.abs) (hok : RaftOk τ t p r)
    (hs : r.state = .stateLeader) {src : Fin n} (dst : Fin n) {args : AppendEntiesArgs n C}
    {reply : AppendEntiesReply} (hreq : AppendRequested τ t args)
    (ha : AppendAnswered τ t src args reply) (hT : reply.term = r.currentTerm) :
    ∃ r', Leaves (PastEnd r (.msgAppResp src dst args reply))
        (r.stepLeader (.msgAppResp src dst args reply)) r' [] ∧ Handled τ t p r' [] := by
  obtain ⟨hle, -⟩ := answered_next hrun hr hs hreq ha hT
  have hprog := hok.leader hs
  have hlast := Raft.lastIndex_eq hok.wf
  simp only [Raft.stepLeader]
  by_cases hsu : reply.success = true
  · have hbad : ¬ PastEnd r (.msgAppResp src dst args reply) := fun h => by
      have := h.2.2.1
      simp [hsu] at this
    rw [Raft.handleAppResp_success hok.wf hsu hle]
    split_ifs with hnx
    · set r₁ : Raft n C := { r with
        nextIndex := Function.update r.nextIndex src reply.nextIndex
        matchIndex := Function.update r.matchIndex src (reply.nextIndex - 1) } with hr₁
      have hok₁ : RaftOk τ t p r₁ := ⟨hok.me, hok.wf, hok.applier.congr rfl rfl rfl rfl rfl,
        fun h => by simp [hr₁, hs] at h,
        fun _ => progress_matched hrun hr hs hok hreq ha hT hsu⟩
      obtain ⟨r', heq, hh⟩ := updateCommitIndex_handled (r := r₁) hr hs hok₁
      rw [heq]
      exact ⟨r', .ok hbad _ _, hh⟩
    · exact ⟨r, .ok hbad _ _, .quiet hr hok (by simp)⟩
  · have hsu : reply.success = false := by simpa using hsu
    by_cases hprev : args.prevLogIndex ≤ r.log.length
    · rw [Raft.handleAppResp_reject hok.wf hsu hle ha.conflict hprev]
      have hbad : ¬ PastEnd r (.msgAppResp src dst args reply) := fun h => by
        have := h.2.2.2
        omega
      refine ⟨_, .ok hbad _ _, .quiet hr ⟨hok.me, hok.wf, hok.applier.congr rfl rfl rfl rfl rfl,
        fun h => by simp [hs] at h, fun _ => ⟨fun q => ?_, hprog.matched_lt, hprog.matched⟩⟩
        (by simp)⟩
      by_cases hq : q = src
      · subst hq
        simp [ha.pos, hle]
      · simpa [Function.update_of_ne hq] using hprog.next q
    · rw [Raft.handleAppResp_panic hok.wf hsu hle (Nat.lt_of_not_le hprev)]
      exact ⟨r, .panic ⟨hs, hT, hsu, by omega⟩ _ _, .quiet hr hok (by simp)⟩

theorem stepLeader_handled (hr : τ t p = r.abs) (hok : RaftOk τ t p r)
    (hs : r.state = .stateLeader) {m : Message n C} (hm : MessageOk τ t m)
    (hT : m.term = r.currentTerm) :
    ∃ r' msgs, Leaves (PastEnd r m) (r.stepLeader m) r' msgs ∧ Handled τ t p r' msgs := by
  have he : r.abs = (τ t p).enter r.currentTerm := by
    rw [Replog.Replica.enter_of_le (by rw [hr]; exact le_rfl), hr]
  cases m with
  | msgVote dst args => exact ⟨r, _, .ok id _ _, refuse_handled hok he hm {} rfl⟩
  | msgApp dst args =>
    refine ⟨r, _, .ok id _ _, .stay he hok fun m hmem => ?_⟩
    obtain rfl := List.mem_singleton.1 hmem
    exact ⟨rfl, hm.mono (Nat.le_succ t), .inl rfl⟩
  | msgVoteResp => exact ⟨r, _, .ok id _ _, .stay he hok (by simp)⟩
  | msgAppResp src dst args reply =>
    obtain ⟨-, hreq, ha⟩ := hm
    obtain ⟨r', hl, hh⟩ := appResp_handled hrun hr hok hs dst hreq
      (answered_of_term hrun hr ha hT) hT
    exact ⟨r', [], hl, hh⟩

include hwf

theorem stepFollower_handled (hok : RaftOk τ t p r) (he : r.abs = (τ t p).enter r.currentTerm)
    (hs : r.state = .stateFollower) {m : Message n C} (hm : MessageOk τ t m)
    (hT : m.term = r.currentTerm) :
    ∃ r' msgs, r.stepFollower m = .ok (r', msgs) ∧
      (τ (t + 1) p = r'.abs → Handled τ t p r' msgs) := by
  have hrole : ((τ t p).enter r.currentTerm).role = .follower := by
    rw [← he]
    exact RaftState.role_eq_follower.2 hs
  cases m with
  | msgVote dst args =>
    simp only [Raft.stepFollower]
    split_ifs with hg
    · exact ⟨_, _, rfl, vote_handled hok he hs hm hT hg.1 hg.2⟩
    · exact ⟨_, _, rfl, fun _ => refuse_handled hok he hm _ rfl⟩
  | msgApp dst args =>
    have he' : r.abs = { (τ t p).enter r.currentTerm with role := .follower } := by
      rw [← hrole, ← he]
    obtain ⟨r', reply, heq, hme, hh⟩ := follow_handled hrun hwf hok hs he' (by rw [hrole]; simp)
      hm hT
    refine ⟨r', _, ?_, hh⟩
    simp [Raft.stepFollower, heq, hme, bind, Except.bind, pure, Except.pure]
  | msgVoteResp => exact ⟨r, _, rfl, fun _ => .stay he hok (by simp)⟩
  | msgAppResp => exact ⟨r, _, rfl, fun _ => .stay he hok (by simp)⟩

theorem stepCandidate_handled (hr : τ t p = r.abs) (hok : RaftOk τ t p r)
    (hs : r.state = .stateCandidate) {m : Message n C} (hm : MessageOk τ t m) (hp : m.dst = p)
    (hT : m.term = r.currentTerm) (rnd : ℕ) :
    ∃ r' msgs, r.stepCandidate rnd m = .ok (r', msgs) ∧
      (τ (t + 1) p = r'.abs → Handled τ t p r' msgs) := by
  have hent : (τ t p).enter r.currentTerm = r.abs := by
    rw [Replog.Replica.enter_of_le (by rw [hr]; exact le_rfl), hr]
  cases m with
  | msgVote dst args => exact ⟨r, _, rfl, fun _ => refuse_handled hok hent.symm hm _ rfl⟩
  | msgApp dst args =>
    set r₁ := r.becomeFollower rnd r.currentTerm (some args.leaderId)
    have hT₁ : r₁.currentTerm = r.currentTerm := r.reset_currentTerm rnd _
    have he : r₁.abs = { (τ t p).enter r₁.currentTerm with role := .follower } := by
      rw [hT₁, hent]
      exact Raft.abs_becomeFollower_self _ _ hok.wf.ne
    obtain ⟨r', reply, heq, hme, hh⟩ := follow_handled hrun hwf (hok.becomeFollower rnd _ _) rfl he
      (by rw [hT₁, hent]; simp [Raft.abs, hs, RaftState.role]) hm (hT.trans hT₁.symm)
    refine ⟨r', _, ?_, hh⟩
    simp only [Raft.stepCandidate, heq, hme, bind, Except.bind, pure, Except.pure]
  | msgVoteResp src dst args reply => exact voteResp_handled hr hok hs hp hm.2.2 hT rnd
  | msgAppResp => exact ⟨r, _, rfl, fun _ => .stay hent.symm hok (by simp)⟩

theorem stepState_handled (hok : RaftOk τ t p r) (he : r.abs = (τ t p).enter r.currentTerm)
    {m : Message n C} (hm : MessageOk τ t m) (hp : m.dst = p) (hT : m.term = r.currentTerm)
    (rnd : ℕ) :
    ∃ r' msgs, Leaves (PastEnd r m) (r.stepState rnd m) r' msgs ∧
      (τ (t + 1) p = r'.abs → Handled τ t p r' msgs) := by
  unfold Raft.stepState
  cases hs : r.state with
  | stateFollower =>
    obtain ⟨r', msgs, heq, hh⟩ := stepFollower_handled hrun hwf hok he hs hm hT
    exact ⟨r', msgs, heq ▸ .ok (not_pastEnd_of_state (by simp [hs]) m) _ _, hh⟩
  | stateCandidate =>
    obtain ⟨r', msgs, heq, hh⟩ := stepCandidate_handled hrun hwf (abs_of_enter he (by simp [hs]))
      hok hs hm hp hT rnd
    exact ⟨r', msgs, heq ▸ .ok (not_pastEnd_of_state (by simp [hs]) m) _ _, hh⟩
  | stateLeader =>
    obtain ⟨r', msgs, hl, hh⟩ := stepLeader_handled hrun (abs_of_enter he (by simp [hs])) hok hs
      hm hT
    exact ⟨r', msgs, hl, fun _ => hh⟩

omit hrun hwf in
theorem stepStale_handled (hr : τ t p = r.abs) (hok : RaftOk τ t p r) {m : Message n C}
    (hm : MessageOk τ t m) (hT : m.term < r.currentTerm) : Handled τ t p r (r.stepStale m) := by
  refine .quiet hr hok fun m' hmem => ?_
  cases m with
  | msgVote dst args =>
    obtain rfl := List.mem_singleton.1 hmem
    exact ⟨rfl, hm, fun h => by simp at h⟩
  | msgApp dst args =>
    obtain rfl := List.mem_singleton.1 hmem
    refine ⟨rfl, hm, .inr ⟨by simp, by simp, hT.le, fun h => by simp at h, t, le_rfl, ?_⟩⟩
    rw [hok.me, hr]
    exact ⟨rfl, .inl rfl⟩
  | msgVoteResp => simp [Raft.stepStale] at hmem
  | msgAppResp => simp [Raft.stepStale] at hmem

theorem stepTerm_handled (hr : τ t p = r.abs) (hok : RaftOk τ t p r) {m : Message n C}
    (hm : MessageOk τ t m) (hp : m.dst = p) (rnd : ℕ) :
    ∃ r' msgs, Leaves (PastEnd r m) (r.stepTerm rnd m) r' msgs ∧
      (τ (t + 1) p = r'.abs → Handled τ t p r' msgs) := by
  unfold Raft.stepTerm
  split_ifs with hgt hlt
  · have hT : (r.becomeFollower rnd m.term none).currentTerm = m.term :=
      r.reset_currentTerm rnd _
    obtain ⟨r', msgs, hl, hh⟩ := stepState_handled hrun hwf (hok.becomeFollower rnd _ _)
      (by rw [hT, hr]; exact Raft.abs_becomeFollower _ _ _ hok.wf.ne hgt) hm hp hT.symm rnd
    refine ⟨r', msgs, hl.congr ⟨fun h => ?_, fun h => ?_⟩, hh⟩
    · exact absurd h (not_pastEnd_of_state (by simp [Raft.becomeFollower]) m)
    · exact absurd h (not_pastEnd_of_term hgt.ne')
  · exact ⟨r, _, .ok (not_pastEnd_of_term hlt.ne) _ _, fun _ => stepStale_handled hr hok hm hlt⟩
  · exact stepState_handled hrun hwf hok
      (by rw [hr, Replog.Replica.enter_of_le (by exact le_rfl)]) hm hp (by omega) rnd

/-- Handling a message and persisting. -/
theorem step_handled (hr : τ t p = r.abs) (hok : RaftOk τ t p r) {m : Message n C}
    (hm : MessageOk τ t m) (hp : m.dst = p) (rnd : ℕ) :
    ∃ r' msgs, Leaves (PastEnd r m) (r.step rnd m) r' msgs ∧ r'.Durable ∧
      (τ (t + 1) p = r'.abs → Handled τ t p r' msgs) := by
  obtain ⟨r', msgs, hl, hh⟩ := stepTerm_handled hrun hwf hr hok hm hp rnd
  refine ⟨r'.persist, msgs, ?_, .persist r', fun hn => (hh hn).persist⟩
  unfold Raft.step
  generalize r.stepTerm rnd m = x at hl
  cases hl with
  | ok h => exact .ok h _ _
  | panic h => exact .panic h _ _

end Run

/-! ## Commands and the state machine -/

theorem LogWf.concat {l : List (Log C)} (h : LogWf l) {e : Log C} (he : e.index = l.length) :
    LogWf (l ++ [e]) := by
  refine ⟨by simp, fun {i d} hd => ?_⟩
  rcases lt_trichotomy i l.length with hi | rfl | hi
  · rw [List.getElem?_append_left hi] at hd
    exact h.index hd
  · rw [List.getElem?_append_right le_rfl, Nat.sub_self] at hd
    simp only [List.getElem?_cons_zero, Option.some.injEq] at hd
    rw [← hd, he]
  · rw [List.getElem?_eq_none (by simp; omega)] at hd
    simp at hd

/-- The leader once it has added an entry for `command`. -/
def Raft.started (r : Raft n C) (command : Option C) : Raft n C :=
  { r with
    log := r.log ++ [Log.mk r.currentTerm command r.log.length]
    nextIndex := Function.update r.nextIndex r.me (r.log.length + 1)
    matchIndex := Function.update r.matchIndex r.me r.log.length }

theorem Raft.handleStart_eq (hs : r.state = .stateLeader) (command : Option C) :
    r.handleStart command = (r.started command).bcastAppend.map fun x =>
      (x.1, x.2, ⟨r.log.length, r.currentTerm, true⟩) := by
  unfold Raft.handleStart
  rw [if_neg (by simp [hs])]
  change (r.started command).bcastAppend >>= _ = _
  cases (r.started command).bcastAppend <;> rfl

theorem Raft.handleStart_leader (hs : r.state = .stateLeader) {command : Option C}
    {r' : Raft n C} {msgs : List (Message n C)}
    (hb : (r.started command).bcastAppend = .ok (r', msgs)) :
    r.handleStart command = .ok (r', msgs, ⟨r.log.length, r.currentTerm, true⟩) := by
  rw [Raft.handleStart_eq hs, hb]
  rfl

theorem started_next (h : ProgressOk τ t r) (command : Option C) (q : Fin n) :
    1 ≤ (r.started command).nextIndex q ∧
      (r.started command).nextIndex q ≤ (r.started command).log.length := by
  simp only [Raft.started, List.length_append, List.length_singleton]
  by_cases hq : q = r.me
  · subst hq
    simp
  · have := h.next q
    rw [Function.update_of_ne hq]
    omega

/-- The records of the others stay, and this server holds all of its own log. -/
theorem ProgressOk.started (h : ProgressOk τ t r) {command : Option C}
    (hn : τ (t + 1) r.me = (r.started command).abs) :
    ProgressOk τ (t + 1) (r.started command) := by
  refine ⟨started_next h command, fun q => ?_, fun q => ?_⟩ <;> by_cases hq : q = r.me
  · subst hq
    simp [Raft.started]
  · have := h.matched_lt q
    simp only [Raft.started, Function.update_of_ne hq, List.length_append, List.length_singleton]
    omega
  · refine .inr ⟨t + 1, le_rfl, ?_, ?_⟩ <;> rw [hq, hn]
    · rfl
    · exact List.take_prefix _ _
  · have hlt := h.matched_lt q
    simp only [Raft.started, Function.update_of_ne hq]
    refine (h.matched q).imp_right fun ⟨u, hu, hT, hpre⟩ => ⟨u, by omega, hT, ?_⟩
    rwa [List.take_append_of_le_length (by omega)]

/-- A command is answered at once if the server does not lead; otherwise it is added to the log
and broadcast. -/
theorem handleStart_handled (hr : τ t p = r.abs) (hok : RaftOk τ t p r) (command : Option C) :
    ∃ r' msgs reply, r.handleStart command = .ok (r', msgs, reply) ∧ (r.Durable → r'.Durable) ∧
      (τ (t + 1) p = r'.abs → Handled τ t p r' msgs) := by
  by_cases hs : r.state = .stateLeader
  swap
  · exact ⟨r, [], _, if_pos hs, id, fun _ => .quiet hr hok (by simp)⟩
  · have hprog := hok.leader hs
    have hwf : LogWf (r.started command).log := hok.wf.concat rfl
    obtain ⟨msgs, hb, hm⟩ := bcastAppend_sent (τ := τ) (t := t + 1) (r := r.started command)
      hok.me hwf hs (started_next hprog command)
    refine ⟨_, msgs, _, Raft.handleStart_leader hs hb, fun _ => .persist _, fun hn =>
      Handled.persist (r := r.started command)
        ⟨?_, ⟨hok.me, hwf, ?_, fun h => ?_, fun _ => ?_⟩, hm hn⟩⟩
    · have := Move.propose (P := protocol n C) (τ := τ) (t := t) (v := p)
        (e := Log.mk r.currentTerm command r.log.length)
        (by rw [hr]; exact RaftState.role_eq_leader.2 hs) (by rw [hr]; rfl)
      rw [hr] at this
      exact this
    · exact (hok.applier.mono (Nat.le_succ t)).congr rfl rfl rfl rfl rfl
    · simp [Raft.started, hs] at h
    · exact hprog.started (hok.me.symm ▸ hn)

/-- The state machine takes a commit index and has something to send. -/
theorem ApplierOk.take (h : ApplierOk τ t p r) (hnone : r.applying = none) {c : ℕ}
    (hc : r.commitc = some c) (hlt : r.lastApplied < c) :
    ApplierOk τ t p { r with commitc := none, applying := some (r.lastApplied + 1, c) } := by
  refine ⟨by simp, fun i c' hi => ?_, h.applied, h.stream.index, fun i c' hi => ?_, by simp⟩
  · simp only [Option.some.injEq, Prod.mk.injEq] at hi
    exact hi.2 ▸ h.commitc c hc
  · simp only [Option.some.injEq, Prod.mk.injEq] at hi
    have := h.stream.idle hnone
    dsimp only
    omega

/-- It sends the next entry. -/
theorem ApplierOk.send (h : ApplierOk τ t p r) (hr : τ t p = r.abs) (hwf : LogWf r.log) {i c : ℕ}
    (hi : r.applying = some (i, c)) (hic : i ≤ c) {e : Log C} (hget : r.log[i]? = some e) :
    ApplierOk τ t p { r with
      applyCh := r.applyCh ++ [⟨e.index, e.command⟩]
      applying := some (i + 1, c) } := by
  have hle := h.applying i c hi
  have hidx := hwf.index hget
  have hnext := h.stream.applying i c hi
  refine ⟨h.commitc, fun i' c' hi' => ?_, fun m hm => ?_, fun k m hk => ?_, fun i' c' hi' => ?_,
    by simp⟩
  · simp only [Option.some.injEq, Prod.mk.injEq] at hi'
    exact hi'.2 ▸ hle
  · rcases List.mem_append.1 hm with hm | hm
    · exact h.applied m hm
    · obtain rfl := List.mem_singleton.1 hm
      refine ⟨t, le_rfl, ?_, _, ?_, rfl⟩ <;> rw [hr]
      · simp only [Raft.abs, hidx]
        omega
      · simpa [Raft.abs, hidx] using hget
  · rcases Nat.lt_or_ge k r.applyCh.length with hlt | hge
    · rw [List.getElem?_append_left hlt] at hk
      exact h.stream.index k m hk
    · have hlen := (List.getElem?_eq_some_iff.1 hk).1
      rw [List.getElem?_append_right hge] at hk
      obtain rfl := List.mem_singleton.1 (List.mem_of_getElem? hk)
      simp only [List.length_append, List.length_singleton] at hlen
      simp only [hidx]
      omega
  · simp only [Option.some.injEq, Prod.mk.injEq] at hi'
    simp only [List.length_append, List.length_singleton]
    omega

/-- It has sent all up to the commit index. -/
theorem ApplierOk.done (h : ApplierOk τ t p r) {i c : ℕ} (hi : r.applying = some (i, c))
    (hic : c < i) : ApplierOk τ t p { r with lastApplied := c, applying := none } := by
  have hnext := h.stream.applying i c hi
  refine ⟨h.commitc, by simp, h.applied, h.stream.index, by simp, fun _ => ?_⟩
  simp only
  omega

/-- What the state machine sends is in the log and committed. -/
theorem stateMachine_handled (hrun : Run (protocol n C) τ t) (hr : τ t p = r.abs)
    (hok : RaftOk τ t p r) :
    ∃ r', r.stateMachine = .ok r' ∧ (r.Durable → r'.Durable) ∧ r'.abs = r.abs ∧
      RaftOk τ t p r' := by
  have hlast := Raft.lastIndex_eq hok.wf
  have hlt : r.commitIndex < r.log.length := by
    have := hrun.commit_lt le_rfl p
    rwa [hr] at this
  -- only the state machine's own fields change
  have key : ∀ {cc ap la ch}, ApplierOk τ t p { r with
      commitc := cc, applying := ap, lastApplied := la, applyCh := ch } →
      RaftOk τ t p { r with
        commitc := cc, applying := ap, lastApplied := la, applyCh := ch } := fun ha =>
    ⟨hok.me, hok.wf, ha, fun h => ⟨(hok.candidate h).granted, (hok.candidate h).undecided⟩,
      fun h => ⟨(hok.leader h).next, (hok.leader h).matched_lt, (hok.leader h).matched⟩⟩
  have happ := hok.applier
  unfold Raft.stateMachine
  split
  · rename_i hnone
    split
    · exact ⟨r, rfl, id, rfl, hok⟩
    · rename_i c hc
      have hle := happ.commitc c hc
      simp only []
      split_ifs with h1 h2
      · simp only [Raft.lastIndex, Raft.lastLog] at h2 hlast
        omega
      · exact ⟨_, rfl, id, rfl, key (happ.take hnone hc h1)⟩
      · exact ⟨_, rfl, id, rfl, key ⟨by simp, happ.applying, happ.applied, happ.stream.index,
          happ.stream.applying, happ.stream.idle⟩⟩
  · rename_i i c hi
    split_ifs with hic
    · have hle := happ.applying i c hi
      obtain ⟨e, hget⟩ : ∃ e, r.log[i]? = some e := ⟨_, List.getElem?_eq_getElem (by omega)⟩
      rw [Raft.entry_of_getElem? hget]
      exact ⟨_, rfl, id, rfl, key (happ.send hr hok.wf hi hic hget)⟩
    · exact ⟨_, rfl, id, rfl, key (happ.done hi (by omega))⟩

/-! ## Restarts -/

@[simp] theorem make_me (me : Fin n) (d : Option (RaftStateData n C)) (rnd : ℕ) :
    (Raft.make me d rnd).me = me := by
  cases d <;> rfl

theorem make_state (me : Fin n) (d : Option (RaftStateData n C)) (rnd : ℕ) :
    (Raft.make me d rnd).state = .stateFollower := by
  cases d <;> rfl

/-- A server that restarts gives up its part and forgets what is committed. -/
theorem abs_make (h : r.Durable) (rnd : ℕ) :
    (Raft.make p r.persister rnd).abs = { r.abs with role := .follower, commit := 0 } := by
  unfold Raft.Durable at h
  cases hd : r.persister with
  | none =>
    rw [hd] at h
    simp only [Raft.abs, h]
    rfl
  | some d =>
    rw [hd] at h
    simp only [h]
    rfl

theorem make_handled (hr : τ t p = r.abs) (hok : RaftOk τ t p r) (hd : r.Durable) (rnd : ℕ) :
    (Raft.make p r.persister rnd).Durable ∧ Handled τ t p (Raft.make p r.persister rnd) [] := by
  have habs := abs_make (p := p) hd rnd
  have hlog : (Raft.make p r.persister rnd).log = r.log := congrArg Replog.Replica.log habs
  refine ⟨?_, ?_, .follower (make_state _ _ _) (make_me _ _ _) (hlog ▸ hok.wf)
    ⟨?_, ?_, ?_, ?_, ?_, ?_⟩, by simp⟩
  · cases r.persister with
    | none => exact ⟨rfl, rfl, rfl⟩
    | some d => exact rfl
  · rw [habs]
    have := Move.retire (P := protocol n C) (τ := τ) (t := t) (v := p)
    rw [hr] at this
    exact this
  all_goals cases r.persister <;> simp [Raft.make, Raft.zero, Raft.becomeFollower, Raft.readPersist]

end DistSystem
