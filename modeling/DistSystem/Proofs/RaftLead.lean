import DistSystem.Proofs.RaftStream

/-!
# Leading

How a server that leads comes to what it records of the others: it is elected, takes a command, or
gets an answer, which comes from another server (`LeaderStep`).
-/

namespace DistSystem

open Replog (Run)

variable {n : ℕ} {C : Type}

/-! ## Who answers -/

/-- A request for entries goes to another server, and so its answer comes from another. -/
def Message.Foreign : Message n C → Prop
  | .msgApp dst args => dst ≠ args.leaderId
  | .msgAppResp src dst _ _ => src ≠ dst
  | .msgVote _ _ => True
  | .msgVoteResp _ _ _ _ => True

namespace Raft

variable {r r' : Raft n C} {rnd : ℕ} {m : Message n C} {msgs : List (Message n C)}

theorem bcastAppend_foreign {x : Raft n C × List (Message n C)} (h : r.bcastAppend = .ok x) :
    ∀ m ∈ x.2, m.Foreign := by
  intro m hm
  obtain ⟨i, args, rfl, hi, hl⟩ := bcastAppend_msgs h m hm
  exact hi.trans_eq hl.symm

/-- The answer to a request from another server. -/
theorem handleAppendEntries_foreign {args : AppendEntiesArgs n C} (hme : r.me ≠ args.leaderId)
    (h : (do let x ← r.handleAppendEntries args
             return (x.1, [Message.msgAppResp x.1.me args.leaderId args x.2])) =
      Except.ok (r', msgs)) : ∀ m ∈ msgs, m.Foreign := by
  obtain ⟨x, hx, h⟩ := bind_eq_ok.1 h
  cases h
  intro m hm
  rw [List.mem_singleton.1 hm]
  exact (handleAppendEntries_advances hx).me.symm ▸ hme

theorem stepState_foreign (hm : m.Foreign) (hme : r.me = m.dst)
    (h : r.stepState rnd m = .ok (r', msgs)) : ∀ m ∈ msgs, m.Foreign := by
  cases hs : r.state with
  | stateFollower =>
    rw [stepState_follower hs] at h
    cases m with
    | msgVote dst args =>
      simp only [stepFollower] at h
      split_ifs at h <;> cases h <;> simp [Message.Foreign]
    | msgApp dst args => exact handleAppendEntries_foreign (hme.trans_ne hm) h
    | msgVoteResp | msgAppResp =>
      cases h
      simp
  | stateCandidate =>
    rw [stepState_candidate hs] at h
    cases m with
    | msgVote dst args =>
      cases h
      simp [Message.Foreign]
    | msgApp dst args =>
      have hme' := (r.reset_me rnd r.currentTerm).trans_ne (hme.trans_ne hm)
      exact handleAppendEntries_foreign (r := r.becomeFollower rnd _ _) hme' h
    | msgVoteResp src dst args reply =>
      simp only [stepCandidate, poll_eq] at h
      split_ifs at h
      · rw [becomeLeader_eq (by exact hs)] at h
        exact bcastAppend_foreign h
      · cases h
        simp
      · cases h
        simp
    | msgAppResp =>
      cases h
      simp
  | stateLeader =>
    rw [stepState_leader hs] at h
    cases m with
    | msgVote dst args =>
      cases h
      simp [Message.Foreign]
    | msgApp dst args =>
      cases h
      intro m hmem
      rw [List.mem_singleton.1 hmem]
      exact hme.trans_ne hm
    | msgVoteResp =>
      cases h
      simp
    | msgAppResp src dst args reply =>
      obtain ⟨r₁, -, h⟩ := bind_eq_ok.1 h
      cases h
      simp

theorem step_foreign (hm : m.Foreign) (hme : r.me = m.dst)
    (h : r.step rnd m = .ok (r', msgs)) : ∀ m ∈ msgs, m.Foreign := by
  rcases step_cases h with ⟨-, -, rfl⟩ | ⟨r₁, r₂, h', -, -, -, hme', -⟩
  · cases m with
    | msgApp dst args =>
      intro m hmem
      rw [List.mem_singleton.1 hmem]
      exact hme.trans_ne hm
    | msgVote => simp [stepStale, Message.Foreign]
    | msgVoteResp | msgAppResp => simp [stepStale]
  · exact stepState_foreign hm (hme'.trans hme) h'

theorem tick_foreign (h2 : 2 ≤ n) (hw : LogWf r.log) (h : r.tick rnd = .ok (r', msgs)) :
    ∀ m ∈ msgs, m.Foreign := by
  cases tick_ticks h with
  | heartbeat msgs hs hb => exact bcastAppend_foreign hb
  | leading | waiting => simp
  | campaign r' msgs hs hc =>
    rw [campaign_eq (r := { r with electionElapsed := 0 }) h2 hw hs] at hc
    cases hc
    intro m hm
    obtain ⟨i, -, rfl⟩ := List.mem_map.1 hm
    trivial

theorem handleStart_foreign {command : Option C} {reply : StartReply}
    (h : r.handleStart command = .ok (r', msgs, reply)) : ∀ m ∈ msgs, m.Foreign := by
  rcases handleStart_cases h with ⟨-, hb, -⟩ | ⟨-, -, rfl⟩
  · exact bcastAppend_foreign hb
  · simp

end Raft

theorem ClusterStep.foreign {τ : History n C} {t : ℕ} {s s' : Cluster n C} {a : Action n C}
    (hst : ClusterStep s a s') (h2 : 2 ≤ n) (h : ClusterOk τ t s)
    (hf : ∀ pk ∈ s.net, pk.msg.Foreign) : ∀ pk ∈ s'.net, pk.msg.Foreign := by
  have hsent : ∀ {p : Fin n} {r : Raft n C} {msgs : List (Message n C)},
      Changes s s' p r msgs → (∀ m ∈ msgs, m.Foreign) → ∀ pk ∈ s'.net, pk.msg.Foreign :=
    fun hc hm pk hpk => (hc.net pk hpk).elim (hf pk) (hm _)
  cases hst with
  | same => exact hf
  | drop => exact fun pk hpk => hf pk (List.mem_of_mem_eraseIdx hpk)
  | @tick p rnd =>
    obtain ⟨r, msgs, heq, -⟩ := tick_handled (h.abs p) (h.ok p) h2 rnd
    exact hsent (.finish_ok heq _ _ _) (Raft.tick_foreign h2 (h.ok p).wf heq)
  | @deliver k rnd pk hk =>
    have hmem := List.mem_of_getElem? hk
    obtain ⟨r, msgs, hl, -⟩ := step_handled h.run h.wf (h.abs _) (h.ok _) (h.net pk hmem) rfl rnd
    refine hsent (.finish_eraseIdx hl _ _ _ _) ?_
    generalize heq : (s.nodes pk.msg.dst).raft.step rnd pk.msg = x at hl
    cases hl with
    | ok => exact Raft.step_foreign (hf pk hmem) (h.ok _).me heq
    | panic => simp
  | @start p command =>
    obtain ⟨r, msgs, reply, heq, -⟩ := handleStart_handled (h.abs p) (h.ok p) command
    exact hsent (.finish_ok (by rw [heq]; rfl) _ _ _) (Raft.handleStart_foreign heq)
  | @stateMachine p =>
    obtain ⟨r, heq, -⟩ := stateMachine_handled h.run (h.abs p) (h.ok p)
    exact hsent (.finish_ok (r := r) (by rw [heq]; rfl) _ _ _) (by simp)
  | crash | restart => exact hsent (.setNode _ _ _) (by simp)

theorem Schedule.foreign {σ : Schedule n C} (h2 : 2 ≤ n) :
    ∀ t, ∀ pk ∈ (σ.run t).net, pk.msg.Foreign
  | 0 => by simp [run]
  | t + 1 => (σ.step t).foreign h2 (σ.clusterOk h2 t) (foreign h2 t)

/-! ## Leading -/

/-- The part of a server that leading is about. -/
structure SameProgress (r r' : Raft n C) : Prop where
  state : r'.state = r.state
  currentTerm : r'.currentTerm = r.currentTerm
  log : r'.log = r.log
  commitIndex : r'.commitIndex = r.commitIndex
  nextIndex : r'.nextIndex = r.nextIndex
  matchIndex : r'.matchIndex = r.matchIndex

theorem SameProgress.refl (r : Raft n C) : SameProgress r r := ⟨rfl, rfl, rfl, rfl, rfl, rfl⟩

theorem SameProgress.persist (r : Raft n C) : SameProgress r r.persist :=
  ⟨rfl, rfl, rfl, rfl, rfl, rfl⟩

namespace Raft

/-- The records after a success up to `next`. -/
def accepted (r : Raft n C) (src : Fin n) (next : ℕ) : Raft n C :=
  { r with
    nextIndex := Function.update r.nextIndex src next
    matchIndex := Function.update r.matchIndex src (next - 1) }

/-- The records after a rejection. -/
def rejected (r : Raft n C) (src : Fin n) (next : ℕ) : Raft n C :=
  { r with nextIndex := Function.update r.nextIndex src next }

end Raft

/-- Only the commit index is updated. -/
theorem Raft.updateCommitIndex_fields {r r' : Raft n C} (h : r.updateCommitIndex = .ok r') :
    ∃ c cc, r' = { r with commitIndex := c, commitc := cc } := by
  have hsame : ∃ c cc, r = { r with commitIndex := c, commitc := cc } := ⟨_, _, rfl⟩
  unfold updateCommitIndex at h
  simp only at h
  split at h
  · cases h
  · split_ifs at h
    · obtain ⟨e, -, h⟩ := bind_eq_ok.1 h
      split_ifs at h
      · unfold commitTo at h
        split_ifs at h
        cases h
        exact ⟨_, _, rfl⟩
      · cases h
        exact hsame
    · cases h
      exact hsame

/-- How a server comes to lead, or to go on leading, and what it records then. -/
inductive LeaderStep (m : Option (Message n C)) (r r' : Raft n C) : Prop
  | keep (hs : r.state = .stateLeader) (h : SameProgress r r')
  | start {command : Option C} (hs : r.state = .stateLeader)
      (h : SameProgress (r.started command) r')
  | elected {rnd : ℕ} (hs : r.state = .stateCandidate) (h : SameProgress (r.leadership rnd) r')
  | accepted {src : Fin n} {next : ℕ} {r₁ : Raft n C} (hs : r.state = .stateLeader)
      (hsrc : src ≠ r.me) (hpos : 1 ≤ next) (hle : next ≤ r.log.length)
      (hnext : r.nextIndex src ≤ next) (hup : (r.accepted src next).updateCommitIndex = .ok r₁)
      (h : SameProgress r₁ r')
  | rejected {src dst : Fin n} {args : AppendEntiesArgs n C} {reply : AppendEntiesReply}
      (hs : r.state = .stateLeader) (hm : m = some (.msgAppResp src dst args reply))
      (hsrc : src ≠ r.me) (hT : reply.term = r.currentTerm) (hsu : reply.success = false)
      (hpos : 1 ≤ reply.nextIndex) (hle : reply.nextIndex ≤ r.log.length)
      (hprev : args.prevLogIndex ≤ r.lastIndex + 1)
      (h : SameProgress (r.rejected src reply.nextIndex) r')

section Run

variable {τ : History n C} {t : ℕ} {p : Fin n} {r r' : Raft n C} {m : Message n C} {rnd : ℕ}
  {msgs : List (Message n C)}

theorem appResp_leads (hrun : Run (protocol n C) τ t) (hr : τ t p = r.abs) (hok : RaftOk τ t p r)
    (hs : r.state = .stateLeader) {src dst : Fin n} {args : AppendEntiesArgs n C}
    {reply : AppendEntiesReply} (hm : MessageOk τ t (.msgAppResp src dst args reply))
    (hf : src ≠ r.me) (hT : reply.term = r.currentTerm)
    (h : r.handleAppResp src args reply = .ok r') :
    LeaderStep (some (.msgAppResp src dst args reply)) r r'.persist := by
  obtain ⟨-, hreq, ha⟩ := hm
  have ha := answered_of_term hrun hr ha hT
  obtain ⟨hle, -⟩ := answered_next hrun hr hs hreq ha hT
  have hlast := Raft.lastIndex_eq hok.wf
  by_cases hsu : reply.success = true
  · rw [Raft.handleAppResp_success hok.wf hsu hle] at h
    split_ifs at h with hnext
    · exact .accepted hs hf ha.pos hle hnext h (.persist r')
    · cases h
      exact .keep hs (.persist r)
  · have hsu : reply.success = false := by simpa using hsu
    by_cases hprev : args.prevLogIndex ≤ r.log.length
    · rw [Raft.handleAppResp_reject hok.wf hsu hle ha.conflict hprev] at h
      cases h
      exact .rejected hs rfl hf hT hsu ha.pos hle (by omega) (.persist _)
    · rw [Raft.handleAppResp_panic hok.wf hsu hle (Nat.lt_of_not_le hprev)] at h
      cases h

theorem stepCandidate_leads (hs : r.state = .stateCandidate)
    (h : r.stepCandidate rnd m = .ok (r', msgs)) (hs' : r'.state = .stateLeader) :
    SameProgress (r.leadership rnd) r' := by
  have hno : ∀ {s : RaftState}, r'.state = s → s ≠ .stateLeader → False := by
    rintro s rfl hne
    exact hne hs'
  cases m with
  | msgApp dst args =>
    obtain ⟨x, hx, h⟩ := bind_eq_ok.1 h
    cases h
    exact (hno (Raft.handleAppendEntries_advances hx).state (by simp [Raft.becomeFollower])).elim
  | msgVoteResp src dst args reply =>
    simp only [Raft.stepCandidate, Raft.poll_eq] at h
    split_ifs at h
    · rw [Raft.becomeLeader_eq (by exact hs), Raft.leadership_setVotes] at h
      have hr := Raft.bcastAppend_raft h
      simp only at hr
      rw [hr]
      exact ⟨rfl, rfl, rfl, rfl, rfl, rfl⟩
    · cases h
      exact (hno (s := .stateFollower) rfl (by simp)).elim
    · cases h
      exact (hno hs (by simp)).elim
  | msgVote | msgAppResp =>
    cases h
    exact (hno hs (by simp)).elim

theorem step_leads (hrun : Run (protocol n C) τ t) (hr : τ t p = r.abs) (hok : RaftOk τ t p r)
    (hm : MessageOk τ t m) (hf : m.Foreign) (hd : m.dst = r.me)
    (h : r.step rnd m = .ok (r', msgs)) (hs' : r'.state = .stateLeader) :
    LeaderStep (some m) r r' := by
  rcases Raft.step_cases h with ⟨-, rfl, -⟩ | ⟨r₁, r₂, h', rfl, -, -, -, hT, hst⟩
  · exact .keep hs' (.persist r)
  · have hs₂ : r₂.state = .stateLeader := hs'
    cases hs : r₁.state with
    | stateFollower =>
      rw [Raft.stepState_follower hs] at h'
      simp [Raft.stepFollower_state h' hs] at hs₂
    | stateCandidate =>
      obtain rfl := hst (by simp [hs])
      rw [Raft.stepState_candidate hs] at h'
      obtain ⟨h1, h2, h3, h4, h5, h6⟩ := stepCandidate_leads hs h' hs₂
      exact .elected hs ⟨h1, h2, h3, h4, h5, h6⟩
    | stateLeader =>
      obtain rfl := hst (by simp [hs])
      rw [Raft.stepState_leader hs] at h'
      cases m with
      | msgAppResp src dst args reply =>
        obtain ⟨r₃, hr₃, h'⟩ := bind_eq_ok.1 h'
        cases h'
        exact appResp_leads hrun hr hok hs hm (hf.trans_eq hd) hT hr₃
      | msgVote | msgApp | msgVoteResp =>
        cases h'
        exact .keep hs (.persist _)

end Run

theorem tick_leads (h2 : 2 ≤ n) {r r' : Raft n C} {rnd : ℕ} {msgs : List (Message n C)}
    (hw : LogWf r.log) (h : r.tick rnd = .ok (r', msgs)) (hs' : r'.state = .stateLeader) :
    r.state = .stateLeader ∧ SameProgress r r' := by
  cases Raft.tick_ticks h with
  | heartbeat msgs hs => exact ⟨hs, rfl, rfl, rfl, rfl, rfl, rfl⟩
  | leading k hs => exact ⟨hs, rfl, rfl, rfl, rfl, rfl, rfl⟩
  | campaign r' msgs hs hc =>
    rw [Raft.campaign_eq (r := { r with electionElapsed := 0 }) h2 hw hs] at hc
    cases hc
    simp [Raft.persist, Raft.candidacy] at hs'
  | waiting k hs => exact absurd hs' hs

theorem handleStart_leads {r r' : Raft n C} {command : Option C} {msgs : List (Message n C)}
    {reply : Raft.StartReply} (h : r.handleStart command = .ok (r', msgs, reply))
    (hs' : r'.state = .stateLeader) :
    r.state = .stateLeader ∧ SameProgress (r.started command) r' := by
  rcases Raft.handleStart_cases h with ⟨hs, -, rfl⟩ | ⟨hs, rfl, -⟩
  · exact ⟨hs, .persist _⟩
  · exact absurd hs' hs

theorem stateMachine_progress {r r' : Raft n C} (h : r.stateMachine = .ok r') :
    SameProgress r r' := by
  obtain ⟨_, _, _, _, rfl⟩ := Raft.stateMachine_fields h
  exact ⟨rfl, rfl, rfl, rfl, rfl, rfl⟩

theorem ClusterStep.leads {τ : History n C} {t : ℕ} {s s' : Cluster n C} {a : Action n C}
    (hst : ClusterStep s a s') (h2 : 2 ≤ n) (h : ClusterOk τ t s)
    (hf : ∀ pk ∈ s.net, pk.msg.Foreign) {w : Fin n}
    (hs' : (s'.nodes w).raft.state = .stateLeader) :
    ∃ m, LeaderStep m (s.nodes w).raft (s'.nodes w).raft ∧ ∀ x ∈ m, Handles s a w x := by
  -- a server that is not concerned goes on leading
  have hrest : ∀ {p : Fin n} {r : Raft n C} {msgs : List (Message n C)},
      Changes s s' p r msgs → (∀ hw : w = p, ∃ m, LeaderStep m (s.nodes w).raft
        (s'.nodes w).raft ∧ ∀ x ∈ m, Handles s a w x) →
      ∃ m, LeaderStep m (s.nodes w).raft (s'.nodes w).raft ∧ ∀ x ∈ m, Handles s a w x := by
    intro p r msgs hc hself
    by_cases hw : w = p
    · exact hself hw
    · rw [hc.others w hw] at hs' ⊢
      exact ⟨none, .keep hs' (.refl _), by simp⟩
  cases hst with
  | same | drop => exact ⟨none, .keep hs' (.refl _), by simp⟩
  | @tick p rnd =>
    obtain ⟨r, msgs, heq, -⟩ := tick_handled (h.abs p) (h.ok p) h2 rnd
    have hc := Changes.finish_ok heq s p (s.nodes p).incarnation
    refine hrest hc fun hw => ?_
    subst hw
    rw [hc.self] at hs' ⊢
    obtain ⟨hs, hsame⟩ := tick_leads h2 (h.ok w).wf heq hs'
    exact ⟨none, .keep hs hsame, by simp⟩
  | @deliver k rnd pk hk hd =>
    have hmem := List.mem_of_getElem? hk
    have hm := h.net pk hmem
    obtain ⟨r, msgs, hl, -⟩ := step_handled h.run h.wf (h.abs _) (h.ok _) hm rfl rnd
    have hc := Changes.finish_eraseIdx hl s k pk.msg.dst pk.incarnation
    refine hrest hc fun hw => ?_
    subst hw
    rw [hc.self] at hs' ⊢
    generalize heq : (s.nodes pk.msg.dst).raft.step rnd pk.msg = x at hl
    cases hl with
    | ok =>
      refine ⟨some pk.msg, step_leads h.run (h.abs _) (h.ok _) hm (hf pk hmem)
        (h.ok _).me.symm heq hs', fun x hx => ?_⟩
      cases hx
      exact ⟨k, rnd, pk, rfl, hk, hd, rfl, rfl⟩
    | panic hbad =>
      rw [step_pastEnd h.run (h.abs _) (h.ok _) hm hbad] at heq
      cases heq
      exact ⟨none, .keep hs' (.persist _), by simp⟩
  | @start p command =>
    obtain ⟨r, msgs, reply, heq, -⟩ := handleStart_handled (h.abs p) (h.ok p) command
    have hx : ((s.nodes p).raft.handleStart command).map (fun x => (x.1, x.2.1)) =
        .ok (r, msgs) := by
      rw [heq]
      rfl
    have hc := Changes.finish_ok hx s p (s.nodes p).incarnation
    refine hrest hc fun hw => ?_
    subst hw
    rw [hc.self] at hs' ⊢
    obtain ⟨hs, hsame⟩ := handleStart_leads heq hs'
    exact ⟨none, .start hs hsame, by simp⟩
  | @stateMachine p =>
    obtain ⟨r, heq, -⟩ := stateMachine_handled h.run (h.abs p) (h.ok p)
    have hx : (s.nodes p).raft.stateMachine.map (·, ([] : List (Message n C))) = .ok (r, []) := by
      rw [heq]
      rfl
    have hc := Changes.finish_ok hx s p (s.nodes p).incarnation
    refine hrest hc fun hw => ?_
    subst hw
    rw [hc.self] at hs' ⊢
    have hsame := stateMachine_progress heq
    exact ⟨none, .keep (hsame.state.symm.trans hs') hsame, by simp⟩
  | @crash p =>
    have hc := Changes.setNode s p { s.nodes p with status := .crashed }
    refine hrest hc fun hw => ?_
    subst hw
    rw [hc.self] at hs' ⊢
    exact ⟨none, .keep hs' (.refl _), by simp⟩
  | @restart p rnd =>
    refine hrest (.setNode s p _) fun hw => ?_
    subst hw
    rw [(Changes.setNode s w _).self, make_state] at hs'
    cases hs'

theorem Schedule.leads {σ : Schedule n C} (h2 : 2 ≤ n) {t : ℕ} {p : Fin n}
    (hs : (σ.raft (t + 1) p).state = .stateLeader) :
    ∃ m, LeaderStep m (σ.raft t p) (σ.raft (t + 1) p) ∧
      ∀ x ∈ m, Handles (σ.run t) (σ.act t) p x :=
  (σ.step t).leads h2 (σ.clusterOk h2 t) (foreign h2 t) hs

end DistSystem
