import DistSystem.Proofs.RaftVotes

/-!
# What a cluster applies

A leader that stays one changes its log only by a command it starts (`ClusterStep.leader_log`), so
every entry of a log but the sentinel was started by a leader. With that, the messages on all
`applyCh`s are the entries of one log, each sent in its place and started before
(`Schedule.applyCh_log`).
-/

namespace DistSystem

open Replog (Run)

variable {n : ℕ} {C : Type}

namespace Raft

variable {r r' : Raft n C} {rnd : ℕ} {m : Message n C} {msgs : List (Message n C)}

theorem commitTo_log {c : ℕ} (h : r.commitTo c = .ok r') : r'.log = r.log := by
  unfold commitTo at h
  split_ifs at h <;> cases h <;> rfl

theorem commitTo_error {c : ℕ} {e : Panic n C} (h : r.commitTo c = .error e) :
    e.raft.log = r.log := by
  unfold commitTo at h
  split_ifs at h
  cases h
  rfl

theorem entry_error {i : ℕ} {e : Panic n C} (h : r.entry i = .error e) : e.raft = r := by
  unfold entry at h
  split at h <;> cases h
  rfl

theorem scanTerm_error {T : ℤ} {e : Panic n C} :
    ∀ {i : ℕ}, r.scanTerm T i = .error e → e.raft = r
  | 0, h => by cases h
  | i + 1, h => by
    unfold scanTerm at h
    cases hi : r.entry (i + 1) with
    | error e' =>
      rw [hi] at h
      cases h
      exact entry_error hi
    | ok x =>
      simp only [hi, bind, Except.bind] at h
      split_ifs at h
      · cases h
      · exact scanTerm_error h

/-- The state a call leaves, whether or not it panics. -/
def left : Go n C (Raft n C) → Raft n C
  | .ok r => r
  | .error e => e.raft

theorem updateCommitIndex_log (r : Raft n C) : (left r.updateCommitIndex).log = r.log := by
  unfold updateCommitIndex
  simp only
  split
  · rfl
  · split_ifs
    · rename_i mci _ _
      cases hi : r.entry mci with
      | error e =>
        change e.raft.log = r.log
        rw [entry_error hi]
      | ok x =>
        simp only [bind, Except.bind]
        split_ifs
        · cases hc : r.commitTo mci with
          | ok => exact commitTo_log hc
          | error => exact commitTo_error hc
        · rfl
    · rfl

theorem handleAppResp_log (r : Raft n C) (src : Fin n) (args : AppendEntiesArgs n C)
    (reply : AppendEntiesReply) : (left (r.handleAppResp src args reply)).log = r.log := by
  unfold handleAppResp
  split_ifs
  · rfl
  · exact updateCommitIndex_log _
  · rfl
  · cases hi : r.scanTerm reply.conflictTerm (args.prevLogIndex - 1) with
    | error e =>
      change e.raft.log = r.log
      rw [scanTerm_error hi]
    | ok nexti =>
      simp only [bind, Except.bind]
      split_ifs <;> rfl

/-- A follower stays one when it handles a message of its term. -/
theorem stepFollower_state (h : r.stepFollower m = .ok (r', msgs))
    (hs : r.state = .stateFollower) : r'.state = .stateFollower := by
  cases m with
  | msgVote dst args =>
    simp only [stepFollower] at h
    split_ifs at h <;> cases h <;> exact hs
  | msgApp dst args =>
    obtain ⟨x, hx, h'⟩ := bind_eq_ok.1 h
    cases h'
    exact (handleAppendEntries_advances hx).state.trans hs
  | msgVoteResp | msgAppResp =>
    cases h
    exact hs

theorem tick_leader_log (hs : r.state = .stateLeader) (h : r.tick rnd = .ok (r', msgs)) :
    r'.log = r.log := by
  cases tick_ticks h with
  | heartbeat => rfl
  | leading => rfl
  | campaign _ _ hs' => exact absurd hs hs'
  | waiting _ hs' => exact absurd hs hs'

theorem handleStart_log (hs : r.state = .stateLeader) {command : Option C} {reply : StartReply}
    (h : r.handleStart command = .ok (r', msgs, reply)) :
    r'.log = r.log ++ [⟨r.currentTerm, command, r.log.length⟩] := by
  rcases handleStart_cases h with ⟨-, -, rfl⟩ | ⟨hs', -⟩
  · rfl
  · exact absurd hs hs'

theorem step_leader_log (hs : r.state = .stateLeader) (h : r.step rnd m = .ok (r', msgs))
    (hs' : r'.state = .stateLeader) : r'.log = r.log := by
  rcases step_cases h with ⟨-, rfl, -⟩ | ⟨r₁, r₂, h', rfl, -, -, -, -, hst⟩
  · rfl
  · cases hs₁ : r₁.state with
    | stateFollower =>
      rw [stepState_follower hs₁] at h'
      have hf := stepFollower_state h' hs₁
      have hl : r₂.state = .stateLeader := hs'
      rw [hf] at hl
      cases hl
    | stateCandidate =>
      obtain rfl := hst (by simp [hs₁])
      rw [hs] at hs₁
      cases hs₁
    | stateLeader =>
      obtain rfl := hst (by simp [hs₁])
      rw [stepState_leader hs₁] at h'
      cases m with
      | msgAppResp src dst args reply =>
        obtain ⟨r₃, hr, h'⟩ := bind_eq_ok.1 h'
        cases h'
        have hlog := r₁.handleAppResp_log src args reply
        rw [hr] at hlog
        exact hlog
      | msgVote | msgApp | msgVoteResp =>
        cases h'
        rfl

theorem step_panic_log (hbad : PastEnd r m) {e : Panic n C} (h : r.step rnd m = .error e) :
    e.raft.log = r.log := by
  cases m with
  | msgVote | msgApp | msgVoteResp => exact hbad.elim
  | msgAppResp src dst args reply =>
    obtain ⟨hs, hT, -⟩ := hbad
    have hterm : (Message.msgAppResp src dst args reply).term = r.currentTerm := hT
    unfold step stepTerm at h
    rw [if_neg (by omega), if_neg (by omega), stepState_leader hs, stepLeader] at h
    have hlog := r.handleAppResp_log src args reply
    cases hx : r.handleAppResp src args reply with
    | ok r' =>
      rw [hx] at h
      cases h
    | error e' =>
      rw [hx] at h hlog
      cases h
      split_ifs <;> exact hlog

end Raft

/-- A leader that stays one changes its log only by starting a command. -/
theorem ClusterStep.leader_log {τ : History n C} {t : ℕ} {s s' : Cluster n C} {a : Action n C}
    (hst : ClusterStep s a s') (h2 : 2 ≤ n) (h : ClusterOk τ t s) {w : Fin n}
    (hs : (s.nodes w).raft.state = .stateLeader) (hs' : (s'.nodes w).raft.state = .stateLeader)
    (hlog : (s'.nodes w).raft.log ≠ (s.nodes w).raft.log) :
    ∃ command, a = .start w command ∧ (s'.nodes w).raft.log =
      (s.nodes w).raft.log ++ [⟨(s.nodes w).raft.currentTerm, command,
        (s.nodes w).raft.log.length⟩] := by
  -- it was `w` that changed
  have hself : ∀ {p : Fin n} {r : Raft n C} {msgs : List (Message n C)},
      Changes s s' p r msgs → p = w ∧ (s'.nodes w).raft = r := by
    intro p r msgs hc
    by_cases hp : w = p
    · subst hp
      exact ⟨rfl, hc.self⟩
    · exact absurd (by rw [hc.others w hp]) hlog
  cases hst with
  | same | drop => exact absurd rfl hlog
  | @tick p rnd =>
    obtain ⟨r, msgs, heq, -⟩ := tick_handled (h.abs p) (h.ok p) h2 rnd
    obtain ⟨rfl, hr⟩ := hself (.finish_ok heq _ _ _)
    rw [hr] at hlog
    exact absurd (Raft.tick_leader_log hs heq) hlog
  | @deliver k rnd pk hk =>
    obtain ⟨r, msgs, hl, -⟩ := step_handled h.run h.wf (h.abs _) (h.ok _)
      (h.net pk (List.mem_of_getElem? hk)) rfl rnd
    obtain ⟨rfl, hr⟩ := hself (.finish_eraseIdx hl _ _ _ _)
    rw [hr] at hs' hlog
    generalize heq : (s.nodes pk.msg.dst).raft.step rnd pk.msg = x at hl
    cases hl with
    | ok => exact absurd (Raft.step_leader_log hs heq hs') hlog
    | panic hbad => exact absurd (Raft.step_panic_log hbad heq) hlog
  | @start p command =>
    obtain ⟨r, msgs, reply, heq, -⟩ := handleStart_handled (h.abs p) (h.ok p) command
    obtain ⟨rfl, hr⟩ := hself (.finish_ok (by rw [heq]; rfl) _ _ _)
    refine ⟨command, rfl, ?_⟩
    rw [hr, Raft.handleStart_log hs heq]
  | @stateMachine p =>
    obtain ⟨r, heq, -, habs, -⟩ := stateMachine_handled h.run (h.abs p) (h.ok p)
    obtain ⟨rfl, hr⟩ := hself (.finish_ok (by rw [heq]; rfl) _ _ _)
    rw [hr] at hlog
    exact absurd (congrArg Replog.Replica.log habs) hlog
  | crash =>
    obtain ⟨rfl, hr⟩ := hself (.setNode _ _ _)
    rw [hr] at hlog
    exact absurd rfl hlog
  | restart =>
    obtain ⟨rfl, hr⟩ := hself (.setNode _ _ _)
    rw [hr, make_state] at hs'
    cases hs'

namespace Schedule

variable {σ : Schedule n C}

/-- Every entry but the sentinel was started. -/
theorem started_of_mem (h2 : 2 ≤ n) {t : ℕ} {p : Fin n} {e : Log C}
    (he : e ∈ (σ.raft t p).log) : e = Raft.sentinel ∨
      ∃ u < t, ∃ q, (σ.raft u q).state = .stateLeader ∧ σ.act u = .start q e.command := by
  rcases (σ.isRun h2 t).entry_origin t le_rfl p e he with hb | ⟨u, hu, w, hr, hr', hlog⟩
  · exact .inl (List.mem_singleton.1 hb)
  · have hs : (σ.raft u w).state = .stateLeader := RaftState.role_eq_leader.1 hr
    have hlog' : (σ.raft (u + 1) w).log = (σ.raft u w).log ++ [e] := hlog
    obtain ⟨command, hact, hstart⟩ := (σ.step u).leader_log h2 (σ.clusterOk h2 u) hs
      (RaftState.role_eq_leader.1 hr') (by
        intro hsame
        have hlen := congrArg List.length (hlog'.symm.trans hsame)
        simp [raft] at hlen)
    have heq := List.append_cancel_left (hlog'.symm.trans hstart)
    cases heq
    exact .inr ⟨u, hu, w, hs, hact⟩

/-- What is applied comes in its place in the log, and was started before. -/
theorem applied_started (h2 : 2 ≤ n) {t k : ℕ} {p : Fin n} {m : ApplyMsg C}
    (hm : (σ.raft t p).applyCh[k]? = some m) : m.index = k + 1 ∧
      ∃ u < t, ∃ q, (σ.raft u q).state = .stateLeader ∧ σ.act u = .start q m.command := by
  have hok := σ.raftOk h2 t p
  have hidx := hok.applier.stream.index k m hm
  refine ⟨hidx, ?_⟩
  obtain ⟨u, hu, -, e, he, hcmd⟩ := hok.applier.applied m (List.mem_of_getElem? hm)
  have hget : (σ.raft u p).log[m.index]? = some e := he
  rcases started_of_mem h2 (List.mem_of_getElem? hget) with rfl | ⟨v, hv, q, hs, hact⟩
  · -- the sentinel has index 0
    have hzero := (σ.raftOk h2 u p).wf.index hget
    rw [hidx] at hzero
    cases hzero
  · exact ⟨v, by omega, q, hs, by rw [hact, hcmd]⟩

open scoped Classical in
/-- What servers apply at place `k`, if any does. -/
noncomputable def appliedLog (σ : Schedule n C) (k : ℕ) : Option C :=
  if h : ∃ m t p, (σ.raft t p).applyCh[k]? = some m then h.choose.command else none

/-- All servers apply the entries of one log from the first on, in order, and each was started by a
leader before. -/
theorem applyCh_log (σ : Schedule n C) {t k : ℕ} {p : Fin n} {m : ApplyMsg C}
    (hm : (σ.raft t p).applyCh[k]? = some m) : m = ⟨k + 1, σ.appliedLog k⟩ ∧
      ∃ u < t, ∃ q, (σ.raft u q).state = .stateLeader ∧
        σ.act u = .start q (σ.appliedLog k) := by
  have h2 := two_le_of_applied (List.mem_of_getElem? hm)
  obtain ⟨hidx, hstart⟩ := applied_started h2 hm
  have hlog : σ.appliedLog k = m.command := by
    have hex : ∃ m t p, (σ.raft t p).applyCh[k]? = some m := ⟨m, t, p, hm⟩
    unfold appliedLog
    rw [dif_pos hex]
    obtain ⟨u, q, hm'⟩ := hex.choose_spec
    exact applied_agree h2
      ((σ.raftOk h2 u q).applier.applied _ (List.mem_of_getElem? hm'))
      ((σ.raftOk h2 t p).applier.applied m (List.mem_of_getElem? hm))
      ((applied_started h2 hm').1.trans hidx.symm)
  rw [hlog]
  exact ⟨by rw [← hidx], hstart⟩

end Schedule

end DistSystem
