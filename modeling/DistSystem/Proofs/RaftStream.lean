import DistSystem.Proofs.RaftApply

/-!
# What a server commits and applies

The event loop only raises the commit index, and only `stateMachine` moves what is applied, so that
stays behind (`Schedule.lastApplied_le`). What one incarnation sends on `applyCh` is then the
committed part of the log it has now, entry after entry (`Schedule.stream`). The one panic there is
comes from a rejection past the end of a leader's log (`Schedule.panicked_pastEnd`).
-/

namespace DistSystem

open Replog (Run)

variable {n : ℕ} {C : Type}

namespace Raft

variable {r r' : Raft n C} {rnd : ℕ} {m : Message n C} {msgs : List (Message n C)}

/-! ## The event loop -/

theorem stepFollower_applier (h : r.stepFollower m = .ok (r', msgs)) : SameApplier r r' := by
  cases m with
  | msgVote dst args =>
    simp only [stepFollower] at h
    split_ifs at h <;> cases h <;> exact ⟨le_rfl, rfl, rfl, rfl⟩
  | msgApp dst args =>
    obtain ⟨x, hx, h⟩ := bind_eq_ok.1 h
    cases h
    exact (handleAppendEntries_advances hx).toSameApplier
  | msgVoteResp | msgAppResp =>
    cases h
    exact .refl r

theorem stepCandidate_applier (hs : r.state = .stateCandidate)
    (h : r.stepCandidate rnd m = .ok (r', msgs)) : SameApplier r r' := by
  cases m with
  | msgApp dst args =>
    obtain ⟨x, hx, h⟩ := bind_eq_ok.1 h
    cases h
    exact (SameApplier.becomeFollower r rnd _ _).trans
      (handleAppendEntries_advances hx).toSameApplier
  | msgVoteResp src dst args reply =>
    simp only [stepCandidate, poll_eq] at h
    split_ifs at h
    · rw [becomeLeader_eq (by exact hs), leadership_setVotes] at h
      have hr := bcastAppend_raft h
      simp only at hr
      rw [hr]
      obtain ⟨h1, h2, h3, h4⟩ := SameApplier.reset r rnd r.currentTerm
      exact ⟨h1, h2, h3, h4⟩
    · cases h
      rw [becomeFollower, reset_setVotes]
      exact .becomeFollower r rnd _ none
    · cases h
      exact ⟨le_rfl, rfl, rfl, rfl⟩
  | msgVote | msgAppResp =>
    cases h
    exact .refl r

theorem stepLeader_applier (h : r.stepLeader m = .ok (r', msgs)) : SameApplier r r' := by
  cases m with
  | msgAppResp src dst args reply =>
    obtain ⟨r₁, hr, h⟩ := bind_eq_ok.1 h
    cases h
    exact (handleAppResp_advances hr).toSameApplier
  | msgVote | msgApp | msgVoteResp =>
    cases h
    exact .refl r

theorem step_applier (h : r.step rnd m = .ok (r', msgs)) : SameApplier r r' := by
  rcases step_cases h with ⟨-, rfl, -⟩ | ⟨r₁, r₂, h', rfl, -, ha, -⟩
  · exact ⟨le_rfl, rfl, rfl, rfl⟩
  · have hstep : SameApplier r₁ r₂ := by
      cases hs : r₁.state with
      | stateFollower => exact stepFollower_applier (stepState_follower hs m ▸ h')
      | stateCandidate => exact stepCandidate_applier hs (stepState_candidate hs m ▸ h')
      | stateLeader => exact stepLeader_applier (stepState_leader hs m ▸ h')
    obtain ⟨h1, h2, h3, h4⟩ := ha.trans hstep
    exact ⟨h1, h2, h3, h4⟩

theorem campaign_applier (h : r.campaign rnd = .ok (r', msgs)) : SameApplier r r' := by
  obtain ⟨r₁, hr₁, h⟩ := bind_eq_ok.1 h
  have hcand : SameApplier r r₁ := by
    unfold becomeCandidate at hr₁
    split_ifs at hr₁
    cases hr₁
    obtain ⟨h1, h2, h3, h4⟩ := SameApplier.reset r rnd (r.currentTerm + 1)
    exact ⟨h1, h2, h3, h4⟩
  simp only [poll_eq] at h
  refine hcand.trans ?_
  split_ifs at h
  · obtain ⟨r₂, hr₂, h⟩ := bind_eq_ok.1 h
    cases h
    unfold becomeLeader at hr₂
    split_ifs at hr₂
    cases hr₂
    rw [reset_setVotes]
    obtain ⟨h1, h2, h3, h4⟩ := SameApplier.reset r₁ rnd r₁.currentTerm
    exact ⟨h1, h2, h3, h4⟩
  · obtain ⟨ms, -, h⟩ := bind_eq_ok.1 h
    cases h
    exact ⟨le_rfl, rfl, rfl, rfl⟩

theorem tick_applier (h : r.tick rnd = .ok (r', msgs)) : SameApplier r r' := by
  cases tick_ticks h with
  | heartbeat | leading | waiting => exact ⟨le_rfl, rfl, rfl, rfl⟩
  | campaign r' msgs hs hc =>
    obtain ⟨h1, h2, h3, h4⟩ := campaign_applier hc
    exact ⟨h1, h2, h3, h4⟩

theorem handleStart_applier {command : Option C} {reply : StartReply}
    (h : r.handleStart command = .ok (r', msgs, reply)) : SameApplier r r' := by
  rcases handleStart_cases h with ⟨-, -, rfl⟩ | ⟨-, rfl, -⟩
  · exact ⟨le_rfl, rfl, rfl, rfl⟩
  · exact .refl r'

end Raft

/-! ## Panics -/

/-- The panic leaves the server as it was, with what it had persisted. -/
theorem step_pastEnd {τ : History n C} {t : ℕ} {p : Fin n} {r : Raft n C}
    (hrun : Run (protocol n C) τ t) (hr : τ t p = r.abs) (hok : RaftOk τ t p r)
    {m : Message n C} (hm : MessageOk τ t m) (hbad : PastEnd r m) (rnd : ℕ) :
    r.step rnd m = .error ⟨r.persist, "index out of range", false⟩ := by
  cases m with
  | msgVote | msgApp | msgVoteResp => exact hbad.elim
  | msgAppResp src dst args reply =>
    obtain ⟨hs, hT, hsu, hlt⟩ := hbad
    obtain ⟨-, hreq, ha⟩ := hm
    obtain ⟨hle, -⟩ := answered_next hrun hr hs hreq (answered_of_term hrun hr ha hT) hT
    have hlast := Raft.lastIndex_eq hok.wf
    have hterm : (Message.msgAppResp src dst args reply).term = r.currentTerm := hT
    unfold Raft.step Raft.stepTerm
    rw [if_neg (by omega), if_neg (by omega), Raft.stepState_leader hs, Raft.stepLeader,
      Raft.handleAppResp_panic hok.wf hsu hle (by omega)]
    rfl

/-- The server `p` handles `m` in this action. -/
def Handles (s : Cluster n C) (a : Action n C) (p : Fin n) (m : Message n C) : Prop :=
  ∃ k rnd pk, a = .deliver k rnd ∧ s.net[k]? = some pk ∧ s.CanDeliver pk ∧ pk.msg.dst = p ∧
    pk.msg = m

/-- A rejection past the end of its log reaches the leader `q` in this action. -/
def PastEndAt (s : Cluster n C) (a : Action n C) (q : Fin n) : Prop :=
  ∃ m, Handles s a q m ∧ PastEnd (s.nodes q).raft m

theorem ClusterStep.panics {τ : History n C} {t : ℕ} {s s' : Cluster n C} {a : Action n C}
    (hst : ClusterStep s a s') (h2 : 2 ≤ n) (h : ClusterOk τ t s) {q : Fin n} {msg : String}
    (hp : (s'.nodes q).status = .panicked msg) :
    (s.nodes q).status = .panicked msg ∨ (msg = "index out of range" ∧ PastEndAt s a q) := by
  by_cases hbad : ∃ p, PastEndAt s a p
  · obtain ⟨p, m, ⟨k, rnd, pk, rfl, hk, hd, rfl, rfl⟩, hbad⟩ := hbad
    have hstep := step_pastEnd h.run (h.abs _) (h.ok _) (h.net pk (List.mem_of_getElem? hk)) hbad
    cases hst with
    | same => exact .inl hp
    | deliver hk' =>
      obtain rfl := Option.some.inj (hk.symm.trans hk')
      rw [hstep rnd] at hp
      by_cases hq : q = pk.msg.dst
      · subst hq
        simp only [Cluster.finish, Cluster.setNode, Node.fail, Function.update_self,
          Status.panicked.injEq] at hp
        exact .inr ⟨hp.symm, _, ⟨k, rnd, pk, rfl, hk, hd, rfl, rfl⟩, hbad⟩
      · simp only [Cluster.finish, Cluster.setNode, Function.update_of_ne hq] at hp
        exact .inl hp
  · exact .inl (hst.panicked_of_reaches h2 h (fun k rnd pk hact hk hcan hend =>
      hbad ⟨_, _, ⟨k, rnd, pk, hact, hk, hcan, rfl, rfl⟩, hend⟩) hp)

/-! ## The state machine -/

/-- What an action does to the part of a server that `stateMachine` works on. -/
inductive ApplierStep (x x' : Node n C) : Prop
  | keep (h : SameApplier x.raft x'.raft) (hi : x'.incarnation = x.incarnation)
  | machine (h : x.raft.stateMachine = .ok x'.raft) (hi : x'.incarnation = x.incarnation)
  | restart {p : Fin n} {rnd : ℕ} (h : x'.raft = .make p x.raft.persister rnd)
      (hi : x'.incarnation = x.incarnation + 1)

theorem Cluster.finish_incarnation (s : Cluster n C) (p : Fin n) (i : ℕ)
    (x : Go n C (Raft n C × List (Message n C))) (q : Fin n) :
    ((s.finish p i x).nodes q).incarnation = (s.nodes q).incarnation := by
  by_cases hq : q = p
  · subst hq
    cases x <;> simp [finish, send, setNode, Node.fail]
  · cases x <;> simp [finish, send, setNode, Function.update_of_ne hq]

theorem ClusterStep.applier {τ : History n C} {t : ℕ} {s s' : Cluster n C} {a : Action n C}
    (hst : ClusterStep s a s') (h2 : 2 ≤ n) (h : ClusterOk τ t s) (w : Fin n) :
    ApplierStep (s.nodes w) (s'.nodes w) := by
  have hsame : ∀ {p : Fin n} {r : Raft n C} {msgs : List (Message n C)},
      Changes s s' p r msgs → (∀ q, (s'.nodes q).incarnation = (s.nodes q).incarnation) →
      SameApplier (s.nodes p).raft r → ApplierStep (s.nodes w) (s'.nodes w) := by
    intro p r msgs hc hi ha
    refine .keep ?_ (hi w)
    by_cases hw : w = p
    · subst hw
      rwa [hc.self]
    · rw [hc.others w hw]
      exact .refl _
  cases hst with
  | same | drop => exact .keep (.refl _) rfl
  | @tick p rnd =>
    obtain ⟨r, msgs, heq, -⟩ := tick_handled (h.abs p) (h.ok p) h2 rnd
    exact hsame (.finish_ok heq _ _ _) (s.finish_incarnation p _ _)
      (Raft.tick_applier heq)
  | @deliver k rnd pk hk =>
    have hm := h.net pk (List.mem_of_getElem? hk)
    obtain ⟨r, msgs, hl, -⟩ := step_handled h.run h.wf (h.abs _) (h.ok _) hm rfl rnd
    refine hsame (.finish_eraseIdx hl _ _ _ _) (Cluster.finish_incarnation _ _ _ _) ?_
    generalize heq : (s.nodes pk.msg.dst).raft.step rnd pk.msg = x at hl
    cases hl with
    | ok => exact Raft.step_applier heq
    | panic hbad =>
      rw [step_pastEnd h.run (h.abs _) (h.ok _) hm hbad] at heq
      cases heq
      exact ⟨le_rfl, rfl, rfl, rfl⟩
  | @start p command =>
    obtain ⟨r, msgs, reply, heq, -⟩ := handleStart_handled (h.abs p) (h.ok p) command
    exact hsame (.finish_ok (by rw [heq]; rfl) _ _ _) (s.finish_incarnation p _ _)
      (Raft.handleStart_applier heq)
  | @stateMachine p =>
    obtain ⟨r, heq, -⟩ := stateMachine_handled h.run (h.abs p) (h.ok p)
    have hx : (s.nodes p).raft.stateMachine.map (·, ([] : List (Message n C))) = .ok (r, []) := by
      rw [heq]
      rfl
    have hc := Changes.finish_ok hx s p (s.nodes p).incarnation
    by_cases hw : w = p
    · subst hw
      exact .machine (hc.self ▸ heq) (s.finish_incarnation w _ _ w)
    · refine .keep ?_ (s.finish_incarnation p _ _ w)
      rw [hc.others w hw]
      exact .refl _
  | @crash p =>
    refine hsame (.setNode s p _) (fun q => ?_) (.refl _)
    by_cases hq : q = p
    · subst hq
      simp [Cluster.setNode]
    · simp [Cluster.setNode, Function.update_of_ne hq]
  | @restart p rnd =>
    by_cases hw : w = p
    · subst hw
      exact .restart (Changes.setNode s w _).self (by simp [Cluster.setNode])
    · refine .keep ?_ ?_ <;> simp [Cluster.setNode, Function.update_of_ne hw, SameApplier.refl]

/-- `stateMachine` applies no more than is committed, and only adds to what it has sent. -/
theorem Raft.stateMachine_applied {τ : History n C} {t : ℕ} {p : Fin n} {r r' : Raft n C}
    (hok : ApplierOk τ t p r) (h : r.stateMachine = .ok r') (hle : r.lastApplied ≤ r.commitIndex) :
    r'.lastApplied ≤ r'.commitIndex ∧ r.applyCh <+: r'.applyCh := by
  unfold stateMachine at h
  split at h
  · split at h
    · cases h
      exact ⟨hle, List.prefix_rfl⟩
    · simp only at h
      split_ifs at h <;> cases h <;> exact ⟨hle, List.prefix_rfl⟩
  · rename_i i c hi
    split_ifs at h
    · obtain ⟨e, -, h⟩ := bind_eq_ok.1 h
      cases h
      exact ⟨hle, List.prefix_append _ _⟩
    · cases h
      exact ⟨hok.applying i c hi, List.prefix_rfl⟩

namespace Schedule

variable {σ : Schedule n C}

theorem applierStep (h2 : 2 ≤ n) (t : ℕ) (p : Fin n) :
    ApplierStep ((σ.run t).nodes p) ((σ.run (t + 1)).nodes p) :=
  (σ.step t).applier h2 (σ.clusterOk h2 t) p

theorem lastApplied_le (h2 : 2 ≤ n) (p : Fin n) :
    ∀ t, (σ.raft t p).lastApplied ≤ (σ.raft t p).commitIndex
  | 0 => le_rfl
  | t + 1 => by
    have ih := lastApplied_le h2 p t
    cases σ.applierStep h2 t p with
    | keep h =>
      unfold raft at ih ⊢
      rw [h.lastApplied]
      exact ih.trans h.commitIndex
    | machine h => exact (Raft.stateMachine_applied (σ.raftOk h2 t p).applier h ih).1
    | @restart q rnd h =>
      unfold raft
      rw [h]
      cases ((σ.run t).nodes p).raft.persister <;> exact le_rfl

theorem applyCh_mono (h2 : 2 ≤ n) {t u : ℕ} (htu : t ≤ u) (p : Fin n) :
    ((σ.run t).nodes p).incarnation ≤ ((σ.run u).nodes p).incarnation ∧
      (((σ.run t).nodes p).incarnation = ((σ.run u).nodes p).incarnation →
        (σ.raft t p).applyCh <+: (σ.raft u p).applyCh) := by
  induction u, htu using Nat.le_induction with
  | base => exact ⟨le_rfl, fun _ => List.prefix_rfl⟩
  | succ u _ ih =>
    cases σ.applierStep h2 u p with
    | keep h hi =>
      rw [hi]
      refine ⟨ih.1, fun he => (ih.2 he).trans ?_⟩
      unfold raft
      rw [h.applyCh]
    | machine h hi =>
      rw [hi]
      exact ⟨ih.1, fun he => (ih.2 he).trans
        (Raft.stateMachine_applied (σ.raftOk h2 u p).applier h (lastApplied_le h2 p u)).2⟩
    | restart h hi =>
      rw [hi]
      exact ⟨by omega, fun he => by omega⟩

theorem panicked_pastEnd (h2 : 2 ≤ n) {p : Fin n} {msg : String} :
    ∀ {t : ℕ}, ((σ.run t).nodes p).status = .panicked msg →
      msg = "index out of range" ∧ ∃ u < t, PastEndAt (σ.run u) (σ.act u) p
  | 0, h => by simp [run] at h
  | t + 1, h => by
    rcases (σ.step t).panics h2 (σ.clusterOk h2 t) h with h | ⟨hmsg, hbad⟩
    · obtain ⟨hmsg, u, hu, hbad⟩ := panicked_pastEnd h2 h
      exact ⟨hmsg, u, by omega, hbad⟩
    · exact ⟨hmsg, t, Nat.lt_succ_self t, hbad⟩

/-- The one panic there is, in a cluster of any size. -/
theorem panicked {t : ℕ} {p : Fin n} {msg : String}
    (h : ((σ.run t).nodes p).status = .panicked msg) :
    msg = "index out of range" ∧ ∃ u < t, PastEndAt (σ.run u) (σ.act u) p := by
  match n with
  | 0 => exact p.elim0
  | 1 => exact absurd h (single_not_panicked σ t p msg)
  | n + 2 => exact panicked_pastEnd (by omega) h

end Schedule

/-- What holds of every server: the log starts with the sentinel, its entries carry their own
positions and come in the order of their terms, and what is applied is committed and what is
committed is there. -/
structure Raft.WellFormed (r : Raft n C) : Prop where
  log : LogWf r.log
  base : r.log[0]? = some Raft.sentinel
  terms : ∀ {i j : ℕ} {a b : Log C}, i ≤ j → r.log[i]? = some a → r.log[j]? = some b →
    a.term ≤ b.term
  last : r.lastLog.term ≤ r.currentTerm
  applied : r.lastApplied ≤ r.commitIndex
  committed : r.commitIndex ≤ r.lastIndex

namespace Schedule

variable {σ : Schedule n C}

theorem single_wellFormed {σ : Schedule 1 C} (t : ℕ) : (σ.raft t 0).WellFormed := by
  have hok : SingleOk (σ.raft t 0) := (σ.singleCluster t).ok
  have hT := σ.singleTerms t
  refine ⟨hok.wf, hok.base, fun hij ha hb => Replog.le_of_pairwise_map hT.sorted hij ha hb, ?_,
    ?_, ?_⟩
  · exact (hT.terms _ (List.mem_of_getElem? (Raft.getElem?_lastLog hok.wf.ne))).trans hT.persisted
  · rw [hT.lastApplied]
    exact Nat.zero_le _
  · rw [hok.commitIndex]
    exact Nat.zero_le _

theorem raft_wellFormed (h2 : 2 ≤ n) (t : ℕ) (p : Fin n) : (σ.raft t p).WellFormed := by
  have hrun := σ.isRun h2 t
  have hok := σ.raftOk h2 t p
  have hlast := Raft.lastIndex_eq hok.wf
  refine ⟨hok.wf, Replog.getElem?_of_isPrefix (hrun.base_le_log le_rfl p) rfl,
    fun hij ha hb => hrun.termOf_mono le_rfl hij ha hb, ?_, lastApplied_le h2 p t, ?_⟩
  · exact hrun.termOf_le le_rfl (List.mem_of_getElem? (Raft.getElem?_lastLog hok.wf.ne))
  · have hlt : (σ.raft t p).commitIndex < (σ.raft t p).log.length := hrun.commit_lt le_rfl p
    omega

theorem wellFormed (σ : Schedule n C) (t : ℕ) (p : Fin n) : (σ.raft t p).WellFormed := by
  match n with
  | 0 => exact p.elim0
  | 1 =>
    obtain rfl : p = 0 := Subsingleton.elim _ _
    exact single_wellFormed t
  | n + 2 => exact raft_wellFormed (by omega) t p

/-- What has been sent is committed, and so it is the log's first part now. -/
theorem applyCh_committed (h2 : 2 ≤ n) {t k : ℕ} {p : Fin n} {m : ApplyMsg C}
    (hm : (σ.raft t p).applyCh[k]? = some m) : m.index = k + 1 ∧
      m.index ≤ (σ.raft t p).commitIndex ∧
      ∃ e, (σ.raft t p).log[m.index]? = some e ∧ e.command = m.command := by
  have happ := (σ.raftOk h2 t p).applier
  have hidx := happ.stream.index k m hm
  have hlt := (List.getElem?_eq_some_iff.1 hm).1
  have hle : m.index ≤ (σ.raft t p).commitIndex := by
    cases ha : (σ.raft t p).applying with
    | none =>
      have := happ.stream.idle ha
      have := lastApplied_le h2 p t (σ := σ)
      omega
    | some x =>
      have := happ.stream.applying x.1 x.2 ha
      have := happ.applying x.1 x.2 ha
      omega
  refine ⟨hidx, hle, ?_⟩
  obtain ⟨u, hu, hc, e, he, hcmd⟩ := happ.applied m (List.mem_of_getElem? hm)
  refine ⟨e, ?_, hcmd⟩
  exact ((σ.isRun h2 t).committed_agree le_rfl hu hle hc).trans he

/-- One incarnation sends the committed entries of its log from the first on. -/
theorem stream (σ : Schedule n C) (t : ℕ) (p : Fin n) :
    (∀ k m, (σ.raft t p).applyCh[k]? = some m → m.index = k + 1 ∧
      m.index ≤ (σ.raft t p).commitIndex ∧
      ∃ e, (σ.raft t p).log[m.index]? = some e ∧ e.command = m.command) ∧
    ∀ u, t ≤ u → ((σ.run t).nodes p).incarnation = ((σ.run u).nodes p).incarnation →
      (σ.raft t p).applyCh <+: (σ.raft u p).applyCh := by
  match n with
  | 0 => exact p.elim0
  | 1 =>
    obtain rfl : p = 0 := Subsingleton.elim _ _
    have hnil : (σ.raft t 0).applyCh = [] := (σ.singleCluster t).ok.applyCh
    rw [hnil]
    exact ⟨by simp, fun u _ _ => List.nil_prefix⟩
  | n + 2 =>
    have h2 : 2 ≤ n + 2 := by omega
    exact ⟨fun k m hm => applyCh_committed h2 hm, fun u htu => (applyCh_mono h2 htu p).2⟩

end Schedule

end DistSystem
