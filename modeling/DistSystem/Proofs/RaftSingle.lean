import DistSystem.Proofs.RaftRefine

/-!
# A server alone

A server that is its own quorum elects itself without persisting its new term, so a restart may
take it back to a term it has led before, and the protocol's argument does not apply. Nothing is
ever sent or committed, and the log, which every `Start` persists, only grows. What changes its
term, its log and what it has persisted is said once (`SingleStep`).
-/

namespace DistSystem

variable {C : Type} {r : Raft 1 C}

/-- What holds of a server alone. -/
structure SingleOk (r : Raft 1 C) : Prop where
  wf : LogWf r.log
  base : r.log[0]? = some Raft.sentinel
  kept : (r.persister = none ∧ r.log = [Raft.sentinel]) ∨
    ∃ d, r.persister = some d ∧ d.log = r.log
  commitIndex : r.commitIndex = 0
  commitc : r.commitc = none
  applying : r.applying = none
  applyCh : r.applyCh = []

/-- The changes that keep it: none to the log, or one that is persisted. -/
theorem SingleOk.of_log (h : SingleOk r) {r' : Raft 1 C} (hl : r.log <+: r'.log)
    (hw : LogWf r'.log) (hp : r'.persister = r.persister ∧ r'.log = r.log ∨
      ∃ d, r'.persister = some d ∧ d.log = r'.log) (h1 : r'.commitIndex = r.commitIndex)
    (h2 : r'.commitc = r.commitc) (h3 : r'.applying = r.applying)
    (h4 : r'.applyCh = r.applyCh) : SingleOk r' where
  wf := hw
  base := Replog.getElem?_of_isPrefix hl h.base
  kept := by
    rcases hp with ⟨hp, hlog⟩ | hp
    · rw [hp, hlog]
      exact h.kept
    · exact .inr hp
  commitIndex := h1.trans h.commitIndex
  commitc := h2.trans h.commitc
  applying := h3.trans h.applying
  applyCh := h4.trans h.applyCh

theorem SingleOk.persist (h : SingleOk r) : SingleOk r.persist :=
  h.of_log List.prefix_rfl h.wf (.inr ⟨_, rfl, rfl⟩) rfl rfl rfl rfl

/-- A server alone has nobody to send to. -/
theorem Raft.bcastAppend_single (r : Raft 1 C) : r.bcastAppend = .ok (r.persist, []) := by
  have : r.persist.peers = [] := by
    refine List.eq_nil_iff_forall_not_mem.2 fun i hi => ?_
    exact Raft.mem_peers.1 hi (Subsingleton.elim _ _)
  simp only [Raft.bcastAppend, this]
  rfl

theorem Raft.countVotes_candidacy_single (r : Raft 1 C) (rnd : ℕ) :
    (r.candidacy rnd).countVotes true = 1 := by
  have hv : (r.candidacy rnd).votes 0 = some true := by
    simp [Raft.candidacy, Subsingleton.elim r.me 0]
  simp [Raft.countVotes, List.finRange_succ, hv]

/-- A server alone is elected by its own vote. -/
theorem Raft.campaign_single (hs : r.state ≠ .stateLeader) (rnd : ℕ) :
    r.campaign rnd = .ok ((r.candidacy rnd).leadership rnd, []) := by
  obtain ⟨r₀, hc, hp⟩ := Raft.becomeCandidate_poll hs rnd
  simp only [Raft.campaign, hc, bind, Except.bind, hp, Raft.countVotes_candidacy_single,
    Raft.quorum]
  rw [if_pos (by decide), Raft.becomeLeader_eq rfl]
  rfl

theorem SingleOk.candidacy (h : SingleOk r) (rnd : ℕ) : SingleOk (r.candidacy rnd) := by
  have hlog := Raft.candidacy_log h.wf rnd
  exact h.of_log (hlog ▸ List.prefix_rfl) (hlog ▸ h.wf) (.inl ⟨r.reset_persister rnd _, hlog⟩)
    (r.reset_commitIndex rnd _) (r.reset_commitc rnd _) (r.reset_applying rnd _)
    (r.reset_applyCh rnd _)

theorem SingleOk.leadership (h : SingleOk r) (rnd : ℕ) : SingleOk (r.leadership rnd) := by
  have hlog := Raft.leadership_log h.wf rnd
  exact h.of_log (hlog ▸ List.prefix_rfl) (hlog ▸ h.wf) (.inl ⟨r.reset_persister rnd _, hlog⟩)
    (r.reset_commitIndex rnd _) (r.reset_commitc rnd _) (r.reset_applying rnd _)
    (r.reset_applyCh rnd _)

theorem tick_single (h : SingleOk r) (rnd : ℕ) :
    ∃ r', r.tick rnd = .ok (r', []) ∧ SingleOk r' ∧ r.log <+: r'.log := by
  have htimer : ∀ e b, SingleOk { r with electionElapsed := e, heartbeatElapsed := b } :=
    fun e b => h.of_log List.prefix_rfl h.wf (.inl ⟨rfl, rfl⟩) rfl rfl rfl rfl
  by_cases hs : r.state = .stateLeader
  · simp only [Raft.tick, if_pos hs, Raft.tickHeartbeat, Raft.bcastAppend_single]
    split_ifs
    · exact ⟨_, rfl, (htimer _ 0).persist, List.prefix_rfl⟩
    · exact ⟨_, rfl, htimer _ _, List.prefix_rfl⟩
  · simp only [Raft.tick, if_neg hs, Raft.tickElection]
    split_ifs
    · have hcand := (htimer 0 r.heartbeatElapsed).candidacy rnd
      refine ⟨_, Raft.campaign_single (by exact hs) rnd, hcand.leadership rnd, ?_⟩
      rw [Raft.leadership_log hcand.wf, Raft.candidacy_log (by exact h.wf)]
    · exact ⟨_, rfl, htimer _ _, List.prefix_rfl⟩

theorem handleStart_single (h : SingleOk r) (command : Option C) :
    ∃ r' reply, r.handleStart command = .ok (r', [], reply) ∧ SingleOk r' ∧ r.log <+: r'.log := by
  by_cases hs : r.state = .stateLeader
  · refine ⟨_, _, Raft.handleStart_leader hs (Raft.bcastAppend_single _), ?_,
      List.prefix_append _ _⟩
    exact h.of_log (List.prefix_append _ _) (h.wf.concat rfl) (.inr ⟨_, rfl, rfl⟩) rfl rfl rfl rfl
  · exact ⟨r, _, if_pos hs, h, List.prefix_rfl⟩

theorem stateMachine_single (h : SingleOk r) : r.stateMachine = .ok r := by
  simp [Raft.stateMachine, h.applying, h.commitc]

theorem make_single (h : SingleOk r) (p : Fin 1) (rnd : ℕ) :
    SingleOk (Raft.make p r.persister rnd) ∧ (Raft.make p r.persister rnd).log = r.log := by
  have hlog : (Raft.make p r.persister rnd).log = r.log := by
    rcases h.kept with ⟨hp, hl⟩ | ⟨d, hp, hl⟩
    · rw [hp, hl]
      rfl
    · rw [hp, ← hl]
      rfl
  refine ⟨⟨hlog ▸ h.wf, hlog ▸ h.base, ?_, ?_, ?_, ?_, ?_⟩, hlog⟩
  · have hkept : (Raft.make p r.persister rnd).persister = r.persister := by
      cases r.persister <;> rfl
    rw [hkept, hlog]
    exact h.kept
  all_goals cases r.persister <;> rfl

/-- What holds of a cluster of one. -/
structure SingleCluster (s : Cluster 1 C) : Prop where
  ok : SingleOk (s.nodes 0).raft
  net : s.net = []

theorem SingleCluster.setNode {s : Cluster 1 C} (h : SingleCluster s) (p : Fin 1) {x : Node 1 C}
    (hx : SingleOk x.raft) (hl : (s.nodes 0).raft.log <+: x.raft.log) :
    SingleCluster (s.setNode p x) ∧
      (s.nodes 0).raft.log <+: ((s.setNode p x).nodes 0).raft.log := by
  obtain rfl : p = 0 := Subsingleton.elim _ _
  simp only [Cluster.setNode, Function.update_self]
  exact ⟨⟨by simpa using hx, h.net⟩, hl⟩

theorem SingleCluster.finish {s : Cluster 1 C} (h : SingleCluster s) (p : Fin 1) (i : ℕ)
    {r : Raft 1 C} (hr : SingleOk r) (hl : (s.nodes 0).raft.log <+: r.log) :
    SingleCluster (s.finish p i (.ok (r, []))) ∧
      (s.nodes 0).raft.log <+: ((s.finish p i (.ok (r, []))).nodes 0).raft.log := by
  obtain ⟨h1, h2⟩ := h.setNode p (x := { s.nodes p with raft := r }) hr hl
  refine ⟨⟨h1.ok, ?_⟩, h2⟩
  simpa [Cluster.finish, Cluster.send] using h1.net

theorem SingleCluster.step {s s' : Cluster 1 C} (h : SingleCluster s) {a : Action 1 C}
    (hst : ClusterStep s a s') :
    SingleCluster s' ∧ (s.nodes 0).raft.log <+: (s'.nodes 0).raft.log := by
  have hzero : ∀ p : Fin 1, s.nodes p = s.nodes 0 := fun p => by
    rw [Subsingleton.elim p 0]
  cases hst with
  | same => exact ⟨h, List.prefix_rfl⟩
  | @tick p rnd =>
    obtain ⟨r', heq, hr, hl⟩ := tick_single h.ok rnd
    rw [hzero p, heq]
    exact h.finish p _ hr hl
  | deliver hk => simp [h.net] at hk
  | drop => exact ⟨⟨h.ok, by simp [h.net]⟩, List.prefix_rfl⟩
  | @start p command =>
    obtain ⟨r', reply, heq, hr, hl⟩ := handleStart_single h.ok command
    rw [hzero p, heq]
    exact h.finish p _ hr hl
  | @stateMachine p =>
    rw [hzero p, stateMachine_single h.ok]
    exact h.finish p _ h.ok List.prefix_rfl
  | @crash p => exact h.setNode p (by rw [hzero p]; exact h.ok) (by rw [hzero p])
  | @restart p rnd =>
    rw [hzero p]
    obtain ⟨hr, hl⟩ := make_single h.ok p rnd
    exact h.setNode p hr (by rw [hl])

/-! ## What it persists -/

/-- A server that is its own quorum starts an election. -/
def LoneCampaign {n : ℕ} (s : Cluster n C) : Action n C → Prop
  | .tick p _ => (s.nodes p).Ready ∧ (s.nodes p).raft.quorum = 1 ∧
      (s.nodes p).raft.state ≠ .stateLeader ∧
      (s.nodes p).raft.electionElapsed + 1 ≥ (s.nodes p).raft.randomizedElectionTimeout
  | _ => False

/-- A leader that is its own quorum takes a command. -/
def LoneStart {n : ℕ} (s : Cluster n C) : Action n C → Prop
  | .start p _ => (s.nodes p).Ready ∧ (s.nodes p).raft.quorum = 1 ∧
      (s.nodes p).raft.state = .stateLeader
  | _ => False

/-- The term a restart gives. -/
def Raft.persistedTerm (r : Raft 1 C) : ℕ := (r.persister.map RaftStateData.currentTerm).getD 1

theorem Raft.make_currentTerm (r : Raft 1 C) (p : Fin 1) (rnd : ℕ) :
    (make p r.persister rnd).currentTerm = r.persistedTerm := by
  unfold persistedTerm
  cases r.persister <;> rfl

/-- The part of a server alone that an action may leave as it is. -/
structure SameServer (r r' : Raft 1 C) : Prop where
  state : r'.state = r.state
  currentTerm : r'.currentTerm = r.currentTerm
  votedFor : r'.votedFor = r.votedFor
  log : r'.log = r.log
  lastApplied : r'.lastApplied = r.lastApplied

/-- The server once it has elected itself. -/
def Raft.elected (r : Raft 1 C) (rnd : ℕ) : Raft 1 C :=
  ({ r with electionElapsed := 0 }.candidacy rnd).leadership rnd

theorem Raft.elected_currentTerm (r : Raft 1 C) (rnd : ℕ) :
    (r.elected rnd).currentTerm = r.currentTerm + 1 :=
  (reset_currentTerm _ rnd _).trans (reset_currentTerm _ rnd _)

theorem Raft.elected_log (h : LogWf r.log) (rnd : ℕ) : (r.elected rnd).log = r.log := by
  have hlog := candidacy_log (r := { r with electionElapsed := 0 }) h rnd
  exact (leadership_log (by rw [hlog]; exact h) rnd).trans hlog

theorem Raft.elected_persister (r : Raft 1 C) (rnd : ℕ) :
    (r.elected rnd).persister = r.persister :=
  (reset_persister _ rnd _).trans (reset_persister _ rnd _)

theorem Raft.elected_lastApplied (r : Raft 1 C) (rnd : ℕ) :
    (r.elected rnd).lastApplied = r.lastApplied :=
  (reset_lastApplied _ rnd _).trans (reset_lastApplied _ rnd _)

theorem Raft.tick_elect (hs : r.state ≠ .stateLeader)
    (ht : r.electionElapsed + 1 ≥ r.randomizedElectionTimeout) (rnd : ℕ) :
    r.tick rnd = .ok (r.elected rnd, []) := by
  simp only [tick, if_neg hs, tickElection, if_pos ht]
  exact campaign_single (r := { r with electionElapsed := 0 }) hs rnd

/-- What an action makes of a server alone. -/
inductive SingleStep (s : Cluster 1 C) (a : Action 1 C) (r r' : Raft 1 C) : Prop
  | keep (h : SameServer r r') (hp : r'.persister = r.persister)
  | heartbeat (hs : r.state = .stateLeader) (h : SameServer r r')
      (hp : r'.persister = some ⟨r.currentTerm, r.log, r.votedFor⟩)
  | elect (hc : LoneCampaign s a) {rnd : ℕ} (h : r' = r.elected rnd)
  | start (hc : LoneStart s a) {command : Option C} (h : r' = (r.started command).persist)
  | restart {rnd : ℕ} (h : r' = .make 0 r.persister rnd)

theorem tick_singleStep {s : Cluster 1 C} {p : Fin 1} (hr : (s.nodes p).Ready) (rnd : ℕ) :
    ∃ r', (s.nodes p).raft.tick rnd = .ok (r', []) ∧
      SingleStep s (.tick p rnd) (s.nodes p).raft r' := by
  set r := (s.nodes p).raft with hr₀
  by_cases hs : r.state = .stateLeader
  · simp only [Raft.tick, if_pos hs, Raft.tickHeartbeat, Raft.bcastAppend_single]
    split_ifs
    · exact ⟨_, rfl, .heartbeat hs ⟨rfl, rfl, rfl, rfl, rfl⟩ rfl⟩
    · exact ⟨_, rfl, .keep ⟨rfl, rfl, rfl, rfl, rfl⟩ rfl⟩
  · by_cases ht : r.electionElapsed + 1 ≥ r.randomizedElectionTimeout
    · exact ⟨_, Raft.tick_elect hs ht rnd, .elect ⟨hr, rfl, hs, ht⟩ rfl⟩
    · simp only [Raft.tick, if_neg hs, Raft.tickElection, if_neg ht]
      exact ⟨_, rfl, .keep ⟨rfl, rfl, rfl, rfl, rfl⟩ rfl⟩

theorem handleStart_singleStep {s : Cluster 1 C} {p : Fin 1} (hr : (s.nodes p).Ready)
    (command : Option C) :
    ∃ r' reply, (s.nodes p).raft.handleStart command = .ok (r', [], reply) ∧
      SingleStep s (.start p command) (s.nodes p).raft r' := by
  by_cases hs : (s.nodes p).raft.state = .stateLeader
  · exact ⟨_, _, Raft.handleStart_leader hs (Raft.bcastAppend_single _), .start ⟨hr, rfl, hs⟩ rfl⟩
  · exact ⟨_, _, if_pos hs, .keep ⟨rfl, rfl, rfl, rfl, rfl⟩ rfl⟩

/-- Every action does one of these to the server. -/
theorem SingleCluster.singleStep {s s' : Cluster 1 C} (h : SingleCluster s) {a : Action 1 C}
    (hst : ClusterStep s a s') : SingleStep s a (s.nodes 0).raft (s'.nodes 0).raft := by
  have hsame : ∀ {r' : Raft 1 C}, r' = (s.nodes 0).raft →
      SingleStep s a (s.nodes 0).raft r' := by
    rintro r' rfl
    exact .keep ⟨rfl, rfl, rfl, rfl, rfl⟩ rfl
  cases hst with
  | same | drop => exact hsame rfl
  | @tick p rnd hr =>
    obtain rfl : p = 0 := Subsingleton.elim _ _
    obtain ⟨r', heq, hstep⟩ := tick_singleStep hr rnd
    rwa [(Changes.finish_ok heq s 0 _).self]
  | deliver hk => simp [h.net] at hk
  | @start p command hr =>
    obtain rfl : p = 0 := Subsingleton.elim _ _
    obtain ⟨r', reply, heq, hstep⟩ := handleStart_singleStep hr command
    rwa [(Changes.finish_ok (by rw [heq]; rfl) s 0 _).self]
  | @stateMachine p =>
    obtain rfl : p = 0 := Subsingleton.elim _ _
    rw [stateMachine_single h.ok]
    exact hsame (Changes.finish_ok rfl s 0 _).self
  | @crash p =>
    obtain rfl : p = 0 := Subsingleton.elim _ _
    exact hsame (Changes.setNode s 0 _).self
  | @restart p rnd =>
    obtain rfl : p = 0 := Subsingleton.elim _ _
    exact .restart (Changes.setNode s 0 _).self

/-- The log is in the order of terms, none later than the term that is persisted. -/
structure SingleTerms (r : Raft 1 C) : Prop where
  persisted : r.persistedTerm ≤ r.currentTerm
  terms : ∀ e ∈ r.log, e.term ≤ r.persistedTerm
  sorted : (r.log.map Log.term).Pairwise (· ≤ ·)
  lastApplied : r.lastApplied = 0

theorem SingleTerms.step {s : Cluster 1 C} {a : Action 1 C} {r' : Raft 1 C} (h : SingleTerms r)
    (hok : SingleOk r) (hst : SingleStep s a r r') : SingleTerms r' := by
  have hle : ∀ e ∈ r.log, e.term ≤ r.currentTerm := fun e he => (h.terms e he).trans h.persisted
  cases hst with
  | keep hk hp =>
    have hT : r'.persistedTerm = r.persistedTerm := by rw [Raft.persistedTerm, hp]; rfl
    exact ⟨by rw [hT, hk.currentTerm]; exact h.persisted, by rw [hT, hk.log]; exact h.terms,
      by rw [hk.log]; exact h.sorted, hk.lastApplied.trans h.lastApplied⟩
  | heartbeat _ hk hp =>
    have hT : r'.persistedTerm = r.currentTerm := by rw [Raft.persistedTerm, hp]; rfl
    exact ⟨by rw [hT, hk.currentTerm], by rw [hT, hk.log]; exact hle,
      by rw [hk.log]; exact h.sorted, hk.lastApplied.trans h.lastApplied⟩
  | @elect _ rnd heq =>
    subst heq
    have hT := r.elected_currentTerm rnd
    have hl := Raft.elected_log hok.wf rnd
    have hp : (r.elected rnd).persistedTerm = r.persistedTerm := by
      rw [Raft.persistedTerm, r.elected_persister]
      rfl
    exact ⟨by rw [hp, hT]; exact h.persisted.trans (Nat.le_succ _),
      by rw [hp, hl]; exact h.terms, by rw [hl]; exact h.sorted,
      (r.elected_lastApplied rnd).trans h.lastApplied⟩
  | start _ heq =>
    subst heq
    refine ⟨le_rfl, fun e he => ?_, ?_, h.lastApplied⟩
    · rcases List.mem_append.1 he with he | he
      · exact hle e he
      · rw [List.mem_singleton.1 he]
        exact le_rfl
    · simp only [Raft.persist, Raft.started, List.map_append, List.map_cons, List.map_nil,
        List.pairwise_append, List.pairwise_singleton, List.mem_singleton, List.mem_map]
      refine ⟨h.sorted, trivial, ?_⟩
      rintro _ ⟨e, he, rfl⟩ _ rfl
      exact hle e he
  | @restart rnd heq =>
    subst heq
    obtain ⟨-, hlog⟩ := make_single hok 0 rnd
    have hT := r.make_currentTerm 0 rnd
    have hp : (Raft.make 0 r.persister rnd).persistedTerm = r.persistedTerm := by
      unfold Raft.persistedTerm
      cases r.persister <;> rfl
    refine ⟨by rw [hp, hT], by rw [hp, hlog]; exact h.terms, by rw [hlog]; exact h.sorted, ?_⟩
    cases r.persister <;> rfl

namespace Schedule

variable (σ : Schedule 1 C)

theorem singleCluster : ∀ t, SingleCluster (σ.run t)
  | 0 => ⟨⟨LogWf.sentinel, rfl, .inl ⟨rfl, rfl⟩, rfl, rfl, rfl, rfl⟩, rfl⟩
  | t + 1 => ((singleCluster t).step (σ.step t)).1

/-- The log of a server alone only grows. -/
theorem single_log_mono {t u : ℕ} (htu : t ≤ u) : (σ.raft t 0).log <+: (σ.raft u 0).log := by
  induction u, htu using Nat.le_induction with
  | base => exact List.prefix_rfl
  | succ u _ ih => exact ih.trans ((σ.singleCluster u).step (σ.step u)).2

theorem singleStep (t : ℕ) :
    SingleStep (σ.run t) (σ.act t) (σ.raft t 0) (σ.raft (t + 1) 0) :=
  (σ.singleCluster t).singleStep (σ.step t)

theorem singleTerms : ∀ t, SingleTerms (σ.raft t 0)
  | 0 => by
    have hlog : (σ.raft 0 0).log = [Raft.sentinel] := rfl
    refine ⟨le_rfl, fun e he => ?_, by simp [hlog], rfl⟩
    rw [hlog] at he
    rw [List.mem_singleton.1 he]
    exact le_rfl
  | t + 1 => (singleTerms t).step (σ.singleCluster t).ok (σ.singleStep t)

end Schedule

end DistSystem
