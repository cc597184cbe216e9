import DistSystem.Proofs.RaftSafety

/-!
# Answers that come late

A response is taken for an answer to what the server asks now whenever its term is the server's,
also when it answers a request from an earlier term. A leader that gets such a rejection looks in
its log from the old request's place on, and panics if the log no longer reaches there; nothing else
panics in a cluster.
-/

namespace DistSystem

variable {n : ℕ} {C : Type}

theorem Cluster.finish_status (s : Cluster n C) (p : Fin n) (i : ℕ)
    {x : Go n C (Raft n C × List (Message n C))} (hx : ∃ y, x = .ok y) (q : Fin n) :
    ((s.finish p i x).nodes q).status = (s.nodes q).status := by
  obtain ⟨⟨r, msgs⟩, rfl⟩ := hx
  unfold finish send setNode
  by_cases hq : q = p
  · subst hq
    simp
  · simp [Function.update_of_ne hq]

theorem Cluster.setNode_panicked {s : Cluster n C} {p : Fin n} {x : Node n C}
    (hx : ∀ msg, x.status ≠ .panicked msg) {q : Fin n} {msg : String}
    (h : ((s.setNode p x).nodes q).status = .panicked msg) :
    (s.nodes q).status = .panicked msg := by
  unfold setNode at h
  by_cases hq : q = p
  · subst hq
    exact absurd (by simpa using h) (hx msg)
  · simpa [Function.update_of_ne hq] using h

/-- A panic comes only from a step that panics. -/
theorem ClusterStep.panicked {s s' : Cluster n C} {a : Action n C} (hst : ClusterStep s a s')
    (htick : ∀ p rnd, ∃ x, (s.nodes p).raft.tick rnd = .ok x)
    (hstart : ∀ p command, ∃ x, (s.nodes p).raft.handleStart command = .ok x)
    (hmach : ∀ p, ∃ r, (s.nodes p).raft.stateMachine = .ok r)
    (hstep : ∀ k rnd pk, a = .deliver k rnd → s.net[k]? = some pk → s.CanDeliver pk →
      ∃ x, (s.nodes pk.msg.dst).raft.step rnd pk.msg = .ok x)
    {q : Fin n} {msg : String} (h : (s'.nodes q).status = .panicked msg) :
    (s.nodes q).status = .panicked msg := by
  cases hst with
  | same | drop => exact h
  | @tick p rnd => rwa [s.finish_status p _ (htick p rnd)] at h
  | @deliver k rnd pk hk hd =>
    rwa [Cluster.finish_status _ _ _ (hstep k rnd pk rfl hk hd)] at h
  | @start p command =>
    obtain ⟨x, hx⟩ := hstart p command
    rwa [s.finish_status p _ ⟨_, by rw [hx]; rfl⟩] at h
  | @stateMachine p =>
    obtain ⟨r, hr⟩ := hmach p
    rwa [s.finish_status p _ ⟨_, by rw [hr]; rfl⟩] at h
  | crash | restart => exact Cluster.setNode_panicked (by simp) h

/-- In a cluster only a message past the end of the log it is compared with makes a server panic. -/
theorem ClusterStep.panicked_of_reaches {τ : History n C} {t : ℕ} {s s' : Cluster n C}
    {a : Action n C} (hst : ClusterStep s a s') (h2 : 2 ≤ n) (h : ClusterOk τ t s)
    (hno : ∀ k rnd pk, a = .deliver k rnd → s.net[k]? = some pk → s.CanDeliver pk →
      ¬ PastEnd (s.nodes pk.msg.dst).raft pk.msg)
    {q : Fin n} {msg : String} (hp : (s'.nodes q).status = .panicked msg) :
    (s.nodes q).status = .panicked msg := by
  refine hst.panicked (fun q rnd => ?_) (fun q command => ?_) (fun q => ?_)
    (fun k rnd pk hact hk hcan => ?_) hp
  · obtain ⟨r, msgs, heq, -⟩ := tick_handled (h.abs q) (h.ok q) h2 rnd
    exact ⟨_, heq⟩
  · obtain ⟨r, msgs, reply, heq, -⟩ := handleStart_handled (h.abs q) (h.ok q) command
    exact ⟨_, heq⟩
  · obtain ⟨r, heq, -⟩ := stateMachine_handled h.run (h.abs q) (h.ok q)
    exact ⟨r, heq⟩
  · obtain ⟨r, msgs, hl, -⟩ := step_handled h.run h.wf (h.abs _) (h.ok _)
      (h.net pk (List.mem_of_getElem? hk)) rfl rnd
    exact ⟨_, hl.ok_iff.2 (hno k rnd pk hact hk hcan)⟩

namespace Schedule

variable (σ : Schedule n C)

/-- The schedule that does `a` after `t` actions. -/
def doing (t : ℕ) (a : Action n C) : Schedule n C := ⟨σ.rnd, Function.update σ.act t a⟩

theorem run_doing {t : ℕ} (a : Action n C) : ∀ u ≤ t, (σ.doing t a).run u = σ.run u
  | 0, _ => rfl
  | u + 1, hu => by
    have hact : (σ.doing t a).act u = σ.act u := Function.update_of_ne (by omega) _ _
    rw [run, run, run_doing a u (by omega), hact]

/-- `pk` is handled after `t` actions. -/
def Delivers (t : ℕ) (pk : Packet n C) : Prop :=
  ∃ k rnd, σ.act t = .deliver k rnd ∧ (σ.run t).net[k]? = some pk ∧ (σ.run t).CanDeliver pk

variable {σ}

/-- Handling a message panics only past the end of a log, and a broadcast after it does not. -/
theorem step_leaves (h2 : 2 ≤ n) {t : ℕ} {pk : Packet n C} (hpk : pk ∈ (σ.run t).net)
    (hd : (σ.run t).CanDeliver pk) (rnd : ℕ) :
    ∃ r msgs, Leaves (PastEnd (σ.raft t pk.msg.dst) pk.msg)
        ((σ.raft t pk.msg.dst).step rnd pk.msg) r msgs ∧
      (r.state = .stateLeader → ∃ x, r.bcastAppend = .ok x) := by
  have h := σ.clusterOk h2 t
  obtain ⟨r, msgs, hl, -, -⟩ := step_handled h.run h.wf (h.abs _) (h.ok _) (h.net pk hpk) rfl rnd
  refine ⟨r, msgs, hl, fun hs => ?_⟩
  -- the state that is left is a reachable one, so its next indices are in range
  obtain ⟨k, hk⟩ := List.getElem?_of_mem hpk
  have hraft : (σ.doing t (.deliver k rnd)).raft (t + 1) pk.msg.dst = r := by
    have hact : (σ.doing t (.deliver k rnd)).act t = .deliver k rnd := Function.update_self _ _ _
    unfold raft
    rw [run, hact, σ.run_doing _ t le_rfl]
    simp only [Cluster.exec, hk, if_pos hd]
    exact (Changes.finish hl _ _ _).self
  have hok := (σ.doing t (.deliver k rnd)).raftOk h2 (t + 1) pk.msg.dst
  rw [hraft] at hok
  obtain ⟨msgs', hb, -⟩ := Raft.bcastAppend_ok hok.wf fun i _ => (hok.leader hs).next i
  exact ⟨_, hb⟩

theorem delivers_panic (h2 : 2 ≤ n) {t : ℕ} {pk : Packet n C} (hd : σ.Delivers t pk)
    (hbad : PastEnd (σ.raft t pk.msg.dst) pk.msg) :
    ∃ msg, ((σ.run (t + 1)).nodes pk.msg.dst).status = .panicked msg := by
  obtain ⟨k, rnd, hact, hk, hcan⟩ := hd
  obtain ⟨r, msgs, hl, -⟩ := step_leaves h2 (List.mem_of_getElem? hk) hcan rnd
  rw [run, hact]
  simp only [Cluster.exec, hk, if_pos hcan]
  rw [show ((σ.run t).nodes pk.msg.dst).raft = σ.raft t pk.msg.dst from rfl]
  generalize (σ.raft t pk.msg.dst).step rnd pk.msg = x at hl
  cases hl with
  | ok h => exact absurd hbad h
  | panic h r msg =>
    refine ⟨msg, ?_⟩
    simp [Cluster.finish, Cluster.setNode, Node.fail]

theorem not_panicked (h2 : 2 ≤ n)
    (hno : ∀ t pk, σ.Delivers t pk → ¬ PastEnd (σ.raft t pk.msg.dst) pk.msg) :
    ∀ t p msg, ((σ.run t).nodes p).status ≠ .panicked msg
  | 0, p, msg => by simp [run]
  | t + 1, p, msg => by
    intro hp
    exact not_panicked h2 hno t p msg ((σ.step t).panicked_of_reaches h2 (σ.clusterOk h2 t)
      (fun k rnd pk hact hk hcan => hno t pk ⟨k, rnd, hact, hk, hcan⟩) hp)

theorem single_not_panicked (σ : Schedule 1 C) :
    ∀ t p msg, ((σ.run t).nodes p).status ≠ .panicked msg
  | 0, p, msg => by simp [run]
  | t + 1, p, msg => by
    intro hp
    have h := σ.singleCluster t
    have hok : ∀ q, SingleOk ((σ.run t).nodes q).raft := fun q => by
      rw [Subsingleton.elim q 0]
      exact h.ok
    refine single_not_panicked σ t p msg ((σ.step t).panicked (fun q rnd => ?_)
      (fun q command => ?_) (fun q => ?_) (fun k rnd pk hact hk hcan => ?_) hp)
    · obtain ⟨r, heq, -⟩ := tick_single (hok q) rnd
      exact ⟨_, heq⟩
    · obtain ⟨r, reply, heq, -⟩ := handleStart_single (hok q) command
      exact ⟨_, heq⟩
    · exact ⟨_, stateMachine_single (hok q)⟩
    · simp [h.net] at hk

/-- A response is handled without a panic, then or in a broadcast that follows, just when it is not
a rejection past the end of the leader's log. -/
theorem response_ok_iff {t : ℕ} {pk : Packet n C} (hpk : pk ∈ (σ.run t).net)
    (hd : (σ.run t).CanDeliver pk) (rnd : ℕ) :
    (∃ r msgs, (σ.raft t pk.msg.dst).step rnd pk.msg = .ok (r, msgs) ∧
        (r.state = .stateLeader → ∃ x, r.bcastAppend = .ok x)) ↔
      ¬ PastEnd (σ.raft t pk.msg.dst) pk.msg := by
  match n with
  | 0 => exact pk.msg.dst.elim0
  | 1 =>
    have hnet : (σ.run t).net = [] := (σ.singleCluster t).net
    simp [hnet] at hpk
  | n + 2 =>
    obtain ⟨r, msgs, hl, hb⟩ := step_leaves (by omega) hpk hd rnd
    refine ⟨fun ⟨r', msgs', heq, _⟩ hbad => ?_, fun hbad => ⟨r, msgs, hl.ok_iff.2 hbad, hb⟩⟩
    rw [heq] at hl
    cases hl with
    | ok h => exact h hbad

/-- No server of a run ever panics just when no such rejection is handled. -/
theorem no_panic_iff (σ : Schedule n C) :
    (∀ t p msg, ((σ.run t).nodes p).status ≠ .panicked msg) ↔
      ∀ t pk, σ.Delivers t pk → ¬ PastEnd (σ.raft t pk.msg.dst) pk.msg := by
  match n with
  | 0 => exact ⟨fun _ t pk => pk.msg.dst.elim0, fun _ t p => p.elim0⟩
  | 1 =>
    refine ⟨fun _ t pk hd => ?_, fun _ => single_not_panicked σ⟩
    have hnet : (σ.run t).net = [] := (σ.singleCluster t).net
    obtain ⟨k, rnd, -, hk, -⟩ := hd
    simp [hnet] at hk
  | n + 2 =>
    have h2 : 2 ≤ n + 2 := by omega
    refine ⟨fun hno t pk hd hbad => ?_, not_panicked h2⟩
    obtain ⟨msg, hp⟩ := delivers_panic h2 hd hbad
    exact hno _ _ _ hp

end Schedule

end DistSystem
