import DistSystem.Proofs.RaftSafety

/-!
# What a restart keeps

Every path through the event loop that changes the term, the vote or the log reaches a `persist`
before its iteration ends, but one: `campaign` of a server that is its own quorum goes straight on
to `becomeLeader` and returns. So a restart gives back all three just as long as no such election is
held.
-/

namespace DistSystem

variable {n : ℕ} {C : Type}

/-- The cluster after server `p` has crashed and restarted on its persister. -/
def Cluster.reboot (s : Cluster n C) (p : Fin n) (rnd : ℕ) : Cluster n C :=
  (s.exec (.crash p)).exec (.restart p rnd)

theorem Cluster.reboot_raft (s : Cluster n C) (p : Fin n) (rnd : ℕ) :
    ((s.reboot p rnd).nodes p).raft = .make p (s.nodes p).raft.persister rnd := by
  simp [reboot, exec, setNode]

/-- What a restart should give back. -/
structure SameDurable (r r' : Raft n C) : Prop where
  currentTerm : r'.currentTerm = r.currentTerm
  votedFor : r'.votedFor = r.votedFor
  log : r'.log = r.log

theorem Raft.Durable.sameDurable {r : Raft n C} (h : r.Durable) (p : Fin n) (rnd : ℕ) :
    SameDurable r (.make p r.persister rnd) := by
  have habs := abs_make (p := p) h rnd
  exact ⟨congrArg Replog.Replica.term habs, congrArg Replog.Replica.vote habs,
    congrArg Replog.Replica.log habs⟩

/-! ## A server alone -/

/-- A server alone before its first election. -/
structure Unelected (r : Raft 1 C) : Prop where
  state : r.state = .stateFollower
  persister : r.persister = none
  currentTerm : r.currentTerm = 1
  votedFor : r.votedFor = none
  log : r.log = [Raft.sentinel]

theorem Unelected.make (rnd : ℕ) : Unelected (.make 0 none rnd : Raft 1 C) :=
  ⟨rfl, rfl, rfl, rfl, rfl⟩

theorem Unelected.durable {r : Raft 1 C} (h : Unelected r) : r.Durable := by
  unfold Raft.Durable
  rw [h.persister]
  exact ⟨h.currentTerm, h.log, h.votedFor⟩

theorem Unelected.step {r r' : Raft 1 C} {s : Cluster 1 C} {a : Action 1 C} (h : Unelected r)
    (hst : SingleStep s a r r') (hr : (s.nodes 0).raft = r) (hno : ¬ LoneCampaign s a) :
    Unelected r' := by
  cases hst with
  | keep hk hp =>
    exact ⟨hk.state.trans h.state, hp.trans h.persister, hk.currentTerm.trans h.currentTerm,
      hk.votedFor.trans h.votedFor, hk.log.trans h.log⟩
  | heartbeat hs => simp [h.state] at hs
  | elect hc => exact absurd hc hno
  | start hc =>
    cases a with
    | start p command =>
      have hs := hc.2.2
      rw [Subsingleton.elim p 0, hr, h.state] at hs
      cases hs
    | _ => exact hc.elim
  | restart heq =>
    rw [heq, h.persister]
    exact .make _

namespace Schedule

variable {σ : Schedule n C}

theorem single_unelected {σ : Schedule 1 C} (hno : ∀ t, ¬ LoneCampaign (σ.run t) (σ.act t)) :
    ∀ t, Unelected (σ.raft t 0)
  | 0 => .make _
  | t + 1 => (single_unelected hno t).step (σ.singleStep t) rfl (hno t)

/-- A restart takes a server alone back behind an election it has held. -/
theorem single_elect_lost {σ : Schedule 1 C} {t : ℕ} (hc : LoneCampaign (σ.run t) (σ.act t)) :
    (Raft.make 0 (σ.raft (t + 1) 0).persister 0).currentTerm < (σ.raft (t + 1) 0).currentTerm := by
  have hok := σ.singleTerms t
  cases hact : σ.act t with
  | tick p rnd =>
    rw [hact] at hc
    obtain rfl : p = 0 := Subsingleton.elim _ _
    have hself : σ.raft (t + 1) 0 = (σ.raft t 0).elected rnd := by
      have hx := Raft.tick_elect hc.2.2.1 hc.2.2.2 rnd
      unfold raft
      rw [run, hact, Cluster.exec, if_pos hc.1]
      exact (Changes.finish_ok hx _ _ _).self
    rw [hself, Raft.elected_persister, Raft.elected_currentTerm, Raft.make_currentTerm]
    exact Nat.lt_succ_of_le hok.persisted
  | _ =>
    rw [hact] at hc
    exact hc.elim

theorem not_loneCampaign (h2 : 2 ≤ n) (s : Cluster n C) (a : Action n C) :
    ¬ LoneCampaign s a := by
  intro h
  cases a with
  | tick p rnd =>
    have hq := h.2.1
    simp only [Raft.quorum] at hq
    omega
  | _ => exact h.elim

/-- A restart gives back the term, the vote and the log in every state of a run, and so over its
whole life a server's term does not go back nor its vote in a term change, just when no server that
is its own quorum holds an election in the run. -/
theorem durable_iff (σ : Schedule n C) :
    ((∀ t p rnd, SameDurable (σ.raft t p) (((σ.run t).reboot p rnd).nodes p).raft) ∧
      (∀ t u p, t ≤ u → (σ.raft t p).currentTerm ≤ (σ.raft u p).currentTerm) ∧
      ∀ t u p c, t ≤ u → (σ.raft u p).currentTerm = (σ.raft t p).currentTerm →
        (σ.raft t p).votedFor = some c → (σ.raft u p).votedFor = some c) ↔
      ∀ t, ¬ LoneCampaign (σ.run t) (σ.act t) := by
  match n with
  | 0 =>
    refine ⟨fun _ t hc => ?_, fun _ => ⟨fun t p => p.elim0, fun t u p => p.elim0,
      fun t u p => p.elim0⟩⟩
    cases hact : σ.act t with
    | tick p rnd => exact p.elim0
    | _ =>
      rw [hact] at hc
      exact hc.elim
  | 1 =>
    refine ⟨fun h t hc => ?_, fun hno => ?_⟩
    · have hsame := (h.1 (t + 1) 0 0).currentTerm
      rw [Cluster.reboot_raft] at hsame
      exact (single_elect_lost hc).ne hsame
    · have hun : ∀ t (p : Fin 1), Unelected (σ.raft t p) := fun t p => by
        rw [Subsingleton.elim p 0]
        exact single_unelected hno t
      refine ⟨fun t p rnd => ?_, fun t u p _ => ?_, fun t u p c _ _ hc => ?_⟩
      · rw [Cluster.reboot_raft]
        exact (hun t p).durable.sameDurable p rnd
      · rw [(hun t p).currentTerm, (hun u p).currentTerm]
      · rw [(hun t p).votedFor] at hc
        cases hc
  | n + 2 =>
    have h2 : 2 ≤ n + 2 := by omega
    refine ⟨fun _ t => not_loneCampaign h2 _ _, fun _ => ⟨fun t p rnd => ?_,
      fun t u p htu => (σ.isRun h2 u).term_mono htu le_rfl p,
      fun t u p c htu hT hc => (σ.isRun h2 u).vote_stable htu le_rfl hT hc⟩⟩
    rw [Cluster.reboot_raft]
    exact ((σ.clusterOk h2 t).durable p).sameDurable p rnd

end Schedule

/-- The only server of its cluster. -/
def lone : Fin 1 := ⟨0, Nat.zero_lt_one⟩

/-- A server alone that elects itself and crashes before its first heartbeat. -/
def loneElection : Schedule 1 ℕ := .ofList (ticks lone 10 ++ [.crash lone, .restart lone 0])

/-- Before the crash it leads term 2, having voted for itself; after the restart it is in term 1
and has not voted. -/
theorem loneElection_lost :
    ((loneElection.raft 10 lone).state = .stateLeader ∧
      (loneElection.raft 10 lone).currentTerm = 2 ∧
      (loneElection.raft 10 lone).votedFor = some lone) ∧
      (loneElection.raft 12 lone).currentTerm = 1 ∧ (loneElection.raft 12 lone).votedFor = none ∧
      ¬ SameDurable (loneElection.raft 10 lone)
        (((loneElection.run 10).reboot lone 0).nodes lone).raft := by
  refine ⟨by decide +kernel, by decide +kernel, by decide +kernel, fun h => ?_⟩
  exact absurd h.currentTerm (by decide +kernel)

end DistSystem
