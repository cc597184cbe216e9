import DistSystem.Proofs.RaftReply
import DistSystem.Proofs.RaftStream
import DistSystem.Raft.Shared

/-!
# Requests that are encoded late

If every request is encoded with the entries it was built with, a run is one of a cluster in which
requests are values, action by action (`SharedSchedule.cluster_run`), and what holds of servers and
their messages there holds here. If not, a follower gets entries that its leader never had at that
place: two servers then match at an index and differ in front of it, and terms are no longer in
order (`overwritten`).
-/

namespace DistSystem

variable {n : ℕ} {C : Type}

namespace Shared

variable (s : Shared n C) {a : Action n C}

/-- A request that is encoded in this action still has the entries it was built with. -/
def Intact : Action n C → Prop
  | .encode k => ∀ pc ∈ s.net[k]?, ∀ slice ∈ pc.slice, s.Sending pc.packet →
      pc.packet.msg.encode (s.memory pc.packet.msg.src) slice = pc.packet.msg
  | .act _ => True

instance [DecidableEq C] : (a : Action n C) → Decidable (s.Intact a)
  | .encode k => inferInstanceAs (Decidable (∀ pc ∈ s.net[k]?, ∀ slice ∈ pc.slice, _ → _ = _))
  | .act _ => inferInstanceAs (Decidable True)

/-- What the action does to a cluster of values. -/
def value : Action n C → DistSystem.Action n C
  | .act (.deliver k rnd) =>
    match s.net[k]? with
    | some ⟨_, none⟩ => .deliver k rnd
    | _ => .idle
  | .act a => a
  | .encode _ => .idle

theorem cluster_finish (p : Fin n) (i : ℕ) (x : Go n C (Raft n C × List (Message n C))) :
    (s.finish p i x).cluster = s.cluster.finish p i x := by
  cases x with
  | error e => rfl
  | ok y => simp [finish, cluster, Cluster.finish, Cluster.setNode, Cluster.send]

theorem cluster_eraseIdx (k : ℕ) :
    cluster { s with net := s.net.eraseIdx k } =
      { s.cluster with net := s.cluster.net.eraseIdx k } := by
  simp [cluster, List.eraseIdx_map]

variable {s}

theorem cluster_encode {k : ℕ} (h : s.Intact (.encode k)) :
    (s.exec (.encode k)).cluster = s.cluster := by
  simp only [exec]
  split
  · rename_i pk slice hk
    split_ifs with hs
    · have hmsg : pk.msg.encode (s.memory pk.msg.src) slice = pk.msg := h _ hk slice rfl hs
      simp only [cluster, hmsg]
      rw [Parcel.map_packet_set hk]
    · rfl
  · rfl

theorem cluster_deliver (k rnd : ℕ) :
    (s.exec (.act (.deliver k rnd))).cluster =
      s.cluster.exec (s.value (.act (.deliver k rnd))) := by
  rcases hk : s.net[k]? with _ | ⟨pk, _ | slice⟩
  · simp only [exec, value, hk, Cluster.exec]
  · have hpk : s.cluster.net[k]? = some pk := by simp [cluster, hk]
    simp only [exec, value, hk, Cluster.exec, hpk]
    split_ifs
    · rw [cluster_finish, cluster_eraseIdx]
      rfl
    · rfl
  · simp only [exec, value, hk, Cluster.exec]

theorem cluster_exec (h : s.Intact a) : (s.exec a).cluster = s.cluster.exec (s.value a) := by
  cases a with
  | encode k => exact cluster_encode h
  | act a =>
    cases a with
    | deliver k rnd => exact cluster_deliver k rnd
    | tick p rnd | start p command =>
      by_cases hr : (s.cluster.nodes p).Ready
      · simp only [exec, value, Cluster.exec, if_pos hr, if_pos (show (s.nodes p).Ready from hr)]
        exact cluster_finish ..
      · simp only [exec, value, Cluster.exec, if_neg hr, if_neg (show ¬ (s.nodes p).Ready from hr)]
    | drop k => exact cluster_eraseIdx s k
    | restart p rnd =>
      simp only [exec, value, Cluster.exec]
      change cluster (if _ then s else _) = if (s.nodes p).status = .running then _ else _
      split_ifs <;> rfl
    | stateMachine p =>
      simp only [exec, value, Cluster.exec]
      split_ifs
      · cases (s.cluster.nodes p).raft.stateMachine <;> rfl
      · rfl
    | crash | idle => rfl

end Shared

namespace SharedSchedule

variable (σ : SharedSchedule n C)

/-- The run of the cluster of values. -/
def values : Schedule n C := ⟨σ.rnd, fun t => (σ.run t).value (σ.act t)⟩

/-- What is encoded after `t` actions is what was built. -/
def Intact (t : ℕ) : Prop := (σ.run t).Intact (σ.act t)

instance [DecidableEq C] (t : ℕ) : Decidable (σ.Intact t) :=
  inferInstanceAs (Decidable ((σ.run t).Intact (σ.act t)))

/-- `pk` is handled after `t` actions. -/
def Delivers (t : ℕ) (pk : Packet n C) : Prop :=
  ∃ k rnd, σ.act t = .act (.deliver k rnd) ∧ (σ.run t).net[k]? = some ⟨pk, none⟩ ∧
    (σ.run t).cluster.CanDeliver pk

/-- The schedule of a list of actions in which a request is encoded when it is about to be
handled. -/
def prompt (as : List (Action n C)) : SharedSchedule n C :=
  .ofList (fun _ _ => 0) <| as.flatMap fun
    | .deliver k rnd => [.encode k, .act (.deliver k rnd)]
    | a => [.act a]

variable {σ} {t u : ℕ} {p f : Fin n}

theorem intact_ofList {spare : Fin n → ℕ → ℕ} {as : List (Shared.Action n C)}
    (h : ∀ u < as.length, (ofList spare as).Intact u) (u : ℕ) : (ofList spare as).Intact u := by
  by_cases hu : u < as.length
  · exact h u hu
  · have hact : (ofList spare as).act u = .act .idle := by
      simp [ofList, List.getElem?_eq_none (Nat.le_of_not_lt hu)]
    unfold Intact
    rw [hact]
    exact trivial

theorem cluster_run : ∀ {t : ℕ}, (∀ u < t, σ.Intact u) → (σ.run t).cluster = σ.values.run t
  | 0, _ => rfl
  | t + 1, h => by
    have ih := cluster_run fun u hu => h u (Nat.lt_succ_of_lt hu)
    calc (σ.run (t + 1)).cluster
        = (σ.run t).cluster.exec ((σ.run t).value (σ.act t)) :=
          Shared.cluster_exec (h t t.lt_succ_self)
      _ = σ.values.run (t + 1) := by rw [ih]; rfl

theorem nodes_values (h : ∀ u < t, σ.Intact u) : (σ.values.run t).nodes = (σ.run t).nodes := by
  rw [← cluster_run h]
  rfl

theorem raft_values (h : ∀ u < t, σ.Intact u) (p : Fin n) : σ.values.raft t p = σ.raft t p := by
  unfold Schedule.raft raft
  rw [nodes_values h]

theorem delivers_values_iff (h : ∀ u < t, σ.Intact u) {pk : Packet n C} :
    σ.values.Delivers t pk ↔ σ.Delivers t pk := by
  unfold Schedule.Delivers
  rw [← cluster_run h]
  constructor
  · rintro ⟨k, rnd, hact, hk, hcan⟩
    change (σ.run t).value (σ.act t) = .deliver k rnd at hact
    unfold Shared.value at hact
    split at hact
    · rename_i k' rnd' hact'
      split at hact
      · rename_i pk' hk'
        cases hact
        have hpk : (σ.run t).cluster.net[k]? = some pk' := by simp [Shared.cluster, hk']
        obtain rfl := Option.some.inj (hpk.symm.trans hk)
        exact ⟨k, rnd, hact', hk', hcan⟩
      · cases hact
    · rename_i a hno hact'
      exact absurd hact (hno k rnd)
    · cases hact
  · rintro ⟨k, rnd, hact, hk, hcan⟩
    refine ⟨k, rnd, ?_, by simp [Shared.cluster, hk], hcan⟩
    simp [values, hact, Shared.value, hk]

/-! ## What holds if requests stay as they were built -/

/-- Every server is well-formed, and the only panic is that of a leader that looks past the end of
its log for a rejection it got. -/
theorem server_wellFormed (h : ∀ u < t, σ.Intact u) (p : Fin n) : (σ.raft t p).WellFormed ∧
    ∀ msg, ((σ.run t).nodes p).status = .panicked msg → msg = "index out of range" ∧
      ∃ u < t, ∃ pk, σ.Delivers u pk ∧ pk.msg.dst = p ∧ PastEnd (σ.raft u p) pk.msg := by
  refine ⟨raft_values h p ▸ σ.values.wellFormed t p, fun msg hp => ?_⟩
  rw [← nodes_values h] at hp
  obtain ⟨hmsg, u, hu, m, ⟨k, rnd, pk, hact, hk, hcan, hdst, rfl⟩, hbad⟩ := Schedule.panicked hp
  have hu' : ∀ v < u, σ.Intact v := fun v hv => h v (hv.trans hu)
  rw [nodes_values hu'] at hbad
  exact ⟨hmsg, u, hu, pk, (delivers_values_iff hu').1 ⟨k, rnd, hact, hk, hcan⟩, hdst, hbad⟩

/-- Server 0 is elected, and starts a command that server 1 gets too. -/
def matching : SharedSchedule 3 ℕ :=
  .prompt <| List.flatten
    [ticks s₀ 10, [.deliver 0 0, .deliver 1 0, .start s₀ (some 7), .deliver 3 0, .deliver 4 0]]

theorem matching_intact : ∀ u, matching.Intact u := intact_ofList (by decide +kernel)

theorem server_wellFormed_matching :
    (∀ u < 19, matching.Intact u) ∧ (matching.raft 19 1).WellFormed :=
  have h : ∀ u < 19, matching.Intact u := fun u _ => matching_intact u
  ⟨h, (server_wellFormed h 1).1⟩

/-- What a leader records a follower as matching, the follower has for as long as it stays in the
leader's term. -/
theorem matchIndex_sound (h : ∀ v < u, σ.Intact v) (hf : f ≠ p)
    (hp : (σ.raft t p).state = .stateLeader) (htu : t ≤ u)
    (hT : (σ.raft u f).currentTerm = (σ.raft t p).currentTerm) :
    (σ.raft t p).matchIndex f < (σ.raft t p).log.length ∧
      ∀ j ≤ (σ.raft t p).matchIndex f, (σ.raft u f).log[j]? = (σ.raft t p).log[j]? := by
  have ht : ∀ v < t, σ.Intact v := fun v hv => h v (hv.trans_le htu)
  rw [← raft_values ht] at hp hT ⊢
  rw [← raft_values h] at hT ⊢
  exact Schedule.matched_agree hf hp htu hT

theorem matchIndex_sound_matching :
    ((∀ u < 19, matching.Intact u) ∧ (matching.raft 19 0).state = .stateLeader ∧
      (matching.raft 19 1).currentTerm = (matching.raft 19 0).currentTerm ∧
      (matching.raft 19 0).matchIndex 1 = 1) ∧
      (matching.raft 19 0).matchIndex 1 < (matching.raft 19 0).log.length ∧
      ∀ j ≤ (matching.raft 19 0).matchIndex 1,
        (matching.raft 19 1).log[j]? = (matching.raft 19 0).log[j]? := by
  have hin : ∀ u < 19, matching.Intact u := fun u _ => matching_intact u
  have h : (matching.raft 19 0).state = .stateLeader ∧
      (matching.raft 19 1).currentTerm = (matching.raft 19 0).currentTerm ∧
      (matching.raft 19 0).matchIndex 1 = 1 := by
    decide +kernel
  exact ⟨⟨hin, h⟩, matchIndex_sound hin (by decide) h.1 le_rfl h.2.1⟩

/-- A response is handled without a panic, then or in a broadcast that follows, just when it is not
a rejection past the end of the leader's log; and no server of a run ever panics just when no such
rejection is handled. -/
theorem reply_panic_iff (h : ∀ u, σ.Intact u) :
    (∀ t, ∀ pc ∈ (σ.run t).net, pc.packet.msg.isResp = true →
      (σ.run t).cluster.CanDeliver pc.packet → ∀ rnd,
      ((∃ r msgs, (σ.raft t pc.packet.msg.dst).step rnd pc.packet.msg = .ok (r, msgs) ∧
        (r.state = .stateLeader → ∃ x, r.bcastAppend = .ok x)) ↔
      ¬ PastEnd (σ.raft t pc.packet.msg.dst) pc.packet.msg)) ∧
    ((∀ t p msg, ((σ.run t).nodes p).status ≠ .panicked msg) ↔
      ∀ t pk, σ.Delivers t pk → ¬ PastEnd (σ.raft t pk.msg.dst) pk.msg) := by
  have hrun : ∀ t, (σ.run t).cluster = σ.values.run t := fun t => cluster_run fun u _ => h u
  constructor
  · intro t pc hpc _ hcan rnd
    have hmem : pc.packet ∈ (σ.values.run t).net := hrun t ▸ List.mem_map_of_mem hpc
    have hiff := Schedule.response_ok_iff hmem (hrun t ▸ hcan) rnd
    rwa [raft_values fun u _ => h u] at hiff
  · have hiff := σ.values.no_panic_iff
    simpa only [nodes_values fun u _ => h u, raft_values fun u _ => h u,
      delivers_values_iff fun u _ => h u] using hiff

/-- The answer on which the leader of `matching` commits. -/
def firstAnswer : Parcel 3 ℕ :=
  ⟨⟨.msgAppResp s₁ s₀ ⟨2, s₀, 0, 0, 1, [⟨2, some 7, 1⟩]⟩
    { term := 2, success := true, nextIndex := 2 }, 0⟩, none⟩

theorem reply_panic_iff_matching :
    ((∀ u, matching.Intact u) ∧ firstAnswer ∈ (matching.run 18).net ∧
      firstAnswer.packet.msg.isResp = true ∧
      (matching.run 18).cluster.CanDeliver firstAnswer.packet) ∧
      ∃ r msgs, (matching.raft 18 0).step 0 firstAnswer.packet.msg = .ok (r, msgs) ∧
        (r.state = .stateLeader → ∃ x, r.bcastAppend = .ok x) := by
  have h : firstAnswer ∈ (matching.run 18).net ∧ firstAnswer.packet.msg.isResp = true ∧
      (matching.run 18).cluster.CanDeliver firstAnswer.packet := by
    decide +kernel
  have hend : ¬ PastEnd (matching.raft 18 0) firstAnswer.packet.msg := by
    intro hp
    exact absurd hp.2.2.1 (by decide)
  exact ⟨⟨matching_intact, h⟩,
    ((reply_panic_iff matching_intact).1 18 firstAnswer h.1 h.2.1 h.2.2 0).2 hend⟩

/-! ## Where it does not hold -/

/-- Server 0 leads term 2, starts three commands that nobody gets, leads term 3 and then, with its
log overwritten by the leader of term 4, leads term 5. Last, the answer to a request of term 3 comes
in, which server 1 has given in term 5. -/
def lateRejection : SharedSchedule 3 ℕ :=
  .prompt <| List.flatten
    [ticks s₀ 10, [.deliver 0 0, .deliver 1 0, .start s₀ (some 7), .start s₀ (some 8),
      .start s₀ (some 9), .crash s₀, .restart s₀ 0], List.replicate 9 (.drop 0), ticks s₀ 10,
      [.deliver 0 0, .deliver 1 0, .deliver 0 0], ticks s₂ 10,
      [.deliver 4 0, .deliver 4 0, .start s₂ (some 5), .deliver 6 0], ticks s₀ 10,
      [.deliver 8 0, .deliver 9 0, .deliver 0 0, .deliver 10 0]]

/-- The answer: its request starts after index 3, and the log now ends at index 1. -/
def lateAnswer : Parcel 3 ℕ :=
  ⟨⟨.msgAppResp s₁ s₀ ⟨3, s₀, 0, 3, 2, []⟩ { term := 5, nextIndex := 1 }, 1⟩, none⟩

theorem lateRejection_panics :
    (∀ u, lateRejection.Intact u) ∧
      ((lateRejection.run 79).nodes 0).status = .panicked "index out of range" ∧
      ¬ ∀ t, ∀ pc ∈ (lateRejection.run t).net, pc.packet.msg.isResp = true →
        (lateRejection.run t).cluster.CanDeliver pc.packet →
        ∃ x, (lateRejection.raft t pc.packet.msg.dst).step 0 pc.packet.msg = .ok x := by
  refine ⟨intact_ofList (by decide +kernel), by decide +kernel, fun h => ?_⟩
  obtain ⟨h1, h2, h3, h4⟩ : lateAnswer ∈ (lateRejection.run 78).net ∧
      lateAnswer.packet.msg.isResp = true ∧
      (lateRejection.run 78).cluster.CanDeliver lateAnswer.packet ∧
      ((lateRejection.raft 78 0).step 0 lateAnswer.packet.msg).isOk = false := by
    decide +kernel
  obtain ⟨x, hx⟩ := h 78 lateAnswer h1 h2 h3
  rw [show (lateRejection.raft 78 0).step 0 lateAnswer.packet.msg = .ok x from hx] at h4
  simp [Except.isOk, Except.toBool] at h4

/-- A run of five servers, of which `p` and `q` are the first two. A request of `p` to server 2,
with entry 2 of term 2, is encoded only when the leader of term 3, `q`, has overwritten that entry
in the log of `p`. Later `q` is elected again and asks server 2. Arrays have room for 1, 2 and 4
entries. -/
def overwritten (p q : Fin 5) : SharedSchedule 5 ℕ :=
  .ofList (fun _ k => if k = 3 then 1 else 0) <| List.flatten
    [(ticks p 10).map .act, [.deliver 0 0, .deliver 1 0, .deliver 2 0, .deliver 2 0].map .act,
      List.replicate 6 (.act (.drop 0)), [.act (.start p (some 7)), .encode 1],
      [.deliver 1 0, .deliver 3 0, .drop 0, .drop 0, .drop 0, .start p (some 8)].map .act,
      [.drop 0, .drop 1, .drop 1].map .act, (ticks q 10).map .act,
      [.deliver 3 0, .deliver 3 0, .deliver 3 0, .deliver 3 0].map .act,
      List.replicate 6 (.act (.drop 1)), [.start q (some 17), .start q (some 18)].map .act,
      [.encode 5, .act (.deliver 5 0), .encode 0, .act (.deliver 0 0)],
      List.replicate 9 (.act (.drop 0)), [.crash q, .restart q 0].map .act,
      (ticks q 10).map .act, [.deliver 2 0, .deliver 2 0, .deliver 2 0, .deliver 2 0].map .act,
      [.encode 3, .act (.deliver 3 0), .act (.deliver 5 0)]]

/-- Server 2 gets an entry of term 3 while it is in term 2. -/
theorem overwritten_terms :
    ((overwritten 0 1).raft 57 2).currentTerm = 2 ∧
      ((overwritten 0 1).raft 57 2).log.map Log.term = [1, 2, 3] ∧
      ¬ ∀ t p, ((overwritten 0 1).raft t p).WellFormed := by
  have h : ((overwritten 0 1).raft 57 2).currentTerm = 2 ∧
      ((overwritten 0 1).raft 57 2).log.map Log.term = [1, 2, 3] ∧
      ¬ ((overwritten 0 1).raft 57 2).lastLog.term ≤ ((overwritten 0 1).raft 57 2).currentTerm := by
    decide +kernel
  exact ⟨h.1, h.2.1, fun hwf => h.2.2 (hwf 57 2).last⟩

/-- Server 1 takes that entry for a match, and what is in front of it differs. -/
theorem overwritten_matchIndex :
    ((overwritten 0 1).raft 85 1).state = .stateLeader ∧
      ((overwritten 0 1).raft 85 2).currentTerm = ((overwritten 0 1).raft 85 1).currentTerm ∧
      ((overwritten 0 1).raft 85 1).matchIndex 2 = 2 ∧
      ¬ ∀ j ≤ ((overwritten 0 1).raft 85 1).matchIndex 2,
        ((overwritten 0 1).raft 85 2).log[j]? = ((overwritten 0 1).raft 85 1).log[j]? := by
  have h : ((overwritten 0 1).raft 85 1).state = .stateLeader ∧
      ((overwritten 0 1).raft 85 2).currentTerm = ((overwritten 0 1).raft 85 1).currentTerm ∧
      ((overwritten 0 1).raft 85 1).matchIndex 2 = 2 ∧
      ((overwritten 0 1).raft 85 2).log[1]? ≠ ((overwritten 0 1).raft 85 1).log[1]? := by
    decide +kernel
  refine ⟨h.1, h.2.1, h.2.2.1, fun hall => h.2.2.2 (hall 1 ?_)⟩
  rw [h.2.2.1]
  decide

end SharedSchedule

end DistSystem
