import DistSystem.Proofs.RaftStep
import DistSystem.Raft.Cluster

/-!
# A cluster runs the protocol

What an action can do (`ClusterStep`) changes at most one server and takes messages from the network
or adds those that server sent (`Changes`). With at least two servers every action is then a move of
the protocol, so the replicas the servers are make a run of it (`Schedule.isRun`).
-/

namespace DistSystem

open Replog (Run)

variable {n : ℕ} {C : Type} {s s' : Cluster n C} {p : Fin n} {r : Raft n C}
  {msgs : List (Message n C)}

/-- What an action makes of a cluster: nothing, if it is not possible. -/
inductive ClusterStep (s : Cluster n C) : Action n C → Cluster n C → Prop
  | same {a : Action n C} : ClusterStep s a s
  | tick {p : Fin n} {rnd : ℕ} (hr : (s.nodes p).Ready) :
    ClusterStep s (.tick p rnd) (s.finish p (s.nodes p).incarnation ((s.nodes p).raft.tick rnd))
  | deliver {k rnd : ℕ} {pk : Packet n C} (hk : s.net[k]? = some pk) (hd : s.CanDeliver pk) :
    ClusterStep s (.deliver k rnd) ({ s with net := s.net.eraseIdx k }.finish pk.msg.dst
      pk.incarnation ((s.nodes pk.msg.dst).raft.step rnd pk.msg))
  | drop {k : ℕ} : ClusterStep s (.drop k) { s with net := s.net.eraseIdx k }
  | start {p : Fin n} {command : Option C} (hr : (s.nodes p).Ready) :
    ClusterStep s (.start p command) (s.finish p (s.nodes p).incarnation
      (((s.nodes p).raft.handleStart command).map fun x => (x.1, x.2.1)))
  | stateMachine {p : Fin n} (hr : (s.nodes p).status = .running) :
    ClusterStep s (.stateMachine p) (s.finish p (s.nodes p).incarnation
      ((s.nodes p).raft.stateMachine.map (·, [])))
  | crash {p : Fin n} :
    ClusterStep s (.crash p) (s.setNode p { s.nodes p with status := .crashed })
  | restart {p : Fin n} {rnd : ℕ} (hr : (s.nodes p).status ≠ .running) :
    ClusterStep s (.restart p rnd) (s.setNode p ⟨.make p (s.nodes p).raft.persister rnd, .running,
      (s.nodes p).incarnation + 1⟩)

theorem Cluster.exec_step (s : Cluster n C) (a : Action n C) : ClusterStep s a (s.exec a) := by
  cases a with
  | tick p rnd =>
    simp only [exec]
    split_ifs with hr
    · exact .tick hr
    · exact .same
  | deliver k rnd =>
    simp only [exec]
    cases hk : s.net[k]? with
    | none => exact .same
    | some pk =>
      dsimp only
      split_ifs with hd
      · exact .deliver hk hd
      · exact .same
  | drop k => exact .drop
  | start p command =>
    simp only [exec]
    split_ifs with hr
    · exact .start hr
    · exact .same
  | stateMachine p =>
    simp only [exec]
    split_ifs with hr
    · -- nothing is sent
      have hstep := ClusterStep.stateMachine hr
      cases hm : (s.nodes p).raft.stateMachine with
      | ok r =>
        rw [hm] at hstep
        simpa [Except.map, finish, send, setNode] using hstep
      | error e =>
        rw [hm] at hstep
        exact hstep
    · exact .same
  | crash p => exact .crash
  | restart p rnd =>
    simp only [exec]
    split_ifs with hr
    · exact .same
    · exact .restart hr
  | idle => exact .same

/-- From `s` to `s'` server `p` comes to be `r` and `msgs` are sent. -/
structure Changes (s s' : Cluster n C) (p : Fin n) (r : Raft n C) (msgs : List (Message n C)) :
    Prop where
  self : (s'.nodes p).raft = r
  others : ∀ q, q ≠ p → (s'.nodes q).raft = (s.nodes q).raft
  net : ∀ pk ∈ s'.net, pk ∈ s.net ∨ pk.msg ∈ msgs

theorem Changes.finish {bad : Prop} {x : Go n C (Raft n C × List (Message n C))}
    (h : Leaves bad x r msgs) (s : Cluster n C) (p : Fin n) (i : ℕ) :
    Changes s (s.finish p i x) p r msgs := by
  cases h with
  | ok =>
    refine ⟨by simp [Cluster.finish, Cluster.send, Cluster.setNode], fun q hq => by
      simp [Cluster.finish, Cluster.send, Cluster.setNode, Function.update_of_ne hq],
      fun pk hpk => ?_⟩
    simp only [Cluster.finish, Cluster.send, Cluster.setNode, List.mem_append, List.mem_map] at hpk
    rcases hpk with hpk | ⟨m, hm, rfl⟩
    · exact .inl hpk
    · exact .inr hm
  | panic =>
    exact ⟨by simp [Cluster.finish, Cluster.setNode, Node.fail], fun q hq => by
      simp [Cluster.finish, Cluster.setNode, Function.update_of_ne hq], fun pk hpk => .inl hpk⟩

theorem Changes.finish_ok {x : Go n C (Raft n C × List (Message n C))} (hx : x = .ok (r, msgs))
    (s : Cluster n C) (p : Fin n) (i : ℕ) : Changes s (s.finish p i x) p r msgs :=
  hx ▸ .finish (.ok not_false r msgs) s p i

/-- The message that is handled leaves the network. -/
theorem Changes.finish_eraseIdx {bad : Prop} {x : Go n C (Raft n C × List (Message n C))}
    (h : Leaves bad x r msgs) (s : Cluster n C) (k : ℕ) (p : Fin n) (i : ℕ) :
    Changes s ({ s with net := s.net.eraseIdx k }.finish p i x) p r msgs := by
  have hc := Changes.finish h { s with net := s.net.eraseIdx k } p i
  exact ⟨hc.self, hc.others, fun q hq => (hc.net q hq).imp_left List.mem_of_mem_eraseIdx⟩

theorem Changes.setNode (s : Cluster n C) (p : Fin n) (x : Node n C) :
    Changes s (s.setNode p x) p x.raft [] :=
  ⟨by simp [Cluster.setNode], fun q hq => by simp [Cluster.setNode, Function.update_of_ne hq],
    fun _ hpk => .inl hpk⟩

/-- What holds at time `t` of a cluster with history `τ`. -/
structure ClusterOk (τ : History n C) (t : ℕ) (s : Cluster n C) : Prop where
  run : Run (protocol n C) τ t
  wf : ∀ u ≤ t, ∀ q, LogWf (τ u q).log
  abs : ∀ q, τ t q = (s.nodes q).raft.abs
  ok : ∀ q, RaftOk τ t q (s.nodes q).raft
  durable : ∀ q, (s.nodes q).raft.Durable
  net : ∀ pk ∈ s.net, MessageOk τ t pk.msg

section Step

variable {τ : History n C} {t : ℕ}

/-- One server's move makes the whole cluster's. -/
theorem ClusterOk.next (h : ClusterOk τ t s) (hc : Changes s s' p r msgs)
    (habs : ∀ q, τ (t + 1) q = (s'.nodes q).raft.abs) (hd : r.Durable)
    (hh : Handled τ t p r msgs) : ClusterOk τ (t + 1) s' := by
  have hothers : ∀ {q}, q ≠ p → τ (t + 1) q = τ t q := fun {q} hq => by
    rw [habs, h.abs, hc.others q hq]
  refine ⟨⟨h.run.init, fun u hu v => ?_⟩, fun u hu q => ?_, habs, fun q => ?_, fun q => ?_,
    fun pk hpk => ?_⟩
  · rcases Nat.lt_succ_iff_lt_or_eq.1 hu with hu | rfl
    · exact h.run.next u hu v
    · by_cases hv : v = p
      · subst hv
        rw [habs, hc.self]
        exact hh.move
      · rw [hothers hv]
        exact .quiet
  · rcases Nat.lt_or_eq_of_le hu with hu | rfl
    · exact h.wf u (by omega) q
    · by_cases hq : q = p
      · subst hq
        rw [habs, hc.self]
        exact hh.ok.wf
      · rw [hothers hq]
        exact h.wf t le_rfl q
  · by_cases hq : q = p
    · subst hq
      rw [hc.self]
      exact hh.ok
    · rw [hc.others q hq]
      exact (h.ok q).mono (Nat.le_succ t)
  · by_cases hq : q = p
    · subst hq
      rwa [hc.self]
    · rw [hc.others q hq]
      exact h.durable q
  · rcases hc.net pk hpk with hpk | hm
    · exact (h.net pk hpk).mono (Nat.le_succ t)
    · exact hh.sent _ hm

/-- Every action is a move of one server. -/
theorem ClusterStep.handled (h2 : 2 ≤ n) (h : ClusterOk τ t s) {a : Action n C}
    (hst : ClusterStep s a s') : ∃ p r msgs, Changes s s' p r msgs ∧ r.Durable ∧
      (τ (t + 1) p = r.abs → Handled τ t p r msgs) := by
  have hsame : ∀ {s' : Cluster n C} (p : Fin n), Changes s s' p (s.nodes p).raft [] →
      ∃ p r msgs, Changes s s' p r msgs ∧ r.Durable ∧
        (τ (t + 1) p = r.abs → Handled τ t p r msgs) := fun {s'} p hc =>
    ⟨p, _, [], hc, h.durable p, fun _ => .quiet (h.abs p) (h.ok p) (by simp)⟩
  cases hst with
  | same => exact hsame ⟨0, by omega⟩ ⟨rfl, fun _ _ => rfl, fun _ => .inl⟩
  | @tick p rnd =>
    obtain ⟨r, msgs, heq, hd, hh⟩ := tick_handled (h.abs p) (h.ok p) h2 rnd
    exact ⟨p, r, msgs, .finish_ok heq _ _ _, hd (h.durable p), hh⟩
  | @deliver k rnd pk hk =>
    obtain ⟨r, msgs, hl, hd, hh⟩ := step_handled h.run h.wf (h.abs _) (h.ok _)
      (h.net pk (List.mem_of_getElem? hk)) rfl rnd
    exact ⟨_, r, msgs, .finish_eraseIdx hl _ _ _ _, hd, hh⟩
  | drop =>
    exact hsame ⟨0, by omega⟩ ⟨rfl, fun _ _ => rfl, fun _ h => .inl (List.mem_of_mem_eraseIdx h)⟩
  | @start p command =>
    obtain ⟨r, msgs, reply, heq, hd, hh⟩ := handleStart_handled (h.abs p) (h.ok p) command
    exact ⟨p, r, msgs, .finish_ok (by rw [heq]; rfl) _ _ _, hd (h.durable p), hh⟩
  | @stateMachine p =>
    obtain ⟨r, heq, hd, habs, hok⟩ := stateMachine_handled h.run (h.abs p) (h.ok p)
    exact ⟨p, r, [], .finish_ok (by rw [heq]; rfl) _ _ _, hd (h.durable p),
      fun _ => .quiet ((h.abs p).trans habs.symm) hok (by simp)⟩
  | @crash p => exact hsame p (.setNode _ _ _)
  | @restart p rnd =>
    obtain ⟨hd, hh⟩ := make_handled (h.abs p) (h.ok p) (h.durable p) rnd
    exact ⟨p, _, [], .setNode _ _ _, hd, fun _ => hh⟩

end Step

namespace Schedule

variable (σ : Schedule n C)

theorem step (t : ℕ) : ClusterStep (σ.run t) (σ.act t) (σ.run (t + 1)) :=
  (σ.run t).exec_step (σ.act t)

/-- The replicas the servers are. -/
def history : History n C := fun t p => (σ.raft t p).abs

/-- Every run of at least two servers is a run of the protocol. -/
theorem clusterOk (h2 : 2 ≤ n) : ∀ t, ClusterOk σ.history t (σ.run t)
  | 0 => by
    refine ⟨⟨fun v => rfl, by omega⟩, fun u hu q => ?_, fun _ => rfl, fun q => ?_, fun q => ?_,
      by simp [run]⟩
    · obtain rfl : u = 0 := by omega
      exact LogWf.sentinel
    · refine .follower rfl rfl LogWf.sentinel ⟨?_, ?_, ?_, ?_, ?_, ?_⟩ <;>
        simp [run, Raft.make, Raft.zero, Raft.becomeFollower, Raft.readPersist]
    · exact ⟨rfl, rfl, rfl⟩
  | t + 1 => by
    have h := clusterOk h2 t
    obtain ⟨p, r, msgs, hc, hd, hh⟩ := (σ.step t).handled h2 h
    refine h.next hc (fun _ => rfl) hd (hh ?_)
    rw [← hc.self]
    rfl

theorem isRun (h2 : 2 ≤ n) (t : ℕ) : Run (protocol n C) σ.history t := (σ.clusterOk h2 t).run

theorem raftOk (h2 : 2 ≤ n) (t : ℕ) (p : Fin n) : RaftOk σ.history t p (σ.raft t p) :=
  (σ.clusterOk h2 t).ok p

end Schedule

end DistSystem
