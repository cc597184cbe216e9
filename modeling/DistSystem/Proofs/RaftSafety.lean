import DistSystem.Proofs.RaftRefine
import DistSystem.Proofs.RaftSingle

/-!
# The guarantees of `doc.go`

Election safety, log matching, leader completeness and state machine safety, for clusters of every
size and over all of a run: the two servers compared may be looked at in different states, and a
server that has restarted counts as the same server. With two servers or more they are read off
the protocol's run, for a server alone off its log, which only grows.
-/

namespace DistSystem

open Replog (LeaderAt)

variable {n : ℕ} {C : Type} (σ : Schedule n C)

/-- `k` ticks of server `p`. -/
def ticks (p : Fin n) (k : ℕ) : List (Action n C) := List.replicate k (.tick p 0)

/-- The first of three servers. -/
def s₀ : Fin 3 := 0

/-- The second of three servers. -/
def s₁ : Fin 3 := 1

/-- The third of three servers. -/
def s₂ : Fin 3 := 2

/-- A run of three servers: the first is elected, starts and commits a command that the second
gets too, and then the second is elected. -/
def twoLeaders : Schedule 3 ℕ :=
  .ofList <| List.flatten
    [ticks 0 10, [.deliver 0 0, .deliver 1 0, .start 0 (some 7), .deliver 3 0, .deliver 4 0,
      .stateMachine 0, .stateMachine 0], ticks 0 5,
      [.deliver 4 0, .stateMachine 1, .stateMachine 1], ticks 1 10, [.deliver 7 0, .deliver 7 0]]

namespace Schedule

variable {σ} {t u : ℕ} {p q : Fin n}

theorem leaderAt_history (h : (σ.raft t p).state = .stateLeader) :
    LeaderAt σ.history t p (σ.raft t p).currentTerm :=
  leaderAt_of_abs rfl h

/-! ## Elections -/

/-- A term has one leader. -/
theorem election_safety (hp : (σ.raft t p).state = .stateLeader)
    (hq : (σ.raft u q).state = .stateLeader)
    (hT : (σ.raft t p).currentTerm = (σ.raft u q).currentTerm) : p = q := by
  match n with
  | 0 => exact p.elim0
  | 1 => exact Subsingleton.elim p q
  | n + 2 =>
    have hrun := σ.isRun (by omega) (max t u)
    have hl := leaderAt_history hp
    rw [hT] at hl
    exact hrun.leader_unique (le_max_left t u) (le_max_right t u) hl (leaderAt_history hq)

theorem election_safety_twoLeaders :
    ((twoLeaders.raft 12 0).state = .stateLeader ∧ (twoLeaders.raft 37 0).state = .stateLeader ∧
      (twoLeaders.raft 12 0).currentTerm = (twoLeaders.raft 37 0).currentTerm) ∧
      (0 : Fin 3) = 0 :=
  have h : (twoLeaders.raft 12 0).state = .stateLeader ∧
      (twoLeaders.raft 37 0).state = .stateLeader ∧
      (twoLeaders.raft 12 0).currentTerm = (twoLeaders.raft 37 0).currentTerm := by
    decide +kernel
  ⟨h, election_safety h.1 h.2.1 h.2.2⟩

/-! ## Logs -/

/-- Logs with entries of one term at one place are the same up to there. -/
theorem log_agree {i : ℕ} {a b : Log C} (ha : (σ.raft t p).log[i]? = some a)
    (hb : (σ.raft u q).log[i]? = some b) (hab : a.term = b.term) :
    (σ.raft t p).log.take (i + 1) = (σ.raft u q).log.take (i + 1) := by
  match n with
  | 0 => exact p.elim0
  | 1 =>
    obtain rfl : p = 0 := Subsingleton.elim _ _
    obtain rfl : q = 0 := Subsingleton.elim _ _
    have hlt := (List.getElem?_eq_some_iff.1 ha).1
    have hlt' := (List.getElem?_eq_some_iff.1 hb).1
    rcases le_total t u with htu | htu
    · exact Replog.take_prefix_take (σ.single_log_mono htu) hlt
    · exact (Replog.take_prefix_take (σ.single_log_mono htu) hlt').symm
  | n + 2 =>
    exact (σ.isRun (by omega) (max t u)).log_matching (le_max_left t u) (le_max_right t u) ha hb hab

theorem getElem?_of_log_agree {i : ℕ} {a b : Log C} (ha : (σ.raft t p).log[i]? = some a)
    (hb : (σ.raft u q).log[i]? = some b) (hab : a.term = b.term) {j : ℕ} (hj : j ≤ i) :
    (σ.raft t p).log[j]? = (σ.raft u q).log[j]? := by
  have h := congrArg (·[j]?) (log_agree ha hb hab)
  simpa [List.getElem?_take, Nat.lt_succ_of_le hj] using h

end Schedule

/-- A command taken by a leader is the next entry of its log. -/
theorem startReply_leader {s : Cluster n C} {p : Fin n} {command : Option C}
    {reply : Raft.StartReply} (h : s.startReply p command = some reply)
    (hl : reply.isLeader = true) :
    reply.index = (s.nodes p).raft.log.length ∧ reply.term = (s.nodes p).raft.currentTerm ∧
      ((s.exec (.start p command)).nodes p).raft.log = (s.nodes p).raft.log ++
        [⟨(s.nodes p).raft.currentTerm, command, (s.nodes p).raft.log.length⟩] := by
  unfold Cluster.startReply at h
  split_ifs at h with hr
  simp only [Cluster.exec, if_pos hr]
  by_cases hs : (s.nodes p).raft.state = .stateLeader
  · rw [Raft.handleStart_eq hs] at h ⊢
    cases hb : ((s.nodes p).raft.started command).bcastAppend with
    | error e => simp [hb, Except.map] at h
    | ok x =>
      rw [hb] at h
      simp only [Except.map, Option.some.injEq] at h
      subst h
      refine ⟨rfl, rfl, ?_⟩
      simp only [Except.map, Cluster.finish, Cluster.send, Cluster.setNode, Function.update_self,
        Raft.bcastAppend_raft hb]
      rfl
  · have : (s.nodes p).raft.handleStart command = .ok ((s.nodes p).raft, [], ⟨-1, -1, false⟩) :=
      if_pos hs
    rw [this] at h
    simp only [Option.some.injEq] at h
    simp [← h] at hl

namespace Schedule

variable {σ} {t u : ℕ} {p q : Fin n}

/-- Entries of one term at one place are one entry, and so is all that comes before; and a command
that a leader has taken is the only one at its index in its term. -/
theorem logs_match (σ : Schedule n C) :
    (∀ {t u : ℕ} {p q : Fin n} {i : ℕ} {a b : Log C}, (σ.raft t p).log[i]? = some a →
      (σ.raft u q).log[i]? = some b → a.term = b.term →
      ∀ j ≤ i, (σ.raft t p).log[j]? = (σ.raft u q).log[j]?) ∧
    ∀ {t : ℕ} {p : Fin n} {command : Option C} {reply : Raft.StartReply},
      σ.act t = .start p command → (σ.run t).startReply p command = some reply →
      reply.isLeader = true → ∃ i T : ℕ, reply.index = i ∧ reply.term = T ∧
        (σ.raft (t + 1) p).log[i]? = some ⟨T, command, i⟩ ∧
        ∀ {u : ℕ} {q : Fin n} {e : Log C}, (σ.raft u q).log[i]? = some e → e.term = T →
          e.command = command := by
  refine ⟨fun ha hb hab j hj => getElem?_of_log_agree ha hb hab hj,
    fun {t p command reply} hact hrep hl => ?_⟩
  obtain ⟨hi, hT, hlog⟩ := startReply_leader hrep hl
  rw [← hact] at hlog
  have hself : (σ.raft (t + 1) p).log[(σ.raft t p).log.length]? =
      some ⟨(σ.raft t p).currentTerm, command, (σ.raft t p).log.length⟩ := by
    rw [show (σ.raft (t + 1) p).log = _ from hlog]
    exact List.getElem?_concat_length
  refine ⟨_, _, hi, hT, hself, fun {u q e} he heT => ?_⟩
  have heq := (he.symm.trans (getElem?_of_log_agree he hself heT le_rfl)).trans hself
  rw [Option.some.inj heq]

theorem logs_match_twoLeaders :
    (twoLeaders.raft 37 0).log[1]? = (twoLeaders.raft 25 1).log[1]? ∧
      ∃ i T : ℕ, (1 : ℤ) = i ∧ (2 : ℤ) = T ∧
        (twoLeaders.raft 13 0).log[i]? = some ⟨T, some 7, i⟩ ∧
        ∀ {u : ℕ} {q : Fin 3} {e : Log ℕ}, (twoLeaders.raft u q).log[i]? = some e → e.term = T →
          e.command = some 7 := by
  obtain ⟨h1, h2⟩ : (twoLeaders.raft 37 0).log[1]? = some ⟨2, some 7, 1⟩ ∧
      (twoLeaders.raft 25 1).log[1]? = some ⟨2, some 7, 1⟩ := by decide +kernel
  have hrep : (twoLeaders.run 12).startReply 0 (some 7) = some ⟨1, 2, true⟩ := by decide +kernel
  exact ⟨twoLeaders.logs_match.1 h1 h2 rfl 1 le_rfl, twoLeaders.logs_match.2 rfl hrep rfl⟩

/-! ## Commitment -/

/-- What a leader takes for committed, every leader of a later term has. -/
theorem leader_completeness {i : ℕ} {e : Log C} (hp : (σ.raft t p).state = .stateLeader)
    (hi : i ≤ (σ.raft t p).commitIndex) (he : (σ.raft t p).log[i]? = some e)
    (hq : (σ.raft u q).state = .stateLeader)
    (hT : (σ.raft t p).currentTerm < (σ.raft u q).currentTerm) :
    (σ.raft u q).log[i]? = some e := by
  match n with
  | 0 => exact p.elim0
  | 1 =>
    obtain rfl : p = 0 := Subsingleton.elim _ _
    obtain rfl : q = 0 := Subsingleton.elim _ _
    have hzero : (σ.raft t 0).commitIndex = 0 := (σ.singleCluster t).ok.commitIndex
    obtain rfl : i = 0 := by omega
    rw [← he]
    exact (σ.singleCluster u).ok.base.trans (σ.singleCluster t).ok.base.symm
  | n + 2 =>
    have hle := (σ.isRun (by omega) (max t u)).committed_le_leader (le_max_left t u)
      (le_max_right t u) (leaderAt_history hq) (v := p) (.inl hT)
    refine Replog.getElem?_of_isPrefix hle ?_
    rw [List.getElem?_take_of_lt (by exact Nat.lt_succ_of_le hi)]
    exact he

theorem leader_completeness_twoLeaders :
    ((twoLeaders.raft 15 0).state = .stateLeader ∧ 1 ≤ (twoLeaders.raft 15 0).commitIndex ∧
      (twoLeaders.raft 15 0).log[1]? = some ⟨2, some 7, 1⟩ ∧
      (twoLeaders.raft 37 1).state = .stateLeader ∧
      (twoLeaders.raft 15 0).currentTerm < (twoLeaders.raft 37 1).currentTerm) ∧
      (twoLeaders.raft 37 1).log[1]? = some ⟨2, some 7, 1⟩ := by
  have h : (twoLeaders.raft 15 0).state = .stateLeader ∧ 1 ≤ (twoLeaders.raft 15 0).commitIndex ∧
      (twoLeaders.raft 15 0).log[1]? = some ⟨2, some 7, 1⟩ ∧
      (twoLeaders.raft 37 1).state = .stateLeader ∧
      (twoLeaders.raft 15 0).currentTerm < (twoLeaders.raft 37 1).currentTerm := by
    decide +kernel
  exact ⟨h, leader_completeness h.1 h.2.1 h.2.2.1 h.2.2.2.1 h.2.2.2.2⟩

theorem applied_agree (h2 : 2 ≤ n) {m m' : ApplyMsg C} (hm : Applied σ.history t p m)
    (hm' : Applied σ.history u q m') (hi : m.index = m'.index) : m.command = m'.command := by
  obtain ⟨w, hw, hc, e, he, hem⟩ := hm
  obtain ⟨w', hw', hc', e', he', hem'⟩ := hm'
  rw [← hi] at hc' he'
  have heq := (σ.isRun h2 (max w w')).committed_agree (le_max_left w w') (le_max_right w w') hc hc'
  rw [he, he', Option.some.injEq] at heq
  rw [← hem, ← hem', heq]

/-- A server that is alone applies nothing. -/
theorem two_le_of_applied {m : ApplyMsg C} (hm : m ∈ (σ.raft t p).applyCh) : 2 ≤ n := by
  match n with
  | 0 => exact p.elim0
  | 1 =>
    obtain rfl : p = 0 := Subsingleton.elim _ _
    have hnil : (σ.raft t 0).applyCh = [] := (σ.singleCluster t).ok.applyCh
    simp [hnil] at hm
  | n + 2 => omega

/-- What one server applies at an index, no server applies otherwise. -/
theorem state_machine_safety {m m' : ApplyMsg C} (hm : m ∈ (σ.raft t p).applyCh)
    (hm' : m' ∈ (σ.raft u q).applyCh) (hi : m.index = m'.index) : m.command = m'.command := by
  have h2 := two_le_of_applied hm
  exact applied_agree h2 ((σ.raftOk h2 t p).applier.applied m hm)
    ((σ.raftOk h2 u q).applier.applied m' hm') hi

theorem state_machine_safety_twoLeaders :
    (⟨1, some 7⟩ ∈ (twoLeaders.raft 17 0).applyCh ∧ ⟨1, some 7⟩ ∈ (twoLeaders.raft 25 1).applyCh) ∧
      (some 7 : Option ℕ) = some 7 := by
  have h : (⟨1, some 7⟩ : ApplyMsg ℕ) ∈ (twoLeaders.raft 17 0).applyCh ∧
      (⟨1, some 7⟩ : ApplyMsg ℕ) ∈ (twoLeaders.raft 25 1).applyCh := by
    decide +kernel
  exact ⟨h, state_machine_safety h.1 h.2 rfl⟩

/-- What a leader records a follower as matching, the follower has for as long as it stays in the
leader's term. -/
theorem matched_agree {f : Fin n} (hf : f ≠ p) (hp : (σ.raft t p).state = .stateLeader)
    (htu : t ≤ u) (hT : (σ.raft u f).currentTerm = (σ.raft t p).currentTerm) :
    (σ.raft t p).matchIndex f < (σ.raft t p).log.length ∧
      ∀ j ≤ (σ.raft t p).matchIndex f, (σ.raft u f).log[j]? = (σ.raft t p).log[j]? := by
  match n with
  | 0 => exact p.elim0
  | 1 => exact absurd (Subsingleton.elim f p) hf
  | n + 2 =>
    have h2 : 2 ≤ n + 2 := by omega
    have hrun := σ.isRun h2 u
    have hprog := (σ.raftOk h2 t p).leader hp
    have hlt := hprog.matched_lt f
    -- the part of the leader's log that is matched is still at the front of the follower's
    have hpre : (σ.raft t p).log.take ((σ.raft t p).matchIndex f + 1) <+: (σ.raft u f).log := by
      rcases hprog.matched f with h0 | ⟨w, hw, hwT, hpre⟩
      · have hbase := List.prefix_iff_eq_take.1 (hrun.base_le_log htu p)
        rw [h0]
        exact hbase ▸ hrun.base_le_log le_rfl f
      · exact hrun.held (hw.trans htu) le_rfl
          ⟨t, htu, p, leaderAt_history hp, List.take_prefix _ _⟩ hwT hpre
          fun v hv l T' _ h1 h3 => absurd (h3.trans_eq hT) (Nat.not_le.2 h1)
    refine ⟨hlt, fun j hj => ?_⟩
    have hget := List.getElem?_eq_getElem (show j < (σ.raft t p).log.length from hj.trans_lt hlt)
    refine (Replog.getElem?_of_isPrefix hpre ?_).trans hget.symm
    rw [List.getElem?_take_of_lt (Nat.lt_succ_of_le hj)]
    exact hget

end Schedule

end DistSystem
