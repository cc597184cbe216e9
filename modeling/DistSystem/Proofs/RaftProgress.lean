import DistSystem.Proofs.RaftDurable
import DistSystem.Proofs.RaftLead
import Mathlib.Order.Bounds.Basic

/-!
# What a leader records of the others

The commit rule is applied whenever it could apply, but in `Start` of a leader that is its own
quorum. A follower's indices stay in order and only go up, until a rejection comes in that is older
than a success.
-/

namespace DistSystem

variable {n : ℕ} {C : Type}

/-! ## The commit rule -/

/-- An index that the commit rule allows to commit. -/
def Raft.Committable (r : Raft n C) (N : ℕ) : Prop :=
  r.commitIndex < N ∧ (∃ e, r.log[N]? = some e ∧ e.term = r.currentTerm) ∧
    r.quorum ≤ (Finset.univ.filter fun i => N ≤ r.matchIndex i).card

/-- A leader `p` holds all entries of its term, and has committed what it may. -/
structure CommitRule (p : Fin n) (r : Raft n C) : Prop where
  own : ∀ {i e}, r.log[i]? = some e → e.term = r.currentTerm → i ≤ r.matchIndex p
  applied : ∀ N, ¬ r.Committable N

theorem CommitRule.same {p : Fin n} {r r' : Raft n C} (h : CommitRule p r)
    (hs : SameProgress r r') : CommitRule p r' := by
  refine ⟨fun {i e} he hT => ?_, fun N hN => h.applied N ?_⟩
  · rw [hs.log] at he
    rw [hs.currentTerm] at hT
    rw [hs.matchIndex]
    exact h.own he hT
  · unfold Raft.Committable at hN
    rwa [hs.commitIndex, hs.log, hs.currentTerm, hs.matchIndex] at hN

/-- Nothing is matched at the start. -/
theorem CommitRule.leadership {p : Fin n} {r : Raft n C} (hw : LogWf r.log)
    (hno : ∀ {i : ℕ} {e : Log C}, r.log[i]? = some e → e.term ≠ r.currentTerm) (rnd : ℕ) :
    CommitRule p (r.leadership rnd) := by
  refine ⟨fun {i e} he hT => ?_, fun N hN => ?_⟩
  · rw [Raft.leadership_log hw] at he
    exact absurd (hT.trans (r.reset_currentTerm rnd _)) (hno he)
  · obtain ⟨hlt, -, hcard⟩ := hN
    have hzero : (Finset.univ.filter fun i => N ≤ (r.leadership rnd).matchIndex i) = ∅ :=
      Finset.filter_eq_empty_iff.2 fun i _ hi => by
        have : N ≤ 0 := hi
        omega
    rw [hzero] at hcard
    simp [Raft.quorum] at hcard

/-- A new command is matched by the leader only, and this one has its earlier ones. -/
theorem CommitRule.started (h2 : 2 ≤ n) {r : Raft n C} (h : CommitRule r.me r)
    (hm : ∀ i, r.matchIndex i < r.log.length) (command : Option C) :
    CommitRule r.me (r.started command) := by
  have hself : (r.started command).matchIndex r.me = r.log.length := Function.update_self _ _ _
  have hother : ∀ {i}, i ≠ r.me → (r.started command).matchIndex i = r.matchIndex i :=
    fun hi => Function.update_of_ne hi _ _
  refine ⟨fun {i e} he _ => ?_, fun N hN => ?_⟩
  · have hlt := (List.getElem?_eq_some_iff.1 he).1
    simp only [Raft.started, List.length_append, List.length_singleton] at hlt
    rw [hself]
    omega
  · obtain ⟨hlt, ⟨e, he, hT⟩, hcard⟩ := hN
    have hlen := (List.getElem?_eq_some_iff.1 he).1
    simp only [Raft.started, List.length_append, List.length_singleton] at hlen
    rcases Nat.lt_or_ge N r.log.length with hold | hnew
    · -- the leader was counted before
      have he' : r.log[N]? = some e := by
        rwa [Raft.started, List.getElem?_append_left hold] at he
      refine h.applied N ⟨hlt, ⟨e, he', hT⟩, hcard.trans (Finset.card_le_card fun i hi => ?_)⟩
      simp only [Finset.mem_filter, Finset.mem_univ, true_and] at hi ⊢
      by_cases hme : i = r.me
      · subst hme
        exact h.own he' hT
      · rwa [hother hme] at hi
    · -- nobody else has it
      have hle : (Finset.univ.filter fun i => N ≤ (r.started command).matchIndex i).card ≤ 1 := by
        refine (Finset.card_le_card fun i hi => ?_).trans (Finset.card_singleton r.me).le
        simp only [Finset.mem_filter, Finset.mem_univ, true_and] at hi
        by_contra hne
        rw [hother (fun heq => hne (Finset.mem_singleton.2 heq))] at hi
        have := hm i
        omega
      simp only [Raft.quorum] at hcard
      omega

/-- The one candidate that `updateCommitIndex` looks at decides for all of them. -/
theorem Raft.updateCommitIndex_cases {r : Raft n C} (hn : 0 < n)
    (hm : ∀ i, r.matchIndex i < r.log.length) (hlast : ∀ i, r.matchIndex i ≤ r.lastIndex)
    (hs : ∀ {i j : ℕ} {a b : Log C}, i ≤ j → r.log[i]? = some a → r.log[j]? = some b →
      a.term ≤ b.term)
    (hT : ∀ e ∈ r.log, e.term ≤ r.currentTerm) :
    (∃ N, IsGreatest {N | r.Committable N} N ∧
        r.updateCommitIndex = .ok { r with commitIndex := N, commitc := some N }) ∨
      (∀ N, ¬ r.Committable N) ∧ r.updateCommitIndex = .ok r := by
  obtain ⟨mci, e, hcount, he, heq⟩ := updateCommitIndex_eq hm hlast hn
  split_ifs at heq with hc
  · exact .inl ⟨mci, ⟨⟨hc.1, ⟨e, he, hc.2⟩, (hcount mci).2 le_rfl⟩,
      fun N hN => (hcount N).1 hN.2.2⟩, heq⟩
  · refine .inr ⟨?_, heq⟩
    rintro N ⟨hlt, ⟨e', he', hT'⟩, hcard⟩
    have hle : N ≤ mci := (hcount N).1 hcard
    -- then the entry at `mci` is of this term too
    have hge := hs hle he' he
    have := hT e (List.mem_of_getElem? he)
    exact hc ⟨by omega, by omega⟩

/-- `updateCommitIndex` commits the largest index that the commit rule allows, if there is one, and
leaves the server as it is if there is none. -/
theorem Raft.updateCommitIndex_greatest (r : Raft n C) (hn : 0 < n)
    (hm : ∀ i, r.matchIndex i < r.log.length ∧ r.matchIndex i ≤ r.lastIndex)
    (hs : (r.log.map Log.term).Pairwise (· ≤ ·)) (hT : ∀ e ∈ r.log, e.term ≤ r.currentTerm) :
    ∃ r', r.updateCommitIndex = .ok r' ∧
      ((∃ N, r.Committable N) → IsGreatest {N | r.Committable N} r'.commitIndex ∧
        r' = { r with commitIndex := r'.commitIndex, commitc := some r'.commitIndex }) ∧
      ((∀ N, ¬ r.Committable N) → r' = r) := by
  rcases updateCommitIndex_cases hn (fun i => (hm i).1) (fun i => (hm i).2)
    (fun hij ha hb => Replog.le_of_pairwise_map hs hij ha hb) hT with ⟨N, hN, heq⟩ | ⟨hno, heq⟩
  · exact ⟨_, heq, fun _ => ⟨hN, rfl⟩, fun hno => absurd hN.1 (hno N)⟩
  · exact ⟨r, heq, fun ⟨N, hN⟩ => absurd hN (hno N), fun _ => rfl⟩

/-- A leader of three that matches its whole log with one other. -/
def matchedByTwo : Raft 3 ℕ :=
  { Raft.zero s₀ none with
    state := .stateLeader
    currentTerm := 2
    log := [Raft.sentinel, ⟨1, some 7, 1⟩, ⟨2, some 8, 2⟩]
    matchIndex := fun i => if i = s₂ then 0 else 2 }

theorem Raft.updateCommitIndex_matchedByTwo :
    matchedByTwo.Committable 2 ∧
      ∃ r', matchedByTwo.updateCommitIndex = .ok r' ∧ r'.commitIndex = 2 := by
  have h2 : matchedByTwo.Committable 2 := ⟨by decide, ⟨⟨2, some 8, 2⟩, rfl, rfl⟩, by decide⟩
  obtain ⟨r', hr, hN, -⟩ := matchedByTwo.updateCommitIndex_greatest (by decide) (by decide)
    (by decide) (by decide)
  obtain ⟨⟨-, ⟨e, he, -⟩, -⟩, hmax⟩ := (hN ⟨2, h2⟩).1
  have hle : 2 ≤ r'.commitIndex := hmax h2
  have hlt : r'.commitIndex < 3 := (List.getElem?_eq_some_iff.1 he).1
  exact ⟨h2, r', hr, by omega⟩

/-- `updateCommitIndex` leaves nothing to commit. -/
theorem Raft.updateCommitIndex_committable {r r' : Raft n C} (hn : 0 < n) (hw : r.WellFormed)
    (hT : ∀ e ∈ r.log, e.term ≤ r.currentTerm) (hm : ∀ i, r.matchIndex i < r.log.length)
    (h : r.updateCommitIndex = .ok r') (N : ℕ) : ¬ r'.Committable N := by
  rcases updateCommitIndex_cases hn hm (le_lastIndex hw.log hm) hw.terms hT with
    ⟨M, hM, heq⟩ | ⟨hno, heq⟩
  · obtain rfl := Except.ok.inj (h.symm.trans heq)
    rintro ⟨hlt, he, hcard⟩
    have hlt' : M < N := hlt
    have hle : N ≤ M := hM.2 ⟨hM.1.1.trans hlt', he, hcard⟩
    omega
  · obtain rfl := Except.ok.inj (h.symm.trans heq)
    exact hno N

theorem CommitRule.accepted (hn : 0 < n) {r r' : Raft n C} (h : CommitRule r.me r)
    (hw : r.WellFormed) (hT : ∀ e ∈ r.log, e.term ≤ r.currentTerm)
    (hm : ∀ i, r.matchIndex i < r.log.length) {src : Fin n} (hsrc : src ≠ r.me) {next : ℕ}
    (hpos : 1 ≤ next) (hle : next ≤ r.log.length)
    (hup : (r.accepted src next).updateCommitIndex = .ok r') : CommitRule r.me r' := by
  have hw' : (r.accepted src next).WellFormed :=
    ⟨hw.log, hw.base, hw.terms, hw.last, hw.applied, hw.committed⟩
  have hm' : ∀ i, (r.accepted src next).matchIndex i < (r.accepted src next).log.length := by
    intro i
    by_cases hi : i = src
    · subst hi
      simp only [Raft.accepted, Function.update_self]
      omega
    · simp only [Raft.accepted, Function.update_of_ne hi]
      exact hm i
  refine ⟨fun {i e} he heT => ?_, Raft.updateCommitIndex_committable hn hw' hT hm' hup⟩
  have hme : (r.accepted src next).matchIndex r.me = r.matchIndex r.me :=
    Function.update_of_ne hsrc.symm _ _
  obtain ⟨c, cc, rfl⟩ := Raft.updateCommitIndex_fields hup
  exact hme.symm ▸ h.own he heT

namespace Schedule

variable {σ : Schedule n C}

theorem commitRule (h2 : 2 ≤ n) (p : Fin n) :
    ∀ t, (σ.raft t p).state = .stateLeader → CommitRule p (σ.raft t p)
  | 0, hs => by cases hs
  | t + 1, hs => by
    have ih := commitRule h2 p t
    have hok := σ.raftOk h2 t p
    have hme := hok.me
    have hT : ∀ e ∈ (σ.raft t p).log, e.term ≤ (σ.raft t p).currentTerm :=
      fun e he => (σ.isRun h2 t).termOf_le le_rfl he
    obtain ⟨m, hstep, -⟩ := leads h2 hs
    cases hstep with
    | keep hs h => exact (ih hs).same h
    | start hs h =>
      have hstart := CommitRule.started h2 (hme.symm ▸ ih hs) (hok.leader hs).matched_lt
      rw [hme] at hstart
      exact (hstart _).same h
    | @elected rnd hs' h =>
      -- nobody has led this term before
      have hcand : Replog.CandidateAt σ.history t p (σ.raft t p).currentTerm :=
        ⟨RaftState.role_eq_candidate.2 hs', rfl⟩
      have hlead : Replog.LeaderAt σ.history (t + 1) p (σ.raft t p).currentTerm :=
        h.currentTerm.trans ((σ.raft t p).reset_currentTerm rnd _) ▸ leaderAt_history hs
      refine (CommitRule.leadership hok.wf (fun he => ?_) _).same h
      exact (σ.isRun h2 (t + 1)).elected_termOf_ne le_rfl (Nat.lt_succ_self t) hlead hcand he
    | accepted hs hsrc hpos hle _ hup h =>
      have hacc := CommitRule.accepted (by omega) (hme.symm ▸ ih hs) (raft_wellFormed h2 t p) hT
        (hok.leader hs).matched_lt hsrc hpos hle hup
      rw [hme] at hacc
      exact hacc.same h
    | rejected hs _ _ _ _ _ _ _ h =>
      exact CommitRule.same (r := (σ.raft t p).rejected _ _) ⟨(ih hs).own, (ih hs).applied⟩ h

theorem single_log {σ : Schedule 1 C} (hno : ∀ t, ¬ LoneStart (σ.run t) (σ.act t)) :
    ∀ t, (σ.raft t 0).log = [Raft.sentinel]
  | 0 => rfl
  | t + 1 => by
    have ih := single_log hno t
    have hok : SingleOk (σ.raft t 0) := (σ.singleCluster t).ok
    cases σ.singleStep t with
    | keep h | heartbeat _ h => exact h.log.trans ih
    | @elect _ rnd h => rw [h, Raft.elected_log hok.wf, ih]
    | start hc => exact absurd hc (hno t)
    | @restart rnd h => rw [h, (make_single hok 0 rnd).2, ih]

/-- A leader that is its own quorum does not commit what it starts. -/
theorem single_start_committable {σ : Schedule 1 C} {t : ℕ}
    (hc : LoneStart (σ.run t) (σ.act t)) : (σ.raft (t + 1) 0).state = .stateLeader ∧
      (σ.raft (t + 1) 0).Committable (σ.raft t 0).log.length := by
  have hok : SingleOk (σ.raft t 0) := (σ.singleCluster t).ok
  cases hact : σ.act t with
  | start p command =>
    rw [hact] at hc
    obtain rfl : p = 0 := Subsingleton.elim _ _
    obtain ⟨hr, -, hs⟩ := hc
    have hself : σ.raft (t + 1) 0 = ((σ.raft t 0).started command).persist := by
      have hx := Raft.handleStart_leader hs
        (Raft.bcastAppend_single (((σ.run t).nodes 0).raft.started command))
      unfold raft
      rw [run, hact, Cluster.exec, if_pos hr]
      exact (Changes.finish_ok (by rw [hx]; rfl) _ _ _).self
    rw [hself]
    refine ⟨hs, ?_, ⟨_, List.getElem?_concat_length, rfl⟩, ?_⟩
    · have hzero : ((σ.raft t 0).started command).persist.commitIndex = 0 := hok.commitIndex
      rw [hzero]
      exact List.length_pos_iff.2 hok.wf.ne
    · have hmem : (0 : Fin 1) ∈ Finset.univ.filter fun i : Fin 1 => (σ.raft t 0).log.length ≤
          ((σ.raft t 0).started command).persist.matchIndex i := by
        simp [Raft.persist, Raft.started, Subsingleton.elim (σ.raft t 0).me 0]
      exact Finset.card_pos.2 ⟨0, hmem⟩
  | _ =>
    rw [hact] at hc
    exact hc.elim

theorem not_loneStart (h2 : 2 ≤ n) (s : Cluster n C) (a : Action n C) : ¬ LoneStart s a := by
  intro h
  cases a with
  | start p command =>
    have hq := h.2.1
    simp only [Raft.quorum] at hq
    omega
  | _ => exact h.elim

/-- No leader of a run is ever left with an index that the commit rule allows to commit, just when
no leader that is its own quorum takes a command in the run. -/
theorem commit_rule_iff (σ : Schedule n C) :
    (∀ t p, (σ.raft t p).state = .stateLeader → ∀ N, ¬ (σ.raft t p).Committable N) ↔
      ∀ t, ¬ LoneStart (σ.run t) (σ.act t) := by
  match n with
  | 0 =>
    refine ⟨fun _ t hc => ?_, fun _ t p => p.elim0⟩
    cases hact : σ.act t with
    | start p command => exact p.elim0
    | _ =>
      rw [hact] at hc
      exact hc.elim
  | 1 =>
    refine ⟨fun h t hc => ?_, fun hno t p _ N hN => ?_⟩
    · obtain ⟨hs, hN⟩ := single_start_committable hc
      exact h (t + 1) 0 hs _ hN
    · obtain rfl : p = 0 := Subsingleton.elim _ _
      obtain ⟨hlt, ⟨e, he, -⟩, -⟩ := hN
      rw [single_log hno t] at he
      have := (List.getElem?_eq_some_iff.1 he).1
      simp only [List.length_singleton] at this
      omega
  | n + 2 =>
    have h2 : 2 ≤ n + 2 := by omega
    exact ⟨fun _ t => not_loneStart h2 _ _, fun _ t p hs => (commitRule h2 p t hs).applied⟩

end Schedule

/-- A server alone that elects itself and takes a command. -/
def loneCommand : Schedule 1 ℕ := .ofList (ticks lone 10 ++ [.start lone (some 7)])

/-- The command is in the log of a quorum and not committed, nor will it be. -/
theorem loneCommand_uncommitted :
    (loneCommand.raft 11 lone).state = .stateLeader ∧ (loneCommand.raft 11 lone).Committable 1 ∧
      ∀ t, (loneCommand.raft t lone).commitIndex = 0 := by
  refine ⟨by decide +kernel, ⟨by decide +kernel, ⟨⟨2, some 7, 1⟩, by decide +kernel⟩,
    by decide +kernel⟩, fun t => (loneCommand.singleCluster t).ok.commitIndex⟩

/-! ## Progress -/

/-- The indices of the follower `f` are in order. -/
def Raft.Ordered (r : Raft n C) (f : Fin n) : Prop :=
  1 ≤ r.matchIndex f + 1 ∧ r.matchIndex f + 1 ≤ r.nextIndex f ∧ r.nextIndex f ≤ r.lastIndex + 1

/-- A rejection of the leader's term, not past the end of its log, that gives a next index below
what its sender is known to match. -/
def LateRejection (r : Raft n C) : Message n C → Prop
  | .msgAppResp src _ args reply =>
    r.state = .stateLeader ∧ reply.term = r.currentTerm ∧ reply.success = false ∧
      args.prevLogIndex ≤ r.lastIndex + 1 ∧ reply.nextIndex ≤ r.matchIndex src
  | .msgVote _ _ => False
  | .msgApp _ _ => False
  | .msgVoteResp _ _ _ _ => False

/-- What a step does to the indices of a follower, if it is no late rejection. -/
theorem LeaderStep.progress {m : Option (Message n C)} {r r' : Raft n C}
    (h : LeaderStep m r r') (hw : LogWf r.log) {f : Fin n} (hf : f ≠ r.me)
    (hlate : ∀ x ∈ m, ¬ LateRejection r x)
    (ih : r.state = .stateLeader → r.matchIndex f + 1 ≤ r.nextIndex f) :
    r'.matchIndex f + 1 ≤ r'.nextIndex f ∧
      (r.state = .stateLeader → r.matchIndex f ≤ r'.matchIndex f) := by
  cases h with
  | keep hs h =>
    rw [h.matchIndex, h.nextIndex]
    exact ⟨ih hs, fun _ => le_rfl⟩
  | start hs h =>
    rw [h.matchIndex, h.nextIndex]
    simp only [Raft.started, Function.update_of_ne hf]
    exact ⟨ih hs, fun _ => le_rfl⟩
  | elected hs h =>
    rw [h.matchIndex, h.nextIndex]
    refine ⟨List.length_pos_iff.2 hw.ne, fun hl => ?_⟩
    rw [hs] at hl
    cases hl
  | @accepted src next r₁ hs _ hpos _ hnext hup h =>
    obtain ⟨c, cc, rfl⟩ := Raft.updateCommitIndex_fields hup
    rw [h.matchIndex, h.nextIndex]
    simp only [Raft.accepted]
    have hle := ih hs
    by_cases hfs : f = src
    · subst hfs
      rw [Function.update_self, Function.update_self]
      exact ⟨by omega, fun _ => by omega⟩
    · rw [Function.update_of_ne hfs, Function.update_of_ne hfs]
      exact ⟨hle, fun _ => le_rfl⟩
  | @rejected src dst args reply hs hx hsrc hT hsu hpos hle hprev h =>
    rw [h.matchIndex, h.nextIndex]
    simp only [Raft.rejected]
    refine ⟨?_, fun _ => le_rfl⟩
    by_cases hfs : f = src
    · subst hfs
      rw [Function.update_self]
      by_contra hlt
      exact hlate _ hx ⟨hs, hT, hsu, hprev, by omega⟩
    · rw [Function.update_of_ne hfs]
      exact ih hs

theorem step_rejected {τ : History n C} {t : ℕ} {p : Fin n} {r : Raft n C}
    (hrun : Replog.Run (protocol n C) τ t) (hr : τ t p = r.abs) (hok : RaftOk τ t p r)
    (hs : r.state = .stateLeader) {src dst : Fin n} {args : AppendEntiesArgs n C}
    {reply : AppendEntiesReply} (hm : MessageOk τ t (.msgAppResp src dst args reply))
    (hT : reply.term = r.currentTerm) (hsu : reply.success = false)
    (hprev : args.prevLogIndex ≤ r.lastIndex + 1) (rnd : ℕ) :
    r.step rnd (.msgAppResp src dst args reply) =
      .ok ((r.rejected src reply.nextIndex).persist, []) := by
  obtain ⟨-, hreq, ha⟩ := hm
  have hlast := Raft.lastIndex_eq hok.wf
  have ha := answered_of_term hrun hr ha hT
  obtain ⟨hlen, -⟩ := answered_next hrun hr hs hreq ha hT
  refine (Raft.step_ok_iff (m := .msgAppResp src dst args reply) hT).2
    ⟨r.rejected src reply.nextIndex, ?_, rfl⟩
  rw [Raft.stepState_leader hs, Raft.stepLeader,
    Raft.handleAppResp_reject hok.wf hsu hlen ha.conflict (by omega)]
  rfl

namespace Schedule

variable {σ : Schedule n C}

theorem matchIndex_lt_nextIndex (h2 : 2 ≤ n)
    (hno : ∀ t p m, Handles (σ.run t) (σ.act t) p m → ¬ LateRejection (σ.raft t p) m)
    {p f : Fin n} (hf : f ≠ p) :
    ∀ t, (σ.raft t p).state = .stateLeader →
      (σ.raft t p).matchIndex f + 1 ≤ (σ.raft t p).nextIndex f
  | 0, hs => by cases hs
  | t + 1, hs => by
    have hok := σ.raftOk h2 t p
    obtain ⟨m, hstep, hm⟩ := leads h2 hs
    exact (hstep.progress hok.wf (hok.me.symm ▸ hf) (fun x hx => hno t p x (hm x hx))
      (matchIndex_lt_nextIndex h2 hno hf t)).1

theorem matchIndex_mono (h2 : 2 ≤ n)
    (hno : ∀ t p m, Handles (σ.run t) (σ.act t) p m → ¬ LateRejection (σ.raft t p) m)
    {p f : Fin n} (hf : f ≠ p) {t u : ℕ} (htu : t ≤ u)
    (hs : ∀ v, t ≤ v → v ≤ u → (σ.raft v p).state = .stateLeader) :
    (σ.raft t p).matchIndex f ≤ (σ.raft u p).matchIndex f := by
  induction u, htu using Nat.le_induction with
  | base => exact le_rfl
  | succ u htu ih =>
    have hok := σ.raftOk h2 u p
    obtain ⟨m, hstep, hm⟩ := leads h2 (hs (u + 1) (by omega) le_rfl)
    have hup := (hstep.progress hok.wf (hok.me.symm ▸ hf) (fun x hx => hno u p x (hm x hx))
      (matchIndex_lt_nextIndex h2 hno hf u)).2 (hs u htu (by omega))
    exact (ih fun v hv hvu => hs v hv (by omega)).trans hup

/-- A late rejection puts the indices of its sender out of order. -/
theorem lateRejection_disorders (h2 : 2 ≤ n) {t : ℕ} {p : Fin n} {m : Message n C}
    (hm : Handles (σ.run t) (σ.act t) p m) (hlate : LateRejection (σ.raft t p) m) :
    ∃ f ≠ p, (σ.raft (t + 1) p).state = .stateLeader ∧ ¬ (σ.raft (t + 1) p).Ordered f := by
  have h := σ.clusterOk h2 t
  obtain ⟨k, rnd, pk, hact, hk, hd, rfl, hmsg⟩ := hm
  have hmem := List.mem_of_getElem? hk
  have hmok := h.net pk hmem
  have hf := foreign h2 t pk hmem
  cases m with
  | msgVote | msgApp | msgVoteResp => exact hlate.elim
  | msgAppResp src dst args reply =>
    obtain ⟨hs, hT, hsu, hprev, hle⟩ := hlate
    have hx := step_rejected h.run (h.abs _) (h.ok _) hs (hmsg ▸ hmok) hT hsu hprev rnd
    rw [← hmsg] at hx
    have hself : σ.raft (t + 1) pk.msg.dst =
        ((σ.raft t pk.msg.dst).rejected src reply.nextIndex).persist := by
      unfold raft
      rw [run, hact]
      simp only [Cluster.exec, hk, if_pos hd]
      exact (Changes.finish_ok hx _ _ _).self
    have hsrc : src ≠ pk.msg.dst := by
      rw [hmsg] at hf ⊢
      exact hf
    refine ⟨src, hsrc, ?_, fun hord => ?_⟩
    · rw [hself]
      exact hs
    · rw [hself] at hord
      have hlt := hord.2.1
      simp only [Raft.persist, Raft.rejected, Function.update_self] at hlt
      omega

/-- The indices of every follower of every leader of a run are in order, and what a follower is
known to match does not shrink while the leader leads, just when the run has no late rejection. -/
theorem progress_iff (σ : Schedule n C) :
    (∀ p f, f ≠ p →
      (∀ t, (σ.raft t p).state = .stateLeader → (σ.raft t p).Ordered f) ∧
      ∀ t u, t ≤ u → (∀ v, t ≤ v → v ≤ u → (σ.raft v p).state = .stateLeader) →
        (σ.raft t p).matchIndex f ≤ (σ.raft u p).matchIndex f) ↔
      ∀ t p m, Handles (σ.run t) (σ.act t) p m → ¬ LateRejection (σ.raft t p) m := by
  match n with
  | 0 => exact ⟨fun _ t p => p.elim0, fun _ p => p.elim0⟩
  | 1 =>
    refine ⟨fun _ t p m hm => ?_, fun _ p f hf => absurd (Subsingleton.elim f p) hf⟩
    obtain ⟨k, rnd, pk, -, hk, -⟩ := hm
    simp [(σ.singleCluster t).net] at hk
  | n + 2 =>
    have h2 : 2 ≤ n + 2 := by omega
    refine ⟨fun h t p m hm hlate => ?_, fun hno p f hf => ⟨fun t hs => ?_, fun t u htu hs =>
      matchIndex_mono h2 hno hf htu hs⟩⟩
    · obtain ⟨f, hf, hs, hord⟩ := lateRejection_disorders h2 hm hlate
      exact hord ((h p f hf).1 (t + 1) hs)
    · have hok := σ.raftOk h2 t p
      have hlast := Raft.lastIndex_eq hok.wf
      have := (hok.leader hs).next f
      exact ⟨by omega, matchIndex_lt_nextIndex h2 hno hf t hs, by omega⟩

end Schedule

/-- The leader of two servers. -/
def p₀ : Fin 2 := ⟨0, Nat.zero_lt_two⟩

/-- Its follower. -/
def p₁ : Fin 2 := ⟨1, Nat.one_lt_two⟩

/-- A run in which server 0 leads term 2, starts a command that is lost, and leads term 3 after a
restart. Server 1 refuses two requests that come after that command; on the second refusal it is
sent the command, twice, and then a second command. Last come the first refusal and the answer to
the repeated request. -/
def crossedAnswers : Schedule 2 ℕ :=
  .ofList <| List.flatten
    [ticks p₀ 10, [.deliver 0 0, .deliver 0 0, .drop 0, .start p₀ (some 7), .drop 0, .crash p₀,
      .restart p₀ 0], ticks p₀ 10, [.deliver 0 0, .deliver 0 0], ticks p₀ 5,
      [.deliver 0 0, .deliver 0 0, .deliver 1 0], ticks p₀ 10,
      [.deliver 1 0, .deliver 1 0, .deliver 1 0, .start p₀ (some 8), .deliver 2 0, .deliver 2 0,
      .stateMachine p₀, .deliver 0 0, .deliver 0 0]]

/-- The first refusal puts the next index below what is matched, and the answer then takes back an
entry that is committed. -/
theorem crossedAnswers_disorder :
    (∀ t, 54 ≤ t → t ≤ 56 → (crossedAnswers.raft t p₀).state = .stateLeader ∧
      (crossedAnswers.raft t p₀).currentTerm = 3) ∧
    (crossedAnswers.raft 54 p₀).matchIndex p₁ = 2 ∧
    ¬ (crossedAnswers.raft 55 p₀).Ordered p₁ ∧
    (crossedAnswers.raft 56 p₀).commitIndex = 2 ∧
    ¬ (crossedAnswers.raft 54 p₀).matchIndex p₁ ≤ (crossedAnswers.raft 56 p₀).matchIndex p₁ := by
  refine ⟨fun t h1 h2 => ?_, by decide +kernel, fun h => ?_, by decide +kernel, by decide +kernel⟩
  · have hall : ∀ t < 57, 54 ≤ t → (crossedAnswers.raft t p₀).state = .stateLeader ∧
        (crossedAnswers.raft t p₀).currentTerm = 3 := by
      decide +kernel
    exact hall t (by omega) h1
  · exact absurd h.2.1 (by decide +kernel)

end DistSystem
