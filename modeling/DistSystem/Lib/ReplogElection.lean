import DistSystem.Lib.Replog
import Mathlib.Tactic.Cases
import Mathlib.Order.Lattice

/-!
# Terms, votes and leaders

A replica's term only grows and its vote within a term stays, so two quorums that elect in one
term meet in a replica that voted for both winners (`leader_unique`). A candidate's log stays
while it is one, and a leader's only grows; nobody leads a term before its election.
-/

namespace Replog

variable {V E : Type*} {P : Protocol V E} {τ : ℕ → V → Replica V E} {N : ℕ}

namespace Replica

variable (s : Replica V E) (T : ℕ)

@[simp] theorem enter_log : (s.enter T).log = s.log := by
  unfold enter; split_ifs <;> rfl

@[simp] theorem enter_commit : (s.enter T).commit = s.commit := by
  unfold enter; split_ifs <;> rfl

@[simp] theorem enter_term : (s.enter T).term = max s.term T := by
  unfold enter; split_ifs <;> simp <;> omega

theorem enter_of_lt {s : Replica V E} {T : ℕ} (h : s.term < T) :
    s.enter T = { s with term := T, vote := none, role := .follower } := by
  simp [enter, h]

theorem enter_of_le {s : Replica V E} {T : ℕ} (h : T ≤ s.term) : s.enter T = s := by
  simp [enter, Nat.not_lt.2 h]

end Replica

theorem Protocol.upToDate_refl (P : Protocol V E) (l : List E) : P.UpToDate l l :=
  .inr ⟨rfl, le_rfl⟩

theorem Move.term_le {t : ℕ} {v : V} {s : Replica V E} (h : Move P τ t v s) :
    (τ t v).term ≤ s.term := by
  cases h <;> simp

theorem Move.vote_of_term {t : ℕ} {v c : V} {s : Replica V E} (h : Move P τ t v s)
    (hs : s.term = (τ t v).term) (hc : (τ t v).vote = some c) : s.vote = some c := by
  cases h with
  | quiet | retire | stepDown | elect | propose | advance => exact hc
  | observe h => simp at hs; omega
  | campaign => simp at hs
  | grant hT hr hv =>
    simp only [Replica.enter_term] at hs
    rw [Replica.enter_of_le (by omega), hc] at hv
    simpa [eq_comm] using hv
  | accept hT =>
    simp only [Replica.enter_term] at hs
    rw [Replica.enter_of_le (by omega)]
    exact hc

/-- A replica that is a candidate after a move was one before, in the same state, or has just
raised its term and voted for itself. -/
theorem Move.candidate_cases {t : ℕ} {v : V} {s : Replica V E} (h : Move P τ t v s)
    (hs : s.role = .candidate) :
    s = τ t v ∨ (s.log = (τ t v).log ∧ s.term = (τ t v).term + 1 ∧ s.vote = some v) := by
  cases h with
  | quiet => exact .inl rfl
  | campaign => exact .inr ⟨rfl, rfl, rfl⟩
  | observe h => simp [Replica.enter_of_lt h] at hs
  | grant hT hr => simp [hr] at hs
  | advance hr => simp [hr] at hs
  | propose hr => simp [hr] at hs
  | _ => simp at hs

/-- A replica that leads after a move led before, in the same term with a log that extends, or
was a candidate a quorum voted for. -/
theorem Move.leader_cases {t : ℕ} {v : V} {s : Replica V E} (h : Move P τ t v s)
    (hs : s.role = .leader) :
    ((τ t v).role = .leader ∧ s.term = (τ t v).term ∧ (τ t v).log <+: s.log) ∨
      ((τ t v).role = .candidate ∧ s.term = (τ t v).term ∧ s.log = (τ t v).log ∧
        ∃ Q ∈ P.quorum, ∀ p ∈ Q, ∃ u ≤ t, (τ u p).term = (τ t v).term ∧
          (τ u p).vote = some v) := by
  cases h with
  | quiet => exact .inl ⟨hs, rfl, List.prefix_rfl⟩
  | elect hr hQ hv => exact .inr ⟨hr, rfl, rfl, _, hQ, hv⟩
  | propose hr => exact .inl ⟨hr, rfl, List.prefix_append _ _⟩
  | advance hr => exact .inl ⟨hr, rfl, List.prefix_rfl⟩
  | observe h => simp [Replica.enter_of_lt h] at hs
  | grant hT hr => simp [hr] at hs
  | _ => simp at hs

namespace Run

variable (h : Run P τ N)
include h

theorem term_mono {t u : ℕ} (htu : t ≤ u) (hu : u ≤ N) (v : V) :
    (τ t v).term ≤ (τ u v).term := by
  induction u, htu using Nat.le_induction with
  | base => exact le_rfl
  | succ u _ ih => exact (ih (by omega)).trans (h.next u (by omega) v).term_le

theorem term_ge {t : ℕ} (ht : t ≤ N) (v : V) : P.term₀ ≤ (τ t v).term := by
  have := h.term_mono (Nat.zero_le t) ht v
  rwa [h.init v] at this

theorem vote_stable {t u : ℕ} (htu : t ≤ u) (hu : u ≤ N) {v c : V}
    (hT : (τ u v).term = (τ t v).term) (hc : (τ t v).vote = some c) : (τ u v).vote = some c := by
  induction u, htu using Nat.le_induction with
  | base => exact hc
  | succ u htu ih =>
    have h1 := h.term_mono htu (by omega) v
    have h2 := (h.next u (by omega) v).term_le
    exact (h.next u (by omega) v).vote_of_term (by omega) (ih (by omega) (by omega))

theorem vote_unique {t u : ℕ} (ht : t ≤ N) (hu : u ≤ N) {v c d : V}
    (hT : (τ u v).term = (τ t v).term) (hc : (τ t v).vote = some c) (hd : (τ u v).vote = some d) :
    c = d := by
  rcases le_total t u with htu | htu
  · have := h.vote_stable htu hu hT hc
    rw [hd] at this
    exact (Option.some.inj this).symm
  · have := h.vote_stable htu ht hT.symm hd
    rw [hc] at this
    exact Option.some.inj this

/-- A vote was given to a candidate of the voter's term whose log was up to date with the log the
voter had then. -/
theorem vote_origin {t : ℕ} (ht : t ≤ N) {p c : V} (hc : (τ t p).vote = some c) :
    ∃ u ≤ t, (τ u p).term = (τ t p).term ∧ (τ u p).vote = some c ∧
      ∃ w ≤ u, CandidateAt τ w c (τ t p).term ∧ P.UpToDate (τ w c).log (τ u p).log := by
  induction t with
  | zero => simp [h.init, Protocol.start] at hc
  | succ t ih =>
    -- the vote was there before the move, in the same term
    have hold : (τ (t + 1) p).term = (τ t p).term → (τ t p).vote = some c →
        ∃ u ≤ t + 1, (τ u p).term = (τ (t + 1) p).term ∧ (τ u p).vote = some c ∧
          ∃ w ≤ u, CandidateAt τ w c (τ (t + 1) p).term ∧
            P.UpToDate (τ w c).log (τ u p).log := by
      intro hT hv
      obtain ⟨u, hu, h1, h2, h3⟩ := ih (by omega) hv
      exact ⟨u, by omega, h1.trans hT.symm, h2, hT ▸ h3⟩
    have hm := h.next t (by omega) p
    generalize hs : τ (t + 1) p = s at hm
    rw [hs] at hc hold
    cases hm with
    | quiet | retire | stepDown | elect | propose | advance => exact hold rfl hc
    | observe hT => simp [Replica.enter_of_lt hT] at hc
    | campaign =>
      simp only [Option.some.injEq] at hc
      subst hc
      exact ⟨t + 1, le_rfl, by rw [hs], by rw [hs], t + 1, le_rfl, ⟨by rw [hs], by rw [hs]⟩,
        P.upToDate_refl _⟩
    | @grant T w d hT hr hv hw hd hup =>
      simp only [Option.some.injEq] at hc
      subst hc
      exact ⟨t + 1, le_rfl, by rw [hs], by rw [hs], w, by omega,
        ⟨hd.1, hd.2.trans hT.symm⟩, by rw [hs]; simpa using hup⟩
    | @accept T w l hT hr hw hl =>
      by_cases hlt : (τ t p).term < T
      · simp [Replica.enter_of_lt hlt] at hc
      · rw [Replica.enter_of_le (by omega)] at hc hold ⊢
        exact hold rfl hc

/-- While a replica stays a candidate of one term its log does not change. -/
theorem candidate_log {t u : ℕ} (htu : t ≤ u) (hu : u ≤ N) {v : V} {T : ℕ}
    (ht : CandidateAt τ t v T) (hu' : CandidateAt τ u v T) : (τ u v).log = (τ t v).log := by
  induction u, htu using Nat.le_induction with
  | base => rfl
  | succ u htu ih =>
    rcases (h.next u (by omega) v).candidate_cases hu'.1 with heq | ⟨-, hterm, -⟩
    · rw [heq]
      exact ih (by omega) (by unfold CandidateAt at hu' ⊢; rwa [heq] at hu')
    · have := h.term_mono htu (by omega) v
      have h1 := ht.2
      have h2 := hu'.2
      omega

theorem candidate_gt {t : ℕ} (ht : t ≤ N) {v : V} {T : ℕ} (hc : CandidateAt τ t v T) :
    P.term₀ < T := by
  induction t with
  | zero => simp [CandidateAt, h.init, Protocol.start] at hc
  | succ t ih =>
    rcases (h.next t (by omega) v).candidate_cases hc.1 with heq | ⟨-, hterm, -⟩
    · exact ih (by omega) (by unfold CandidateAt at hc ⊢; rwa [heq] at hc)
    · have := h.term_ge (t := t) (by omega) v
      have := hc.2
      omega

/-- Every leader was elected: a candidate with a log its own extends, for whom a quorum had
voted. -/
theorem elected {t : ℕ} (ht : t ≤ N) {v : V} {T : ℕ} (hl : LeaderAt τ t v T) :
    ∃ te < t, CandidateAt τ te v T ∧ (τ te v).log <+: (τ t v).log ∧
      ∃ Q ∈ P.quorum, ∀ p ∈ Q, ∃ u ≤ te, (τ u p).term = T ∧ (τ u p).vote = some v := by
  induction t with
  | zero => simp [LeaderAt, h.init, Protocol.start] at hl
  | succ t ih =>
    obtain ⟨hr, hT⟩ := hl
    rcases (h.next t (by omega) v).leader_cases hr with ⟨hr', hT', hlog⟩ | ⟨hr', hT', hlog, hQ⟩
    · obtain ⟨te, hte, hc, hpre, hQ⟩ := ih (by omega) ⟨hr', by omega⟩
      exact ⟨te, by omega, hc, hpre.trans hlog, hQ⟩
    · refine ⟨t, by omega, ⟨hr', by omega⟩, by rw [hlog], ?_⟩
      rwa [← hT', hT] at hQ

/-- After leading a term a replica is no candidate in it, and as long as it leads on its log has
only grown. -/
theorem leader_session {t u : ℕ} (htu : t ≤ u) (hu : u ≤ N) {v : V} {T : ℕ}
    (hl : LeaderAt τ t v T) (hT : (τ u v).term = T) :
    (τ u v).role ≠ .candidate ∧ ((τ u v).role = .leader → (τ t v).log <+: (τ u v).log) := by
  induction u, htu using Nat.le_induction with
  | base => exact ⟨by rw [hl.1]; simp, fun _ => List.prefix_rfl⟩
  | succ u htu ih =>
    have h1 := h.term_mono htu (by omega) v
    have h2 := (h.next u (by omega) v).term_le
    have h3 := hl.2
    obtain ⟨ih1, ih2⟩ := ih (by omega) (by omega)
    refine ⟨fun hc => ?_, fun hr => ?_⟩
    · rcases (h.next u (by omega) v).candidate_cases hc with heq | ⟨-, hterm, -⟩
      · exact ih1 (heq ▸ hc)
      · omega
    · rcases (h.next u (by omega) v).leader_cases hr with ⟨hr', -, hlog⟩ | ⟨hr', -⟩
      · exact (ih2 hr').trans hlog
      · exact absurd hr' ih1

/-- At most one replica ever leads a term. -/
theorem leader_unique {t u : ℕ} (ht : t ≤ N) (hu : u ≤ N) {v w : V} {T : ℕ}
    (hv : LeaderAt τ t v T) (hw : LeaderAt τ u w T) : v = w := by
  obtain ⟨te, hte, -, -, Q, hQ, hQv⟩ := h.elected ht hv
  obtain ⟨ue, hue, -, -, Q', hQ', hQw⟩ := h.elected hu hw
  obtain ⟨p, hp, hp'⟩ := P.inter hQ hQ'
  obtain ⟨a, ha, ha1, ha2⟩ := hQv p hp
  obtain ⟨b, hb, hb1, hb2⟩ := hQw p hp'
  exact h.vote_unique (by omega) (by omega) (hb1.trans ha1.symm) ha2 hb2

/-- Until a candidate that will lead a term is elected, nobody leads it. -/
theorem not_leader_before {t te u : ℕ} (ht : t ≤ N) (hte : te < t) {v w : V} {T : ℕ}
    (hv : LeaderAt τ t v T) (hc : CandidateAt τ te v T) (hu : u ≤ te) : ¬ LeaderAt τ u w T := by
  intro hw
  have heq := h.leader_unique (by omega) ht hw hv
  subst heq
  exact (h.leader_session hu (by omega) hw hc.2).1 hc.1

theorem leader_gt {t : ℕ} (ht : t ≤ N) {v : V} {T : ℕ} (hl : LeaderAt τ t v T) :
    P.term₀ < T := by
  obtain ⟨te, hte, hc, -⟩ := h.elected ht hl
  exact h.candidate_gt (by omega) hc

/-- A term's leader only adds to its log. -/
theorem leader_log_mono {t u : ℕ} (htu : t ≤ u) (hu : u ≤ N) {v w : V} {T : ℕ}
    (hv : LeaderAt τ t v T) (hw : LeaderAt τ u w T) : (τ t v).log <+: (τ u w).log := by
  have heq := h.leader_unique (by omega) hu hv hw
  subst heq
  exact (h.leader_session htu hu hv hw.2).2 hw.1

end Run

end Replog
