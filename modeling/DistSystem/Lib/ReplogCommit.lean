import DistSystem.Lib.ReplogLog

/-!
# Commitment

What a quorum held of a leader's log in its term is in the log of every leader of a later term
(`leader_complete`), by induction on that term: its election quorum meets the holding one in a
replica that still held it when it voted (`held`), and the winner's log was up to date with that
replica's (`upToDate_carries`). So what a replica takes for committed stays in its log, and two
replicas agree on what both take for committed (`committed_agree`).
-/

namespace Replog

variable {V E : Type*} {P : Protocol V E} {τ : ℕ → V → Replica V E} {N : ℕ}

/-- By time `t` the leader of term `T` and a quorum had `p` in their logs in that term, and the
last entry of `p` is of that term. -/
structure Committed (P : Protocol V E) (τ : ℕ → V → Replica V E) (t : ℕ) (p : List E) (T : ℕ) :
    Prop where
  leader : ∃ u ≤ t, ∃ l, LeaderAt τ u l T ∧ p <+: (τ u l).log
  last : ∃ e, p[p.length - 1]? = some e ∧ P.termOf e = T
  held : ∃ Q ∈ P.quorum, ∀ v ∈ Q, ∃ u ≤ t, (τ u v).term = T ∧ p <+: (τ u v).log

theorem Committed.mono {t u : ℕ} (htu : t ≤ u) {p : List E} {T : ℕ} (h : Committed P τ t p T) :
    Committed P τ u p T where
  leader := by
    obtain ⟨w, hw, l, hl⟩ := h.leader
    exact ⟨w, by omega, l, hl⟩
  last := h.last
  held := by
    obtain ⟨Q, hQ, hh⟩ := h.held
    refine ⟨Q, hQ, fun v hv => ?_⟩
    obtain ⟨w, hw, hw'⟩ := hh v hv
    exact ⟨w, by omega, hw'⟩

theorem Protocol.lastTerm_eq (P : Protocol V E) {l : List E} (hl : l ≠ []) :
    ∃ e, l[l.length - 1]? = some e ∧ P.lastTerm l = P.termOf e := by
  refine ⟨l.getLast hl, ?_, ?_⟩
  · rw [← List.getLast?_eq_getElem?, List.getLast?_eq_some_getLast hl]
  · simp [Protocol.lastTerm, List.getLast?_eq_some_getLast hl]

namespace Run

variable (h : Run P τ N)
include h

/-- A replica that held `p`, part of the leader's log, in the leader's term still holds it, as
long as the leaders of the terms it has come to since had `p`. -/
theorem held {ta t : ℕ} (hta : ta ≤ t) (ht : t ≤ N) {v : V} {p : List E} {T : ℕ}
    (hlead : ∃ u ≤ N, ∃ l, LeaderAt τ u l T ∧ p <+: (τ u l).log) (hT : (τ ta v).term = T)
    (hp : p <+: (τ ta v).log)
    (hlater : ∀ u < t, ∀ l T', LeaderAt τ u l T' → T < T' → T' ≤ (τ t v).term →
      p <+: (τ u l).log) :
    p <+: (τ t v).log := by
  induction t, hta using Nat.le_induction with
  | base => exact hp
  | succ t hta ih =>
    have hm := h.next t (by omega) v
    have hpt : p <+: (τ t v).log := ih (by omega) fun u hu l T' hl h1 h2 =>
      hlater u (by omega) l T' hl h1 (h2.trans hm.term_le)
    rcases hm.log_cases with heq | ⟨e, heq, -⟩ | ⟨u, hu, l, hl, heq, hnp⟩
    · rwa [heq]
    · rw [heq]
      exact hpt.trans (List.prefix_append _ _)
    · rw [heq]
      have hge : T ≤ (τ (t + 1) v).term := hT ▸ h.term_mono (by omega) ht v
      rcases hge.eq_or_lt with heqT | hlt
      · obtain ⟨u₀, hu₀, l₀, hl₀, hp₀⟩ := hlead
        rw [← heqT] at hl
        rcases h.comparable_of_leaders hu₀ (by omega) hl₀ hl hp₀ List.prefix_rfl with hc | hc
        · exact hc
        · exact absurd (hc.trans hpt) hnp
      · exact hlater u (by omega) l _ hl hlt le_rfl

/-- A log up to date with one that holds `p` holds `p`, if the leaders so far of terms after that
of `p`'s last entry had `p`. -/
theorem upToDate_carries {te tv : ℕ} (hte : te ≤ N) (htv : tv ≤ N) {c v : V} {p : List E} {T : ℕ}
    (hlast : ∃ e, p[p.length - 1]? = some e ∧ P.termOf e = T) (hT₀ : P.term₀ ≤ T)
    (hp : p <+: (τ tv v).log) (hup : P.UpToDate (τ te c).log (τ tv v).log)
    (hlater : ∀ u ≤ te, ∀ l T', LeaderAt τ u l T' → T < T' → T' ≤ (τ te c).term →
      p <+: (τ u l).log) :
    p <+: (τ te c).log := by
  obtain ⟨e, he, heT⟩ := hlast
  obtain ⟨a, ha, haT⟩ := P.lastTerm_eq (h.log_ne htv v)
  obtain ⟨b, hb, hbT⟩ := P.lastTerm_eq (h.log_ne hte c)
  have hple := hp.length_le
  have hea : T ≤ P.termOf a :=
    heT ▸ h.termOf_mono htv (by omega) (getElem?_of_isPrefix hp he) ha
  rw [Protocol.UpToDate, haT, hbT] at hup
  rcases hup with hlt | ⟨heq, hlen⟩
  · rcases h.traced hte c _ b hb with ⟨hb1, -⟩ | ⟨u, hu, l, hl, hpre⟩
    · omega
    · have hpl := hlater u hu l _ hl (by omega) (h.termOf_le hte (List.mem_of_getElem? hb))
      have hcl : (τ te c).log <+: (τ u l).log := by
        rwa [List.take_of_length_le (by omega)] at hpre
      rcases List.prefix_or_prefix_of_prefix hpl hcl with hc | hc
      · exact hc
      · -- the candidate's last entry would lie below the last of `p`
        have hbp := getElem?_of_isPrefix (hc.trans hp) hb
        have := h.termOf_mono htv (by have := hc.length_le; omega) hbp
          (getElem?_of_isPrefix hp he)
        omega
  · -- the voter's last place holds the same term in the candidate's log, so the logs agree there
    have hvl : (τ tv v).log <+: (τ te c).log := by
      have hfull : (τ tv v).log.take ((τ tv v).log.length - 1 + 1) = (τ tv v).log :=
        List.take_of_length_le (by omega)
      have hfull' : (τ te c).log.take ((τ te c).log.length - 1 + 1) = (τ te c).log :=
        List.take_of_length_le (by omega)
      rcases h.traced htv v _ a ha with ⟨ha1, ha2⟩ | ⟨x, hx, q, hq, hqa⟩ <;>
        rcases h.traced hte c _ b hb with ⟨hb1, hb2⟩ | ⟨y, hy, r, hr, hrb⟩
      · rw [← (h.base_le_log htv v).eq_of_length_le (by omega)]
        exact h.base_le_log hte c
      · have := h.leader_gt (by omega) hr
        omega
      · have := h.leader_gt (by omega) hq
        omega
      · rw [hfull] at hqa
        rw [hfull'] at hrb
        rw [heq] at hr
        rcases h.comparable_of_leaders (by omega) (by omega) hq hr hqa hrb with hc | hc
        · exact hc
        · rw [hc.eq_of_length_le hlen]
    exact hp.trans hvl

/-- What was committed in a term is in the log of every leader of a later term, whenever it
leads. -/
theorem leader_complete {t : ℕ} (ht : t ≤ N) {p : List E} {T : ℕ} (hc : Committed P τ t p T) :
    ∀ T' > T, ∀ u ≤ N, ∀ l, LeaderAt τ u l T' → p <+: (τ u l).log := by
  intro T'
  induction T' using Nat.strong_induction_on with
  | _ T' ih =>
    intro hT' u hu l hl
    obtain ⟨te, hte, hcand, hpre, Q', hQ', hvotes⟩ := h.elected hu hl
    obtain ⟨Q, hQ, hheld⟩ := hc.held
    obtain ⟨v, hvQ, hvQ'⟩ := P.inter hQ hQ'
    obtain ⟨ta, hta, htaT, htap⟩ := hheld v hvQ
    obtain ⟨tv, htv, htvT, htvv⟩ := hvotes v hvQ'
    obtain ⟨tg, htg, htgT, -, w, hw, hwc, hup⟩ := h.vote_origin (by omega) htvv
    rw [htvT] at htgT hwc
    have hat : ta ≤ tg := by
      by_contra hlt
      have := h.term_mono (t := tg) (u := ta) (by omega) (by omega) v
      omega
    have hlead : ∃ u ≤ N, ∃ l, LeaderAt τ u l T ∧ p <+: (τ u l).log := by
      obtain ⟨u₀, hu₀, l₀, hl₀⟩ := hc.leader
      exact ⟨u₀, by omega, l₀, hl₀⟩
    -- leaders up to the election are of terms below `T'`
    have hbelow : ∀ x ≤ te, ∀ q T'', LeaderAt τ x q T'' → T < T'' → T'' ≤ T' →
        p <+: (τ x q).log := by
      intro x hx q T'' hq h1 h2
      rcases h2.eq_or_lt with rfl | h2
      · exact absurd hq (h.not_leader_before hu hte hl hcand hx)
      · exact ih T'' h2 h1 x (by omega) q hq
    have hpv : p <+: (τ tg v).log := h.held hat (by omega) hlead htaT htap
      fun x hx q T'' hq h1 h2 => hbelow x (by omega) q T'' hq h1 (by omega)
    rw [h.candidate_log (by omega) (by omega) hwc hcand |>.symm] at hup
    refine (h.upToDate_carries (by omega) (by omega) hc.last ?_ hpv hup ?_).trans hpre
    · exact htaT ▸ h.term_ge (by omega) v
    · exact fun x hx q T'' hq h1 h2 => hbelow x hx q T'' hq h1 (hcand.2 ▸ h2)

end Run

/-- What `s` takes for committed was committed in a term no later than its own, by time `t`. -/
def CommitOk (P : Protocol V E) (τ : ℕ → V → Replica V E) (t : ℕ) (s : Replica V E) : Prop :=
  s.commit < P.base.length ∨
    ∃ p T, Committed P τ t p T ∧ T ≤ s.term ∧ p <+: s.log ∧ s.commit < p.length

theorem CommitOk.mono {t u : ℕ} (htu : t ≤ u) {s s' : Replica V E} (h : CommitOk P τ t s)
    (hT : s.term ≤ s'.term) (hl : s.log <+: s'.log) (hc : s'.commit = s.commit) :
    CommitOk P τ u s' := by
  rcases h with h | ⟨p, T, h1, h2, h3, h4⟩
  · exact .inl (by omega)
  · exact .inr ⟨p, T, h1.mono htu, by omega, h3.trans hl, by omega⟩

namespace Run

variable (h : Run P τ N)
include h

/-- Taking over a leader's log keeps what was committed in a term no later than the leader's. -/
theorem committed_le_merge {t u : ℕ} (ht : t ≤ N) (hu : u ≤ N) {p l : List E} {T T' : ℕ} {v : V}
    (hc : Committed P τ t p T) (hT : T ≤ T') (hl : LeaderAt τ u v T') (hp : p <+: l) :
    p <+: merge (τ u v).log l := by
  rcases merge_eq (τ u v).log l with ⟨hm, -⟩ | ⟨hm, hnp⟩
  · rwa [hm]
  · rw [hm]
    rcases hT.eq_or_lt with rfl | hlt
    · obtain ⟨u₀, hu₀, l₀, hl₀, hp₀⟩ := hc.leader
      rcases h.comparable_of_leaders (by omega) hu hl₀ hl hp₀ List.prefix_rfl with hcmp | hcmp
      · exact hcmp
      · exact absurd (hcmp.trans hp) hnp
    · exact h.leader_complete ht hc T' hlt u hu v hl

theorem commitOk {t : ℕ} (ht : t ≤ N) (v : V) : CommitOk P τ t (τ t v) := by
  induction t using Nat.strong_induction_on generalizing v with
  | _ t ih =>
    cases t with
    | zero =>
      rw [h.init v]
      exact .inl (List.length_pos_iff.2 P.base_ne)
    | succ t =>
      have hold := ih t (by omega) (by omega) v
      have hm := h.next t (by omega) v
      generalize τ (t + 1) v = s at hm
      cases hm with
      | quiet => exact hold.mono (by omega) le_rfl List.prefix_rfl rfl
      | retire => exact .inl (List.length_pos_iff.2 P.base_ne)
      | stepDown => exact hold.mono (by omega) le_rfl List.prefix_rfl rfl
      | observe hT => exact hold.mono (by omega) (by simp) (by simp) (by simp)
      | campaign => exact hold.mono (by omega) (by simp) List.prefix_rfl rfl
      | grant => exact hold.mono (by omega) (by simp) (by simp) (by simp)
      | elect => exact hold.mono (by omega) le_rfl List.prefix_rfl rfl
      | propose => exact hold.mono (by omega) le_rfl (List.prefix_append _ _) rfl
      | @accept T u l hT hr hu hl =>
        simp only [Replica.enter_term] at hT
        rcases le_total (τ u l).commit (τ t v).commit with hle | hle
        · -- the replica knew of more: what it takes for committed is kept
          rcases hold with hb | ⟨p, T', hc, hT', hp, hlt⟩
          · exact .inl (by simpa [max_eq_left hle] using hb)
          · refine .inr ⟨p, T', hc.mono (by omega), by simp; omega, ?_,
              by simp [max_eq_left hle, hlt]⟩
            exact h.committed_le_merge (by omega) (by omega) hc (by omega) hl hp
        · rcases ih u (by omega) (by omega) l with hb | ⟨p, T', hc, hT', hp, hlt⟩
          · exact .inl (by simpa [max_eq_right hle] using hb)
          · refine .inr ⟨p, T', hc.mono (by omega), ?_, hp.trans (prefix_merge _ _),
              by simp [max_eq_right hle, hlt]⟩
            have := hl.2
            simp
            omega
      | @advance k e Q hr hk he hQ hack =>
        have hlt := (List.getElem?_eq_some_iff.1 hk).1
        have hlen : ((τ t v).log.take (k + 1)).length = k + 1 := by
          simp only [List.length_take]
          omega
        refine .inr ⟨(τ t v).log.take (k + 1), (τ t v).term, ⟨⟨t, by omega, v, ⟨hr, rfl⟩,
          List.take_prefix _ _⟩, ⟨e, ?_, he⟩, Q, hQ, fun p hp => ?_⟩, le_rfl,
          List.take_prefix _ _, by rw [hlen]; simp⟩
        · rw [hlen, List.getElem?_take_of_lt (by omega)]
          simpa using hk
        · obtain ⟨u, hu, hu'⟩ := hack p hp
          exact ⟨u, by omega, hu'⟩

theorem commit_lt {t : ℕ} (ht : t ≤ N) (v : V) : (τ t v).commit < (τ t v).log.length := by
  rcases h.commitOk ht v with hb | ⟨p, T, -, -, hp, hlt⟩
  · exact hb.trans_le (h.base_le_log ht v).length_le
  · exact hlt.trans_le hp.length_le

/-- What a replica takes for committed is in the log of every leader of a later term, and of its
own term's leader from then on. -/
theorem committed_le_leader {t u : ℕ} (ht : t ≤ N) (hu : u ≤ N) {v w : V} {T : ℕ}
    (hl : LeaderAt τ u w T) (hT : (τ t v).term < T ∨ ((τ t v).term = T ∧ t ≤ u)) :
    (τ t v).log.take ((τ t v).commit + 1) <+: (τ u w).log := by
  rcases h.commitOk ht v with hb | ⟨p, T₀, hc, hT₀, hp, hlt⟩
  · rw [← take_prefix_take (h.base_le_log ht v) (by omega)]
    exact (List.take_prefix _ _).trans (h.base_le_log hu w)
  · rw [← take_prefix_take hp (by omega)]
    refine (List.take_prefix _ _).trans ?_
    rcases lt_or_ge T₀ T with hlt' | hge
    · exact h.leader_complete ht hc T hlt' u hu w hl
    · obtain ⟨u₀, hu₀, l₀, hl₀, hp₀⟩ := hc.leader
      have : T₀ = T := by omega
      subst this
      exact hp₀.trans (h.leader_log_mono (by omega) hu hl₀ hl)

theorem committed_comparable {t u : ℕ} (ht : t ≤ N) (hu : u ≤ N) {p q : List E} {T T' : ℕ}
    (hp : Committed P τ t p T) (hq : Committed P τ u q T') : p <+: q ∨ q <+: p := by
  obtain ⟨a, ha, v, hv, hpv⟩ := hp.leader
  obtain ⟨b, hb, w, hw, hqw⟩ := hq.leader
  rcases lt_trichotomy T T' with hlt | rfl | hlt
  · exact List.prefix_or_prefix_of_prefix (h.leader_complete ht hp T' hlt b (by omega) w hw) hqw
  · exact h.comparable_of_leaders (by omega) (by omega) hv hw hpv hqw
  · exact List.prefix_or_prefix_of_prefix hpv (h.leader_complete hu hq T hlt a (by omega) v hv)

/-- Two replicas, at any two times, have the same entries where both take them for committed. -/
theorem committed_agree {t u : ℕ} (ht : t ≤ N) (hu : u ≤ N) {v w : V} {i : ℕ}
    (hi : i ≤ (τ t v).commit) (hi' : i ≤ (τ u w).commit) :
    (τ t v).log[i]? = (τ u w).log[i]? := by
  -- below a common log, or below comparable ones, entries at one place are the same
  have key : ∀ {p q : List E}, p <+: (τ t v).log → q <+: (τ u w).log → i < p.length →
      i < q.length → (p <+: q ∨ q <+: p) → (τ t v).log[i]? = (τ u w).log[i]? := by
    intro p q hp hq hip hiq hpq
    rw [getElem?_of_isPrefix hp (List.getElem?_eq_getElem hip),
      getElem?_of_isPrefix hq (List.getElem?_eq_getElem hiq)]
    rcases hpq with hpq | hpq
    · rw [hpq.getElem hip]
    · rw [hpq.getElem hiq]
  rcases h.commitOk ht v with hb | ⟨p, T, hc, hT, hp, hlt⟩ <;>
    rcases h.commitOk hu w with hb' | ⟨q, T', hc', hT', hq, hlt'⟩
  · exact key (h.base_le_log ht v) (h.base_le_log hu w) (by omega) (by omega) (.inl List.prefix_rfl)
  · exact key (h.base_le_log ht v) (h.base_le_log hu w) (by omega) (by omega) (.inl List.prefix_rfl)
  · exact key (h.base_le_log ht v) (h.base_le_log hu w) (by omega) (by omega) (.inl List.prefix_rfl)
  · exact key hp hq (by omega) (by omega) (h.committed_comparable ht hu hc hc')

end Run

end Replog
