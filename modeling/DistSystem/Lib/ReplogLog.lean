import DistSystem.Lib.ReplogElection

/-!
# Logs

A log changes by an entry its owner appends while it leads, or by being replaced with what a
leader had, so every entry past the base sits in a log of the leader of its own term, below the
same entries (`Traced`). One term's leader logs are prefixes of one another, so two logs with
entries of one term at one place agree up to there (`log_matching`).
-/

namespace Replog

variable {V E : Type*} {P : Protocol V E} {τ : ℕ → V → Replica V E} {N : ℕ}

theorem getElem?_of_isPrefix {a b : List E} (h : a <+: b) {i : ℕ} {e : E} (he : a[i]? = some e) :
    b[i]? = some e := by
  obtain ⟨c, rfl⟩ := h
  rw [List.getElem?_append_left (List.getElem?_eq_some_iff.1 he).1, he]

theorem take_prefix_take {a b : List E} (h : a <+: b) {k : ℕ} (hk : k ≤ a.length) :
    a.take k = b.take k := by
  obtain ⟨c, rfl⟩ := h
  rw [List.take_append_of_le_length hk]

theorem le_of_pairwise_map {f : E → ℕ} {l : List E} (h : (l.map f).Pairwise (· ≤ ·)) {i j : ℕ}
    (hij : i ≤ j) {a b : E} (ha : l[i]? = some a) (hb : l[j]? = some b) : f a ≤ f b := by
  rcases hij.eq_or_lt with rfl | hlt
  · rw [ha] at hb
    rw [Option.some.inj hb]
  · obtain ⟨hi, ha⟩ := List.getElem?_eq_some_iff.1 ha
    obtain ⟨hj, hb⟩ := List.getElem?_eq_some_iff.1 hb
    have := List.pairwise_iff_getElem.1 h i j (by simpa) (by simpa) hlt
    simpa [ha, hb] using this

open scoped Classical in
theorem merge_eq (L l : List E) : merge L l = l ∧ L <+: l ∨ merge L l = L ∧ ¬ L <+: l := by
  unfold merge
  split_ifs with h
  · exact .inl ⟨rfl, h⟩
  · exact .inr ⟨rfl, h⟩

theorem prefix_merge (L l : List E) : L <+: merge L l := by
  rcases merge_eq L l with ⟨h, h'⟩ | ⟨h, -⟩
  · rw [h]; exact h'
  · rw [h]

/-- How a move changes the log. -/
theorem Move.log_cases {t : ℕ} {v : V} {s : Replica V E} (h : Move P τ t v s) :
    s.log = (τ t v).log ∨
      (∃ e, s.log = (τ t v).log ++ [e] ∧ LeaderAt τ t v (P.termOf e) ∧ s.role = .leader ∧
        s.term = P.termOf e) ∨
      ∃ u ≤ t, ∃ l, LeaderAt τ u l s.term ∧ s.log = (τ u l).log ∧
        ¬ (τ u l).log <+: (τ t v).log := by
  cases h with
  | quiet | retire | stepDown | campaign | elect | advance => exact .inl rfl
  | observe | grant => simp
  | propose hr he => exact .inr (.inl ⟨_, rfl, ⟨hr, he.symm⟩, hr, he.symm⟩)
  | @accept T u l hT hr hu hl =>
    rcases merge_eq (τ u l).log (τ t v).log with ⟨hm, -⟩ | ⟨hm, hnp⟩
    · exact .inl hm
    · exact .inr (.inr ⟨u, hu, l, by simpa only [hT] using hl, hm, hnp⟩)

namespace Run

variable (h : Run P τ N)
include h

/-- What holds of the base, is kept by a growing term and by appending an entry of the term,
holds of every replica's term and log. -/
theorem log_induct {I : ℕ → List E → Prop} (h0 : I P.term₀ P.base)
    (hmono : ∀ {T T' l}, T ≤ T' → I T l → I T' l)
    (happ : ∀ {l e}, I (P.termOf e) l → I (P.termOf e) (l ++ [e])) :
    ∀ t ≤ N, ∀ v, I (τ t v).term (τ t v).log := by
  intro t
  induction t using Nat.strong_induction_on with
  | _ t ih =>
    intro ht v
    cases t with
    | zero => rwa [h.init v]
    | succ t =>
      have hm := h.next t (by omega) v
      rcases hm.log_cases with heq | ⟨e, heq, hl, -, hT⟩ | ⟨u, hu, l, hl, heq, -⟩
      · rw [heq]
        exact hmono hm.term_le (ih t (by omega) (by omega) v)
      · have := ih t (by omega) (by omega) v
        rw [hl.2] at this
        rw [heq, hT]
        exact happ this
      · have := ih u (by omega) (by omega) l
        rw [hl.2] at this
        rwa [heq]

/-- Every entry past the base was appended by a leader that stayed one. -/
theorem entry_origin : ∀ t ≤ N, ∀ v, ∀ e ∈ (τ t v).log, e ∈ P.base ∨
    ∃ u < t, ∃ w, (τ u w).role = .leader ∧ (τ (u + 1) w).role = .leader ∧
      (τ (u + 1) w).log = (τ u w).log ++ [e] := by
  intro t
  induction t using Nat.strong_induction_on with
  | _ t ih =>
    intro ht v e he
    -- an entry that was in some log before
    have hold : ∀ {u w}, u < t → e ∈ (τ u w).log → e ∈ P.base ∨
        ∃ u < t, ∃ w, (τ u w).role = .leader ∧ (τ (u + 1) w).role = .leader ∧
          (τ (u + 1) w).log = (τ u w).log ++ [e] := by
      intro u w hu he
      rcases ih u hu (by omega) w e he with hb | ⟨u', hu', h'⟩
      · exact .inl hb
      · exact .inr ⟨u', hu'.trans hu, h'⟩
    cases t with
    | zero =>
      rw [h.init v] at he
      exact .inl he
    | succ t =>
      have hm := h.next t (by omega) v
      rcases hm.log_cases with heq | ⟨d, heq, hl, hr, -⟩ | ⟨u, hu, l, hl, heq, -⟩
      · exact hold (Nat.lt_succ_self t) (heq ▸ he)
      · rw [heq, List.mem_append, List.mem_singleton] at he
        rcases he with he | rfl
        · exact hold (Nat.lt_succ_self t) he
        · exact .inr ⟨t, Nat.lt_succ_self t, v, hl.1, hr, heq⟩
      · exact hold (Nat.lt_succ_of_le hu) (heq ▸ he)

theorem log_wf {t : ℕ} (ht : t ≤ N) (v : V) :
    P.base <+: (τ t v).log ∧ (∀ e ∈ (τ t v).log, P.termOf e ≤ (τ t v).term) ∧
      ((τ t v).log.map P.termOf).Pairwise (· ≤ ·) := by
  refine h.log_induct (I := fun T l => P.base <+: l ∧ (∀ e ∈ l, P.termOf e ≤ T) ∧
    (l.map P.termOf).Pairwise (· ≤ ·)) ⟨List.prefix_rfl, P.base_le, P.base_sorted⟩ ?_ ?_ t ht v
  · rintro T T' l hT ⟨h1, h2, h3⟩
    exact ⟨h1, fun e he => (h2 e he).trans hT, h3⟩
  · rintro l e ⟨h1, h2, h3⟩
    refine ⟨h1.trans (List.prefix_append _ _), fun d hd => ?_, ?_⟩
    · rcases List.mem_append.1 hd with hd | hd
      · exact h2 d hd
      · rw [List.mem_singleton.1 hd]
    · rw [List.map_append, List.pairwise_append]
      refine ⟨h3, by simp, fun a ha b hb => ?_⟩
      obtain ⟨d, hd, rfl⟩ := List.mem_map.1 ha
      simp only [List.map_cons, List.map_nil, List.mem_singleton] at hb
      rw [hb]
      exact h2 d hd

theorem base_le_log {t : ℕ} (ht : t ≤ N) (v : V) : P.base <+: (τ t v).log := (h.log_wf ht v).1

theorem log_ne {t : ℕ} (ht : t ≤ N) (v : V) : (τ t v).log ≠ [] :=
  (h.base_le_log ht v).ne_nil P.base_ne

theorem termOf_le {t : ℕ} (ht : t ≤ N) {v : V} {e : E} (he : e ∈ (τ t v).log) :
    P.termOf e ≤ (τ t v).term := (h.log_wf ht v).2.1 e he

theorem termOf_mono {t : ℕ} (ht : t ≤ N) {v : V} {i j : ℕ} (hij : i ≤ j) {a b : E}
    (ha : (τ t v).log[i]? = some a) (hb : (τ t v).log[j]? = some b) :
    P.termOf a ≤ P.termOf b := le_of_pairwise_map (h.log_wf ht v).2.2 hij ha hb

end Run

/-- Every entry of `l` past the base sits, below the same entries, in a log its own term's leader
had by time `t`. -/
def Traced (P : Protocol V E) (τ : ℕ → V → Replica V E) (t : ℕ) (l : List E) : Prop :=
  ∀ i e, l[i]? = some e → (P.termOf e ≤ P.term₀ ∧ i < P.base.length) ∨
    ∃ u ≤ t, ∃ v, LeaderAt τ u v (P.termOf e) ∧ l.take (i + 1) <+: (τ u v).log

theorem Traced.mono {t u : ℕ} (htu : t ≤ u) {l : List E} (h : Traced P τ t l) :
    Traced P τ u l := by
  intro i e he
  rcases h i e he with h | ⟨w, hw, v, hl, hp⟩
  · exact .inl h
  · exact .inr ⟨w, by omega, v, hl, hp⟩

namespace Run

variable (h : Run P τ N)
include h

theorem traced {t : ℕ} (ht : t ≤ N) (v : V) : Traced P τ t (τ t v).log := by
  induction t using Nat.strong_induction_on generalizing v with
  | _ t ih =>
    cases t with
    | zero =>
      intro i e he
      rw [h.init v] at he
      exact .inl ⟨P.base_le e (List.mem_of_getElem? he), (List.getElem?_eq_some_iff.1 he).1⟩
    | succ t =>
      have hm := h.next t (by omega) v
      rcases hm.log_cases with heq | ⟨d, heq, hl, hr, hT⟩ | ⟨u, hu, l, hl, heq, -⟩
      · rw [heq]
        exact (ih t (by omega) (by omega) v).mono (by omega)
      · intro i e he
        rw [heq] at he ⊢
        rcases lt_or_ge i (τ t v).log.length with hi | hi
        · rw [List.getElem?_append_left hi] at he
          rw [List.take_append_of_le_length (by omega)]
          exact (ih t (by omega) (by omega) v).mono (Nat.le_succ t) i e he
        · rw [List.getElem?_append_right hi] at he
          obtain ⟨hi', he⟩ := List.getElem?_eq_some_iff.1 he
          simp only [List.length_cons, List.length_nil] at hi'
          have : e = d := by rw [← he]; simp
          subst this
          refine .inr ⟨t + 1, le_rfl, v, ⟨hr, hT⟩, ?_⟩
          rw [heq]
          exact List.take_prefix _ _
      · rw [heq]
        exact (ih u (by omega) (by omega) l).mono (by omega)

/-- A candidate that is elected has no entry of its term yet. -/
theorem elected_termOf_ne {t te : ℕ} (ht : t ≤ N) (hte : te < t) {v : V} {T : ℕ}
    (hv : LeaderAt τ t v T) (hc : CandidateAt τ te v T) {i : ℕ} {e : E}
    (he : (τ te v).log[i]? = some e) : P.termOf e ≠ T := by
  intro heT
  rcases h.traced (by omega) v i e he with ⟨hle, -⟩ | ⟨u, hu, w, hw, -⟩
  · exact absurd (heT ▸ hle) (Nat.not_le.2 (h.leader_gt ht hv))
  · exact h.not_leader_before ht hte hv hc hu (heT ▸ hw)

/-- One term's leader logs are prefixes of one another. -/
theorem leader_logs_comparable {t u : ℕ} (ht : t ≤ N) (hu : u ≤ N) {v w : V} {T : ℕ}
    (hv : LeaderAt τ t v T) (hw : LeaderAt τ u w T) :
    (τ t v).log <+: (τ u w).log ∨ (τ u w).log <+: (τ t v).log := by
  rcases le_total t u with htu | htu
  · exact .inl (h.leader_log_mono htu hu hv hw)
  · exact .inr (h.leader_log_mono htu ht hw hv)

/-- What lies below logs of one term's leader is comparable. -/
theorem comparable_of_leaders {t u : ℕ} (ht : t ≤ N) (hu : u ≤ N) {v w : V} {T : ℕ}
    (hv : LeaderAt τ t v T) (hw : LeaderAt τ u w T) {a b : List E} (ha : a <+: (τ t v).log)
    (hb : b <+: (τ u w).log) : a <+: b ∨ b <+: a := by
  rcases h.leader_logs_comparable ht hu hv hw with hp | hp
  · exact List.prefix_or_prefix_of_prefix (ha.trans hp) hb
  · exact List.prefix_or_prefix_of_prefix ha (hb.trans hp)

/-- Two logs, at any two times, with entries of one term at one place agree up to there. -/
theorem log_matching {t u : ℕ} (ht : t ≤ N) (hu : u ≤ N) {v w : V} {i : ℕ} {a b : E}
    (ha : (τ t v).log[i]? = some a) (hb : (τ u w).log[i]? = some b)
    (hab : P.termOf a = P.termOf b) : (τ t v).log.take (i + 1) = (τ u w).log.take (i + 1) := by
  have hla := (List.getElem?_eq_some_iff.1 ha).1
  have hlb := (List.getElem?_eq_some_iff.1 hb).1
  have hlen : ((τ t v).log.take (i + 1)).length = ((τ u w).log.take (i + 1)).length := by
    simp only [List.length_take]
    omega
  rcases h.traced ht v i a ha with ⟨ha1, ha2⟩ | ⟨x, hx, p, hp, hpa⟩ <;>
    rcases h.traced hu w i b hb with ⟨hb1, hb2⟩ | ⟨y, hy, q, hq, hqb⟩
  · rw [← take_prefix_take (h.base_le_log ht v) (by omega),
      ← take_prefix_take (h.base_le_log hu w) (by omega)]
  · have := h.leader_gt (by omega) hq
    omega
  · have := h.leader_gt (by omega) hp
    omega
  · rw [← hab] at hq
    rcases h.comparable_of_leaders (by omega) (by omega) hp hq hpa hqb with hc | hc
    · exact hc.eq_of_length hlen
    · exact (hc.eq_of_length hlen.symm).symm

end Run

end Replog
