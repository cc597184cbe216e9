import Mathlib.Data.List.Induction
import Mathlib.Data.Nat.Basic

/-!
# Filtering repeated requests by number

Every request is of some client and has a number. The filter keeps for each client the number of
the last request it let pass (`table`) and stops a request whose number is not larger (`Seen`). So a
request is stopped just when one of the same client with at least its number came before, whether
that one passed or not; among the repetitions of a request only the first can pass, and it does not
if the client has overtaken it. When no client overtakes itself what passes is the list without its
repetitions (`passed_eq_firsts`).
-/

namespace Dedup

variable {α ι : Type*} [DecidableEq ι] (client : α → ι) (num : α → ℕ)

/-- The filter stops `a`. -/
def Seen (tbl : ι → Option ℕ) (a : α) : Prop := ∃ v ∈ tbl (client a), num a ≤ v

instance (tbl : ι → Option ℕ) (a : α) : Decidable (Seen client num tbl a) :=
  inferInstanceAs (Decidable (∃ v ∈ tbl (client a), num a ≤ v))

/-- The table after `a`. -/
def note (tbl : ι → Option ℕ) (a : α) : ι → Option ℕ :=
  if Seen client num tbl a then tbl else Function.update tbl (client a) (some (num a))

/-- The table after the requests of a list. -/
def table (l : List α) : ι → Option ℕ := l.foldl (note client num) fun _ => none

/-- The requests that pass, from a table on. -/
def passedFrom (tbl : ι → Option ℕ) : List α → List α
  | [] => []
  | a :: l => (if Seen client num tbl a then [] else [a]) ++ passedFrom (note client num tbl a) l

/-- The requests that pass. -/
def passed (l : List α) : List α := passedFrom client num (fun _ => none) l

/-- The requests of a list without those that have the client and the number of an earlier one. -/
def firsts : List α → List α
  | [] => []
  | a :: l => a :: (firsts l).filter fun b => ¬ (client b = client a ∧ num b = num a)

variable {client num} {tbl : ι → Option ℕ} {a b : α}

@[simp]
theorem table_nil : table client num [] = fun _ => none := rfl

@[simp]
theorem table_concat (l : List α) (a : α) :
    table client num (l ++ [a]) = note client num (table client num l) a := by
  simp [table]

theorem Seen.note (h : Seen client num tbl a) (b : α) :
    Seen client num (note client num tbl b) a := by
  obtain ⟨v, hv, hle⟩ := h
  unfold Dedup.note
  split_ifs with hb
  · exact ⟨v, hv, hle⟩
  · by_cases hc : client a = client b
    · -- the client's number has only grown
      refine ⟨num b, by simp [hc], ?_⟩
      by_contra hlt
      exact hb ⟨v, by rwa [← hc], by omega⟩
    · exact ⟨v, by rwa [Function.update_of_ne hc], hle⟩

theorem seen_note_self (tbl : ι → Option ℕ) (a : α) :
    Seen client num (note client num tbl a) a := by
  unfold note
  split_ifs with h
  · exact h
  · exact ⟨num a, by simp, le_rfl⟩

/-- A table with a number for another request stops no more than that request does. -/
theorem seen_of_seen_note (h : Seen client num (note client num tbl b) a) :
    Seen client num tbl a ∨ (client b = client a ∧ num a ≤ num b) := by
  unfold note at h
  split_ifs at h with hb
  · exact .inl h
  · obtain ⟨v, hv, hle⟩ := h
    by_cases hc : client a = client b
    · simp only [hc, Function.update_self, Option.mem_def, Option.some.injEq] at hv
      exact .inr ⟨hc.symm, hv ▸ hle⟩
    · rw [Function.update_of_ne hc] at hv
      exact .inl ⟨v, hv, hle⟩

omit [DecidableEq ι] in
theorem Seen.of_le (h : Seen client num tbl b) (hc : client b = client a) (hle : num a ≤ num b) :
    Seen client num tbl a := by
  obtain ⟨v, hv, hv'⟩ := h
  exact ⟨v, hc ▸ hv, Nat.le_trans hle hv'⟩

/-- The filter stops a request just when one of its client with at least its number came before. -/
theorem seen_table_iff (l : List α) (a : α) :
    Seen client num (table client num l) a ↔ ∃ b ∈ l, client b = client a ∧ num a ≤ num b := by
  induction l using List.reverseRecOn with
  | nil => simp [Seen]
  | append_singleton l c ih =>
    rw [table_concat]
    constructor
    · intro h
      rcases seen_of_seen_note h with h | h
      · obtain ⟨b, hb, hba⟩ := ih.1 h
        exact ⟨b, by simp [hb], hba⟩
      · exact ⟨c, by simp, h⟩
    · rintro ⟨b, hb, hba⟩
      rcases List.mem_append.1 hb with hb | hb
      · exact (ih.2 ⟨b, hb, hba⟩).note c
      · obtain rfl : b = c := by simpa using hb
        exact (seen_note_self _ b).of_le hba.1 hba.2

theorem passedFrom_append (tbl : ι → Option ℕ) (l l' : List α) :
    passedFrom client num tbl (l ++ l') =
      passedFrom client num tbl l ++ passedFrom client num (l.foldl (note client num) tbl) l' := by
  induction l generalizing tbl with
  | nil => rfl
  | cons a l ih => simp [passedFrom, ih]

theorem passed_concat (l : List α) (a : α) :
    passed client num (l ++ [a]) =
      passed client num l ++ if Seen client num (table client num l) a then [] else [a] := by
  unfold passed
  rw [passedFrom_append]
  simp only [passedFrom, List.append_nil]
  rfl

theorem mem_of_mem_passedFrom {l : List α} (h : a ∈ passedFrom client num tbl l) : a ∈ l := by
  induction l generalizing tbl with
  | nil => exact h
  | cons b l ih =>
    unfold passedFrom at h
    rcases List.mem_append.1 h with h | h
    · split_ifs at h
      · simp at h
      · simp [List.mem_singleton.1 h]
    · exact List.mem_cons_of_mem _ (ih h)

theorem Seen.not_mem_passedFrom (h : Seen client num tbl a) (l : List α) :
    a ∉ passedFrom client num tbl l := by
  induction l generalizing tbl with
  | nil => simp [passedFrom]
  | cons b l ih =>
    intro hmem
    unfold passedFrom at hmem
    rcases List.mem_append.1 hmem with hmem | hmem
    · split_ifs at hmem with hb
      · simp at hmem
      · rw [List.mem_singleton.1 hmem] at h
        exact hb h
    · exact ih (h.note b) hmem

/-- Of the repetitions of a request only the first may pass. -/
theorem count_passed [DecidableEq α] {l₁ : List α} (h : a ∉ l₁) (l₂ : List α) :
    (passed client num (l₁ ++ a :: l₂)).count a =
      if Seen client num (table client num l₁) a then 0 else 1 := by
  have hbefore : (passed client num l₁).count a = 0 :=
    List.count_eq_zero.2 fun hmem => h (mem_of_mem_passedFrom hmem)
  have hafter : (passedFrom client num (note client num (table client num l₁) a) l₂).count a = 0 :=
    List.count_eq_zero.2 ((seen_note_self _ a).not_mem_passedFrom l₂)
  have hsplit : passed client num (l₁ ++ a :: l₂) = passed client num l₁ ++
      ((if Seen client num (table client num l₁) a then [] else [a]) ++
        passedFrom client num (note client num (table client num l₁) a) l₂) :=
    passedFrom_append _ l₁ (a :: l₂)
  rw [hsplit, List.count_append, List.count_append, hbefore, hafter]
  split_ifs <;> simp

theorem count_passed_eq_one_iff [DecidableEq α] {l₁ : List α} (h : a ∉ l₁) (l₂ : List α) :
    (passed client num (l₁ ++ a :: l₂)).count a = 1 ↔
      ∀ b ∈ l₁, client b = client a → num b < num a := by
  rw [count_passed h]
  split_ifs with hseen
  · obtain ⟨b, hb, hc, hle⟩ := (seen_table_iff l₁ a).1 hseen
    refine ⟨nofun, fun hlt => ?_⟩
    have := hlt b hb hc
    omega
  · refine ⟨fun _ b hb hc => ?_, fun _ => rfl⟩
    by_contra hle
    exact hseen ((seen_table_iff l₁ a).2 ⟨b, hb, hc, by omega⟩)

theorem exists_of_mem_table {l : List α} {i : ι} {v : ℕ} (h : v ∈ table client num l i) :
    ∃ a ∈ l, client a = i ∧ num a = v := by
  induction l using List.reverseRecOn with
  | nil => simp at h
  | append_singleton l c ih =>
    rw [table_concat] at h
    unfold note at h
    split_ifs at h with hseen
    · obtain ⟨a, ha, hav⟩ := ih h
      exact ⟨a, by simp [ha], hav⟩
    · by_cases hi : i = client c
      · subst hi
        exact ⟨c, by simp, rfl, by simpa using h⟩
      · rw [Function.update_of_ne hi] at h
        obtain ⟨a, ha, hav⟩ := ih h
        exact ⟨a, by simp [ha], hav⟩

/-- The table has the largest number that came of each client. -/
theorem mem_table_iff {l : List α} {i : ι} {v : ℕ} :
    v ∈ table client num l i ↔
      (∃ a ∈ l, client a = i ∧ num a = v) ∧ ∀ a ∈ l, client a = i → num a ≤ v := by
  have hseen : ∀ a ∈ l, ∃ w ∈ table client num l (client a), num a ≤ w := fun a ha =>
    (seen_table_iff l a).2 ⟨a, ha, rfl, le_rfl⟩
  constructor
  · refine fun h => ⟨exists_of_mem_table h, ?_⟩
    rintro a ha rfl
    obtain ⟨w, hw, hle⟩ := hseen a ha
    rwa [Option.mem_unique h hw]
  · rintro ⟨⟨a, ha, rfl, rfl⟩, hmax⟩
    obtain ⟨w, hw, hle⟩ := hseen a ha
    obtain ⟨b, hb, hc, rfl⟩ := exists_of_mem_table hw
    rwa [Nat.le_antisymm hle (hmax b hb hc)]

/-! ## The requests without repetitions -/

theorem exists_mem_firsts {l : List α} (h : a ∈ l) :
    ∃ b ∈ firsts client num l, client b = client a ∧ num b = num a := by
  induction l with
  | nil => simp at h
  | cons c l ih =>
    by_cases hc : client c = client a ∧ num c = num a
    · exact ⟨c, List.mem_cons_self, hc⟩
    · have hne : a ≠ c := by
        rintro rfl
        exact hc ⟨rfl, rfl⟩
      obtain ⟨b, hb, hba⟩ := ih ((List.mem_cons.1 h).resolve_left hne)
      refine ⟨b, List.mem_cons_of_mem _ (List.mem_filter.2 ⟨hb, ?_⟩), hba⟩
      exact decide_eq_true fun hbc => hc ⟨hbc.1.symm.trans hba.1, hbc.2.symm.trans hba.2⟩

theorem firsts_concat (l : List α) (a : α) :
    firsts client num (l ++ [a]) = firsts client num l ++
      if ∃ b ∈ l, client b = client a ∧ num b = num a then [] else [a] := by
  induction l with
  | nil => simp [firsts]
  | cons c l ih =>
    rw [List.cons_append, firsts, ih, List.filter_append, firsts, List.cons_append]
    congr 2
    have hex : (∃ b ∈ c :: l, client b = client a ∧ num b = num a) ↔
        (client c = client a ∧ num c = num a) ∨ ∃ b ∈ l, client b = client a ∧ num b = num a := by
      simp
    by_cases hc : client c = client a ∧ num c = num a
    · have hpos := hex.2 (.inl hc)
      split_ifs <;> simp [hc]
    · have hca : ¬ (client a = client c ∧ num a = num c) := fun h => hc ⟨h.1.symm, h.2.symm⟩
      rw [or_iff_right hc] at hex
      simp only [hex]
      split_ifs
      · rfl
      · exact List.filter_cons_of_pos (decide_eq_true hca)

/-- Where every client numbers its requests in the order they first come, exactly the repetitions
are stopped. -/
theorem passed_eq_firsts {l : List α}
    (h : (firsts client num l).Pairwise fun a b => client a = client b → num a < num b) :
    passed client num l = firsts client num l := by
  induction l using List.reverseRecOn with
  | nil => rfl
  | append_singleton l a ih =>
    rw [firsts_concat] at h ⊢
    have hl := List.pairwise_append.1 h
    rw [passed_concat, ih hl.1]
    congr 1
    refine if_congr ?_ rfl rfl
    rw [seen_table_iff]
    constructor
    · rintro ⟨b, hb, hc, hle⟩
      by_contra hnew
      -- a new request has a larger number than all before it
      obtain ⟨d, hd, hdc, hdn⟩ : ∃ d ∈ firsts client num _, _ ∧ _ := exists_mem_firsts hb
      rw [if_neg hnew] at hl
      have := hl.2.2 d hd a List.mem_cons_self (hdc.trans hc)
      omega
    · rintro ⟨b, hb, hc, hn⟩
      exact ⟨b, hb, hc, Nat.le_of_eq hn.symm⟩

end Dedup
