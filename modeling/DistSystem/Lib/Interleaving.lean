import Mathlib.Algebra.Order.Group.Multiset
import Mathlib.Data.Finset.Card
import Mathlib.Data.Finset.Range
import Mathlib.Data.List.Induction

/-!
# Interleaved threads

A system of threads takes one step after another, each with a label that says whose step it is; a
label that is not possible in a state has no step (`runs`). A property of the labels so far and the
state they lead to is an invariant if every step keeps it (`runs_induction`). Next to it, counting
the threads that are at some place (`tally`), and a lock with the threads that are inside
(`Guarded`).
-/

namespace DistSystem.Interleaving

/-! ## Runs -/

section Runs

variable {S E : Type*} {step : E → S → Option S} {s s' : S} {t t' : List E} {e : E}

/-- The state after the labels `t`, if all of them were possible. -/
def runs (step : E → S → Option S) (s : S) (t : List E) : Option S :=
  t.foldlM (fun s e => step e s) s

theorem runs_append : runs step s (t ++ t') = (runs step s t).bind fun s' => runs step s' t' := by
  simp [runs, List.foldlM_append]

theorem runs_concat : runs step s (t ++ [e]) = (runs step s t).bind (step e) := by
  simp [runs, List.foldlM_append]

theorem runs_trans {s₁ : S} (h : runs step s t = some s₁) (h' : runs step s₁ t' = some s') :
    runs step s (t ++ t') = some s' := by
  rw [runs_append, h]
  exact h'

theorem runs_cons {s₁ : S} (h : step e s = some s₁) (h' : runs step s₁ t = some s') :
    runs step s (e :: t) = some s' := by
  simpa [runs, h] using h'

/-- The state in the middle of a run. -/
theorem runs_split (h : runs step s (t ++ e :: t') = some s') :
    ∃ s₁ s₂, runs step s t = some s₁ ∧ step e s₁ = some s₂ ∧ runs step s₂ t' = some s' := by
  rw [runs_append, Option.bind_eq_some_iff] at h
  obtain ⟨s₁, h₁, h₂⟩ := h
  simp only [runs, List.foldlM_cons, Option.bind_eq_bind, Option.bind_eq_some_iff] at h₂
  obtain ⟨s₂, h₂, h₃⟩ := h₂
  exact ⟨s₁, s₂, h₁, h₂, h₃⟩

theorem runs_induction {P : List E → S → Prop} (hinit : P [] s)
    (hstep : ∀ t s₁ e s₂, runs step s t = some s₁ → P t s₁ → step e s₁ = some s₂ → P (t ++ [e]) s₂)
    (h : runs step s t = some s') : P t s' := by
  induction t using List.reverseRecOn generalizing s' with
  | nil =>
    obtain rfl := Option.some.inj h
    exact hinit
  | append_singleton t e ih =>
    rw [runs_concat, Option.bind_eq_some_iff] at h
    obtain ⟨s₁, h₁, h₂⟩ := h
    exact hstep t s₁ e s' h₁ (ih h₁) h₂

/-- A place in `t` and one more label. -/
theorem concat_eq_append_cons {t₁ t₂ : List E} {a : E} (h : t ++ [e] = t₁ ++ a :: t₂) :
    t₂ = [] ∧ t = t₁ ∧ e = a ∨ ∃ t₃, t₂ = t₃ ++ [e] ∧ t = t₁ ++ a :: t₃ := by
  rcases List.eq_nil_or_concat t₂ with rfl | ⟨t₃, e', rfl⟩
  · obtain ⟨rfl, he⟩ := List.append_inj' h rfl
    exact .inl ⟨rfl, rfl, List.singleton_inj.mp he⟩
  · rw [List.concat_eq_append, ← List.cons_append, ← List.append_assoc] at h
    obtain ⟨rfl, he⟩ := List.append_inj' h rfl
    obtain rfl := List.singleton_inj.mp he
    exact .inr ⟨t₃, List.concat_eq_append, rfl⟩

/-- `P` at each step of a run, with the labels before it. -/
def AtEach (step : E → S → Option S) (s : S) (P : List E → S → E → Prop) (t : List E) : Prop :=
  ∀ t₁ e t₂ s₁, t = t₁ ++ e :: t₂ → runs step s t₁ = some s₁ → P t₁ s₁ e

theorem atEach_nil {P : List E → S → E → Prop} : AtEach step s P [] := by
  intro t₁ e t₂ s₁ h
  simp at h

theorem AtEach.left {P : List E → S → E → Prop} (h : AtEach step s P (t ++ t')) :
    AtEach step s P t :=
  fun t₁ e t₂ s₁ ht => h t₁ e (t₂ ++ t') s₁ (by simp [ht])

theorem atEach_of_take {P : List E → S → E → Prop}
    (h : ∀ i, (hi : i < t.length) → ∀ s₁ ∈ runs step s (t.take i), P (t.take i) s₁ t[i]) :
    AtEach step s P t := by
  rintro t₁ e t₂ s₁ rfl h₁
  simpa [h₁] using h t₁.length (by simp)

theorem atEach_concat {P : List E → S → E → Prop} (h : runs step s t = some s') :
    AtEach step s P (t ++ [e]) ↔ AtEach step s P t ∧ P t s' e := by
  constructor
  · intro hat
    exact ⟨hat.left, hat t e [] s' rfl h⟩
  · rintro ⟨hat, hP⟩ t₁ e₁ t₂ s₁ ht h₁
    rcases concat_eq_append_cons ht with ⟨-, rfl, rfl⟩ | ⟨t₃, -, ht⟩
    · obtain rfl := Option.some.inj (h.symm.trans h₁)
      exact hP
    · exact hat t₁ e₁ t₃ s₁ ht h₁

/-- Two properties that say the same of a step if the first has held before are the same of a
run. -/
theorem atEach_iff {P Q : List E → S → E → Prop} (h : runs step s t = some s')
    (hiff : ∀ t₁ e t₂ s₁ s₂, t = t₁ ++ e :: t₂ → runs step s t₁ = some s₁ → step e s₁ = some s₂ →
      AtEach step s P t₁ → (P t₁ s₁ e ↔ Q t₁ s₁ e)) :
    AtEach step s P t ↔ AtEach step s Q t := by
  induction t using List.reverseRecOn generalizing s' with
  | nil => exact iff_of_true atEach_nil atEach_nil
  | append_singleton t e ih =>
    rw [runs_concat, Option.bind_eq_some_iff] at h
    obtain ⟨s₁, h₁, h₂⟩ := h
    rw [atEach_concat h₁, atEach_concat h₁, ← ih h₁ fun t₁ e₁ t₂ s₃ s₄ ht =>
      hiff t₁ e₁ (t₂ ++ [e]) s₃ s₄ (by simp [ht])]
    exact and_congr_right fun hat => hiff t e [] s₁ s' rfl h₁ h₂ hat

/-- `P` at some step of a run, with the labels before it. -/
def Past (step : E → S → Option S) (s : S) (P : List E → S → E → Prop) (t : List E) : Prop :=
  ∃ t₁ e t₂ s₁, t = t₁ ++ e :: t₂ ∧ runs step s t₁ = some s₁ ∧ P t₁ s₁ e

theorem Past.append {P : List E → S → E → Prop} (h : Past step s P t) (t' : List E) :
    Past step s P (t ++ t') := by
  obtain ⟨t₁, e₁, t₂, s₁, rfl, h₁, hP⟩ := h
  exact ⟨t₁, e₁, t₂ ++ t', s₁, by simp, h₁, hP⟩

theorem Past.concat {P : List E → S → E → Prop} (h : Past step s P t) (e : E) :
    Past step s P (t ++ [e]) :=
  h.append [e]

theorem past_concat {P : List E → S → E → Prop} (h : runs step s t = some s') (hP : P t s' e) :
    Past step s P (t ++ [e]) :=
  ⟨t, e, [], s', rfl, h, hP⟩

/-- What was past at a past step is past. -/
theorem Past.join {P : List E → S → E → Prop} (h : Past step s (fun t₁ _ _ => Past step s P t₁) t) :
    Past step s P t := by
  obtain ⟨t₁, e, t₂, s₁, rfl, -, hP⟩ := h
  exact hP.append (e :: t₂)

theorem Past.mono {P Q : List E → S → E → Prop} (h : Past step s P t)
    (hPQ : ∀ t₁ s₁ e, P t₁ s₁ e → Q t₁ s₁ e) : Past step s Q t := by
  obtain ⟨t₁, e, t₂, s₁, ht, h₁, hP⟩ := h
  exact ⟨t₁, e, t₂, s₁, ht, h₁, hPQ t₁ s₁ e hP⟩

/-- The last label of a kind. -/
theorem exists_last {p : E → Prop} (h : ∃ e ∈ t, p e) :
    ∃ t₁ e t₂, t = t₁ ++ e :: t₂ ∧ p e ∧ ∀ e' ∈ t₂, ¬ p e' := by
  induction t using List.reverseRecOn with
  | nil => simp at h
  | append_singleton t a ih =>
    by_cases ha : p a
    · exact ⟨t, a, [], rfl, ha, by simp⟩
    · obtain ⟨e, he, hp⟩ := h
      have he' : e ∈ t := by
        rcases List.mem_append.mp he with he | he
        · exact he
        · exact absurd (List.mem_singleton.mp he ▸ hp) ha
      obtain ⟨t₁, e₁, t₂, rfl, hp₁, hlast⟩ := ih ⟨e, he', hp⟩
      refine ⟨t₁, e₁, t₂ ++ [a], by simp, hp₁, fun e' he' => ?_⟩
      rcases List.mem_append.mp he' with he' | he'
      · exact hlast e' he'
      · exact List.mem_singleton.mp he' ▸ ha

end Runs

/-! ## Threads in a list -/

section Threads

variable {α : Type*} {l : List α} {a b : α} {i : ℕ}

/-- A thread of a list with a new one is an old one, or the new one. -/
theorem of_getElem?_concat (h : (l ++ [a])[i]? = some b) :
    l[i]? = some b ∨ i = l.length ∧ a = b := by
  rw [List.getElem?_append] at h
  split_ifs at h with hlt
  · exact .inl h
  · obtain ⟨hi, hb⟩ := List.getElem?_eq_some_iff.mp h
    have hi0 : i - l.length = 0 := by simpa using hi
    exact .inr ⟨by omega, by simpa [hi0] using hb⟩

theorem getElem?_concat_of_some (h : l[i]? = some b) : (l ++ [a])[i]? = some b := by
  rw [List.getElem?_append_left (List.getElem?_eq_some_iff.mp h).1, h]

theorem coe_eraseIdx (h : l[i]? = some a) :
    (l : Multiset α) = a ::ₘ (l.eraseIdx i : Multiset α) := by
  obtain ⟨hi, rfl⟩ := List.getElem?_eq_some_iff.mp h
  exact (Multiset.coe_eq_coe.mpr (List.getElem_cons_eraseIdx_perm hi)).symm

/-- A part of what is in a list with an element that is to be taken out. -/
theorem exists_eraseIdx {P : Multiset α} (h : a ::ₘ P ≤ l) :
    ∃ i : ℕ, l[i]? = some a ∧ P ≤ (l.eraseIdx i : Multiset α) := by
  have ha : a ∈ l := Multiset.mem_of_le h (Multiset.mem_cons_self a P)
  obtain ⟨i, hi⟩ := List.mem_iff_getElem?.mp ha
  refine ⟨i, hi, ?_⟩
  rw [coe_eraseIdx hi] at h
  exact (Multiset.cons_le_cons_iff a).mp h

/-- What the threads have together after one of them has moved. -/
theorem coe_flatMap_set {β : Type*} (f : α → List β) (h : l[i]? = some a) :
    ((l.set i b).flatMap f : Multiset β) + f a = l.flatMap f + f b := by
  induction l generalizing i with
  | nil => simp at h
  | cons c l ih =>
    cases i with
    | zero =>
      obtain rfl : c = a := by simpa using h
      simp only [List.set_cons_zero, List.flatMap_cons, ← Multiset.coe_add]
      ac_rfl
    | succ i =>
      have ih := ih (i := i) (by simpa using h)
      simp only [List.set_cons_succ, List.flatMap_cons, ← Multiset.coe_add]
      rw [add_assoc, ih, add_assoc]

end Threads

/-! ## Scripts -/

section Scripts

variable {V O : Type*} {exec : O → V → Option V} {pre : O → V → Prop} {I P Q : V → Prop}
  {ops ops' : List O} {v : V}

/-- The operations from `v` on, as far as they are possible: each is called for, and keeps `I`, and
`P` holds after the last. A thread that goes through them can be interleaved with others that change
nothing it can see. -/
def Safe (exec : O → V → Option V) (pre : O → V → Prop) (I P : V → Prop) : List O → V → Prop
  | [], v => P v
  | op :: ops, v => pre op v ∧ ∀ v', exec op v = some v' → I v' ∧ Safe exec pre I P ops v'

theorem Safe.mono (h : Safe exec pre I P ops v) (hPQ : ∀ v, P v → Q v) :
    Safe exec pre I Q ops v := by
  induction ops generalizing v with
  | nil => exact hPQ v h
  | cons op ops ih => exact ⟨h.1, fun v' hv' => ⟨(h.2 v' hv').1, ih (h.2 v' hv').2⟩⟩

theorem Safe.append (h : Safe exec pre I (Safe exec pre I P ops') ops v) :
    Safe exec pre I P (ops ++ ops') v := by
  induction ops generalizing v with
  | nil => exact h
  | cons op ops ih => exact ⟨h.1, fun v' hv' => ⟨(h.2 v' hv').1, ih (h.2 v' hv').2⟩⟩

/-- An invariant of a loop, with what is done so far. -/
theorem safe_flatMap {α : Type*} {body : α → List O} {J : List α → V → Prop} {l : List α}
    (hbody : ∀ done, ∀ a ∈ l, ∀ v, J done v → Safe exec pre I (J (done ++ [a])) (body a) v)
    (h : J [] v) : Safe exec pre I (J l) (l.flatMap body) v := by
  suffices ∀ done v, J done v → Safe exec pre I (J (done ++ l)) (l.flatMap body) v from this [] v h
  induction l with
  | nil =>
    intro done v h
    rwa [List.append_nil]
  | cons a l ih =>
    intro done v h
    refine Safe.append ((hbody done a List.mem_cons_self v h).mono fun v' hv' => ?_)
    rw [List.append_cons]
    exact ih (fun done b hb => hbody done b (List.mem_cons_of_mem a hb)) (done ++ [a]) v' hv'

end Scripts

/-! ## Counting -/

section Tally

variable {α : Type*} {p : α → Prop} [DecidablePred p] {N i : ℕ} {f : ℕ → α} {a : α}

/-- The number of threads below `N` at a place in `p`. -/
def tally (p : α → Prop) [DecidablePred p] (N : ℕ) (f : ℕ → α) : ℕ :=
  ((Finset.range N).filter fun i => p (f i)).card

theorem tally_eq_zero : tally p N f = 0 ↔ ∀ i < N, ¬ p (f i) := by
  simp [tally, Finset.filter_eq_empty_iff]

theorem tally_enter (hi : i < N) (h : ¬ p (f i)) (ha : p a) :
    tally p N (Function.update f i a) = tally p N f + 1 := by
  have hins : (Finset.range N).filter (fun j => p (Function.update f i a j)) =
      insert i ((Finset.range N).filter fun j => p (f j)) := by
    ext j
    by_cases hj : j = i
    · subst hj
      simp [hi, ha]
    · simp [hj]
  rw [tally, hins, Finset.card_insert_of_notMem (by simp [h]), tally]

theorem tally_leave (hi : i < N) (h : p (f i)) (ha : ¬ p a) :
    tally p N (Function.update f i a) = tally p N f - 1 := by
  have hback := tally_enter (p := p) (f := Function.update f i a) (a := f i) hi
    (by simpa using ha) h
  rw [Function.update_idem, Function.update_eq_self] at hback
  omega

theorem tally_stay (h : p (f i) ↔ p a) : tally p N (Function.update f i a) = tally p N f := by
  unfold tally
  congr 1
  refine Finset.filter_congr fun j _ => ?_
  by_cases hj : j = i
  · subst hj
    simp [h]
  · simp [hj]

/-- One thread moves. -/
theorem tally_update (hi : i < N) : tally p N (Function.update f i a) + (if p (f i) then 1 else 0) =
    tally p N f + if p a then 1 else 0 := by
  by_cases h : p (f i) <;> by_cases ha : p a
  · simp [h, ha, tally_stay (p := p) (f := f) (i := i) (a := a) (by simp [h, ha])]
  · have hpos : tally p N f ≠ 0 := fun h0 => tally_eq_zero.mp h0 i hi h
    simp only [h, ha, if_true, if_false, tally_leave hi h ha]
    omega
  · simp [h, ha, tally_enter hi h ha]
  · simp [h, ha, tally_stay (p := p) (f := f) (i := i) (a := a) (by simp [h, ha])]

end Tally

/-! ## A lock -/

section Lock

variable {T : Type*} {mu : Option T} {inside inside' : T → Bool} {y : T}

/-- Just the thread that has the lock is inside. -/
def Guarded (mu : Option T) (inside : T → Bool) : Prop := ∀ x, mu = some x ↔ inside x = true

theorem Guarded.congr (h : Guarded mu inside) (hin : ∀ x, inside' x = inside x) :
    Guarded mu inside' := fun x => by
  rw [hin]
  exact h x

variable [DecidableEq T]

theorem Guarded.lock (h : Guarded none inside)
    (hin : ∀ x, inside' x = if x = y then true else inside x) : Guarded (some y) inside' := by
  intro x
  rw [hin]
  split_ifs with hx
  · simp [hx]
  · rw [← h x]
    simp [Ne.symm hx]

/-- With the thread that was inside the lock is free. -/
theorem Guarded.unlock (h : Guarded mu inside) (hy : inside y = true)
    (hin : ∀ x, inside' x = if x = y then false else inside x) : Guarded none inside' := by
  intro x
  rw [hin]
  split_ifs with hx
  · simp
  · rw [← h x, (h y).mpr hy]
    simp [Ne.symm hx]

end Lock

end DistSystem.Interleaving
