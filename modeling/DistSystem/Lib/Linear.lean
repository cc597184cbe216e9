import Mathlib.Data.Finset.Lattice.Fold
import Mathlib.Data.List.Nodup

/-!
# Linearizability

Calls on an object overlap in time. They are linearizable if there is an order of them that puts a
call before all those that began after it had returned, and in which the object, serving one request
after another, gives the replies that the calls have got (`Object.Linearizes`). To show it, give
every call a place in a line of states of the object such that it takes effect there: then the order
of the places is one (`Object.Places.exists_linearizes`). Calls that leave the state as it is may
share a place.
-/

namespace Linear

variable {σ α ρ ι : Type*}

/-- An object that serves one request after another. -/
structure Object (σ α ρ : Type*) where
  init : σ
  step : σ → α → σ × ρ

/-- What is seen of calls: those that have begun have a request, and those that have returned have a
reply. -/
structure History (ι α ρ : Type*) where
  request : ι → Option α
  reply : ι → Option ρ
  /-- The first call had returned when the second began. -/
  before : ι → ι → Prop

namespace Object

variable (o : Object σ α ρ) (H : History ι α ρ)

/-- The object can serve `i`, and this takes it from one state to another. -/
def Serves (s : σ) (i : ι) (s' : σ) : Prop :=
  ∃ a, H.request i = some a ∧ (o.step s a).1 = s' ∧ ∀ r, H.reply i = some r → (o.step s a).2 = r

/-- The object can serve the calls of a list, one after another. -/
inductive Runs : σ → List ι → σ → Prop
  | nil (s : σ) : Runs s [] s
  | cons {s s₁ s₂ : σ} {i : ι} {l : List ι} (h : o.Serves H s i s₁) (hl : Runs s₁ l s₂) :
    Runs s (i :: l) s₂

/-- The calls of the list, in this order, are what was seen. -/
structure Linearizes (l : List ι) : Prop where
  nodup : l.Nodup
  replied : ∀ i, H.reply i ≠ none → i ∈ l
  order : l.Pairwise fun i j => ¬ H.before j i
  legal : ∃ s, o.Runs H o.init l s

/-- The calls have places in a line of states: one that changes the state is alone at its place. -/
structure Places (calls : List ι) (place : ι → ℕ) (state : ℕ → σ) : Prop where
  nodup : calls.Nodup
  replied : ∀ i, H.reply i ≠ none → i ∈ calls
  before : ∀ i ∈ calls, ∀ j ∈ calls, H.before i j → place i < place j
  init : state 0 = o.init
  serves : ∀ i ∈ calls, o.Serves H (state (place i)) i (state (place i + 1))
  changes : ∀ m, state (m + 1) ≠ state m →
    ∃ i ∈ calls, place i = m ∧ ∀ j ∈ calls, place j = m → j = i

variable {o H}

theorem Runs.append {s s₁ s₂ : σ} {l l' : List ι} (h : o.Runs H s l s₁) (h' : o.Runs H s₁ l' s₂) :
    o.Runs H s (l ++ l') s₂ := by
  induction h with
  | nil => exact h'
  | cons hi _ ih => exact .cons hi (ih h')

theorem runs_of_forall {s : σ} {l : List ι} (h : ∀ i ∈ l, o.Serves H s i s) : o.Runs H s l s := by
  induction l with
  | nil => exact .nil s
  | cons i l ih =>
    exact .cons (h i List.mem_cons_self) (ih fun j hj => h j (List.mem_cons_of_mem _ hj))

theorem Runs.congr {H' : History ι α ρ} (hreq : H'.request = H.request)
    (hrep : H'.reply = H.reply) {s s' : σ} {l : List ι} (h : o.Runs H s l s') :
    o.Runs H' s l s' := by
  induction h with
  | nil s => exact .nil s
  | cons hi _ ih =>
    unfold Serves at hi
    rw [← hreq, ← hrep] at hi
    exact .cons hi ih

/-- An order of the calls is one also when less is known about when they were. -/
theorem Linearizes.mono {H' : History ι α ρ} {l : List ι} (h : o.Linearizes H l)
    (hreq : H'.request = H.request) (hrep : H'.reply = H.reply)
    (hbefore : ∀ i j, H'.before i j → H.before i j) : o.Linearizes H' l := by
  obtain ⟨s, hs⟩ := h.legal
  exact ⟨h.nodup, fun i hi => h.replied i (hrep ▸ hi),
    h.order.imp fun hij hb => hij (hbefore _ _ hb), s, hs.congr hreq hrep⟩

/-- The calls by their places, up to one. -/
def sorted (calls : List ι) (place : ι → ℕ) (k : ℕ) : List ι :=
  (List.range k).flatMap fun m => calls.filter fun i => place i = m

variable {calls : List ι} {place : ι → ℕ} {state : ℕ → σ}

theorem mem_sorted {k : ℕ} {i : ι} : i ∈ sorted calls place k ↔ i ∈ calls ∧ place i < k := by
  simp [sorted, and_comm]

theorem sorted_succ (k : ℕ) :
    sorted calls place (k + 1) = sorted calls place k ++ calls.filter fun i => place i = k := by
  simp [sorted, List.range_succ]

theorem pairwise_sorted (k : ℕ) :
    (sorted calls place k).Pairwise fun i j => place i ≤ place j := by
  induction k with
  | zero => exact List.Pairwise.nil
  | succ k ih =>
    have hk : ∀ i ∈ calls.filter (fun i => place i = k), place i = k := fun i hi =>
      of_decide_eq_true (List.mem_filter.mp hi).2
    rw [sorted_succ]
    refine List.pairwise_append.mpr ⟨ih, ?_, fun i hi j hj => ?_⟩
    · exact List.pairwise_of_forall_mem_list fun i hi j hj => (hk i hi).trans_le (hk j hj).ge
    · exact (mem_sorted.mp hi).2.le.trans (hk j hj).ge

namespace Places

/-- The calls at one place. -/
theorem runs_place (h : o.Places H calls place state) (k : ℕ) :
    o.Runs H (state k) (calls.filter fun i => place i = k) (state (k + 1)) := by
  have hserves : ∀ i ∈ calls.filter (fun i => place i = k),
      o.Serves H (state k) i (state (k + 1)) := by
    intro i hi
    obtain ⟨hmem, hk⟩ := List.mem_filter.mp hi
    obtain rfl := of_decide_eq_true hk
    exact h.serves i hmem
  by_cases hk : state (k + 1) = state k
  · rw [hk] at hserves ⊢
    exact runs_of_forall hserves
  · obtain ⟨i, hi, hik, hone⟩ := h.changes k hk
    have hmem : i ∈ calls.filter fun i => place i = k := by simp [hi, hik]
    have honly : ∀ j ∈ calls.filter (fun i => place i = k), j = i := by
      intro j hj
      obtain ⟨hj, hjk⟩ := List.mem_filter.mp hj
      exact hone j hj (of_decide_eq_true hjk)
    have hnodup := h.nodup.filter fun i => place i = k
    -- a list without repetitions that has one element only
    rcases hl : calls.filter (fun i => place i = k) with _ | ⟨j, _ | ⟨j', l⟩⟩
    · simp [hl] at hmem
    · exact .cons (hserves j (by simp [hl])) (.nil _)
    · rw [hl] at honly hnodup
      have hjj : j = j' := (honly j (by simp)).trans (honly j' (by simp)).symm
      simp [hjj] at hnodup

theorem runs_sorted (h : o.Places H calls place state) (k : ℕ) :
    o.Runs H o.init (sorted calls place k) (state k) := by
  induction k with
  | zero =>
    rw [← h.init]
    exact .nil _
  | succ k ih =>
    rw [sorted_succ]
    exact ih.append (h.runs_place k)

theorem nodup_sorted (h : o.Places H calls place state) (k : ℕ) :
    (sorted calls place k).Nodup := by
  induction k with
  | zero => exact List.nodup_nil
  | succ k ih =>
    rw [sorted_succ]
    refine List.nodup_append.mpr ⟨ih, h.nodup.filter _, fun i hi j hj hij => ?_⟩
    subst hij
    have hlt := (mem_sorted.mp hi).2
    have hk := of_decide_eq_true (List.mem_filter.mp hj).2
    omega

theorem order_sorted (h : o.Places H calls place state) (k : ℕ) :
    (sorted calls place k).Pairwise fun i j => ¬ H.before j i := by
  refine (pairwise_sorted k).imp_of_mem fun hi hj hle hji => ?_
  have hlt := h.before _ (mem_sorted.mp hj).1 _ (mem_sorted.mp hi).1 hji
  omega

/-- Calls with places are linearizable. -/
theorem exists_linearizes (h : o.Places H calls place state) : ∃ l, o.Linearizes H l := by
  classical
  have hbound : ∀ i ∈ calls, place i < calls.toFinset.sup place + 1 := by
    intro i hi
    exact Nat.lt_succ_of_le (Finset.le_sup (f := place) (List.mem_toFinset.mpr hi))
  refine ⟨sorted calls place (calls.toFinset.sup place + 1), h.nodup_sorted _, fun i hi => ?_,
    h.order_sorted _, _, h.runs_sorted _⟩
  exact mem_sorted.mpr ⟨h.replied i hi, hbound i (h.replied i hi)⟩

end Places

end Object

end Linear
