import Mathlib.Data.List.Basic

/-!
# Computations that can fail

What follows from a computation in `Except` having a result: so had each part of it. A loop that can
fail is a `foldlM`; its last round is taken off with `foldlM_concat`.
-/

namespace DistSystem

section Loop

variable {m : Type → Type} [Monad m] [LawfulMonad m] {α β : Type}

theorem foldlM_concat (f : β → α → m β) (l : List α) (a : α) (b : β) :
    (l ++ [a]).foldlM f b = l.foldlM f b >>= fun b => f b a := by
  simp [List.foldlM_append]

end Loop

section Result

variable {ε α β : Type} {x : Except ε α} {b : β}

theorem bind_eq_ok {f : α → Except ε β} : x >>= f = .ok b ↔ ∃ a, x = .ok a ∧ f a = .ok b := by
  cases x with
  | error e => simp [bind, Except.bind]
  | ok a => simp [bind, Except.bind]

theorem map_eq_ok {f : α → β} (h : x.map f = .ok b) : ∃ a, x = .ok a ∧ f a = b := by
  cases x with
  | error e => cases h
  | ok a => exact ⟨a, rfl, Except.ok.inj h⟩

theorem mapM_eq_map {f : α → Except ε β} {g : α → β} :
    ∀ {l : List α}, (∀ a ∈ l, f a = .ok (g a)) → l.mapM f = .ok (l.map g)
  | [], _ => rfl
  | a :: l, h => by
    rw [List.mapM_cons, h a List.mem_cons_self,
      mapM_eq_map fun b hb => h b (List.mem_cons_of_mem _ hb)]
    rfl

theorem mapM_eq_ok {f : α → Except ε β} :
    ∀ {l : List α} {bs : List β}, l.mapM f = .ok bs → ∀ b ∈ bs, ∃ a ∈ l, f a = .ok b
  | [], bs, h, b, hb => by
    cases h
    simp at hb
  | a :: l, bs, h, b, hb => by
    simp only [List.mapM_cons, bind_eq_ok] at h
    obtain ⟨b₀, h0, bs₀, h1, h2⟩ := h
    cases h2
    rcases List.mem_cons.1 hb with rfl | hb
    · exact ⟨a, List.mem_cons_self, h0⟩
    · obtain ⟨a', ha', hb'⟩ := mapM_eq_ok h1 b hb
      exact ⟨a', List.mem_cons_of_mem _ ha', hb'⟩

end Result

end DistSystem
