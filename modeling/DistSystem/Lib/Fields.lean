import Mathlib.Data.List.Induction

/-!
# Fields of a list

The maximal runs of elements with a property, cut out in one pass over the list (`fields`), are the
pieces that cannot be made longer on either side (`mem_fields`), each as often as it is there and in
the order of the list (`split_iff`).
-/

namespace DistSystem.Fields

variable {α β : Type*} {p : α → Bool} {l w : List α} {x : α}

/-! ## Maximal runs -/

/-- A run of elements with `p` can begin after `l`. -/
def Before (p : α → Bool) (l : List α) : Prop := ∀ x ∈ l.getLast?, p x = false

/-- `w` is a run at the end of `l`, as long as it can be to the left. -/
def Ending (p : α → Bool) (l w : List α) : Prop :=
  ∃ l₁, l = l₁ ++ w ∧ Before p l₁ ∧ w ≠ [] ∧ ∀ x ∈ w, p x

/-- `w` is a run in `l` with an element after it that is not part of it. -/
def Ended (p : α → Bool) (l w : List α) : Prop := ∃ l₁ x l₂, l = l₁ ++ x :: l₂ ∧ p x = false ∧
  Ending p l₁ w

/-- `w` is a run in `l`, as long as it can be on both sides. -/
def MaximalRun (p : α → Bool) (l w : List α) : Prop :=
  ∃ l₁ l₂, l = l₁ ++ w ++ l₂ ∧ w ≠ [] ∧ (∀ x ∈ w, p x) ∧ Before p l₁ ∧ ∀ x ∈ l₂.head?, p x = false

theorem maximalRun_iff : MaximalRun p l w ↔ Ended p l w ∨ Ending p l w := by
  constructor
  · rintro ⟨l₁, _ | ⟨x, l₂⟩, rfl, hne, hall, hbefore, hafter⟩
    · exact .inr ⟨l₁, by simp, hbefore, hne, hall⟩
    · exact .inl ⟨l₁ ++ w, x, l₂, rfl, hafter x rfl, l₁, rfl, hbefore, hne, hall⟩
  · rintro (⟨_, x, l₂, rfl, hx, l₁, rfl, hbefore, hne, hall⟩ | ⟨l₁, rfl, hbefore, hne, hall⟩)
    · exact ⟨l₁, x :: l₂, rfl, hne, hall, hbefore, by simpa using hx⟩
    · exact ⟨l₁, [], by simp, hne, hall, hbefore, by simp⟩

theorem ended_concat : Ended p (l ++ [x]) w ↔ Ended p l w ∨ p x = false ∧ Ending p l w := by
  constructor
  · rintro ⟨l₁, y, l₂, heq, hy, hend⟩
    rcases List.eq_nil_or_concat l₂ with rfl | ⟨l₃, z, rfl⟩
    · obtain ⟨rfl, hxy⟩ := List.append_inj' heq rfl
      obtain rfl := List.singleton_inj.mp hxy
      exact .inr ⟨hy, hend⟩
    · rw [List.concat_eq_append, ← List.cons_append, ← List.append_assoc] at heq
      obtain ⟨rfl, -⟩ := List.append_inj' heq rfl
      exact .inl ⟨l₁, y, l₃, rfl, hy, hend⟩
  · rintro (⟨l₁, y, l₂, rfl, hy, hend⟩ | ⟨hx, hend⟩)
    · exact ⟨l₁, y, l₂ ++ [x], by simp, hy, hend⟩
    · exact ⟨l, x, [], rfl, hx, hend⟩

theorem ending_concat : Ending p (l ++ [x]) w ↔
    p x = true ∧ (Before p l ∧ w = [x] ∨ ∃ c, Ending p l c ∧ w = c ++ [x]) := by
  constructor
  · rintro ⟨l₁, heq, hbefore, hne, hall⟩
    obtain ⟨c, y, rfl⟩ := (List.eq_nil_or_concat w).resolve_left hne
    rw [List.concat_eq_append, ← List.append_assoc] at heq
    obtain ⟨rfl, hxy⟩ := List.append_inj' heq rfl
    obtain rfl := List.singleton_inj.mp hxy
    rw [List.concat_eq_append] at hall ⊢
    refine ⟨hall x (by simp), ?_⟩
    rcases eq_or_ne c [] with rfl | hc
    · exact .inl ⟨by simpa using hbefore, rfl⟩
    · exact .inr ⟨c, ⟨l₁, rfl, hbefore, hc, fun y hy => hall y (by simp [hy])⟩, rfl⟩
  · rintro ⟨hx, ⟨hbefore, rfl⟩ | ⟨c, ⟨l₁, rfl, hbefore, hne, hall⟩, rfl⟩⟩
    · exact ⟨l, rfl, hbefore, by simp, by simpa using hx⟩
    · refine ⟨l₁, by simp, hbefore, by simp, fun y hy => ?_⟩
      rcases List.mem_append.mp hy with hy | hy
      · exact hall y hy
      · exact List.mem_singleton.mp hy ▸ hx

/-- Runs in the image of a list. -/
theorem maximalRun_map {f : β → α} {l : List β} :
    MaximalRun p (l.map f) w ↔ ∃ v, MaximalRun (p ∘ f) l v ∧ w = v.map f := by
  constructor
  · rintro ⟨l₁, l₂, heq, hne, hall, hbefore, hafter⟩
    obtain ⟨_, v₂, rfl, hfront, rfl⟩ := List.map_eq_append_iff.mp heq
    obtain ⟨v₁, v, rfl, rfl, rfl⟩ := List.map_eq_append_iff.mp hfront
    refine ⟨v, ⟨v₁, v₂, rfl, by simpa using hne, by simpa using hall, ?_, ?_⟩, rfl⟩
    · simpa [Before] using hbefore
    · simpa using hafter
  · rintro ⟨v, ⟨v₁, v₂, rfl, hne, hall, hbefore, hafter⟩, rfl⟩
    refine ⟨v₁.map f, v₂.map f, by simp, by simpa using hne, by simpa using hall, ?_, ?_⟩
    · simpa [Before] using hbefore
    · simpa using hafter

/-! ## Cutting them out -/

/-- One more element, with the runs that have ended and the one that has not. -/
def cut (p : α → Bool) (s : List (List α) × Option (List α)) (x : α) :
    List (List α) × Option (List α) :=
  if p x then (s.1, some (s.2.getD [] ++ [x]))
  else match s.2 with
    | none => s
    | some w => (s.1 ++ [w], none)

def fields (p : α → Bool) (l : List α) : List (List α) :=
  let s := l.foldl (cut p) ([], none)
  s.1 ++ s.2.toList

/-- What is known of the runs after `l`. -/
structure Cut (p : α → Bool) (l : List α) (s : List (List α) × Option (List α)) : Prop where
  ended : ∀ w, w ∈ s.1 ↔ Ended p l w
  ending : ∀ w, s.2 = some w ↔ Ending p l w
  before : s.2 = none ↔ Before p l

theorem Cut.concat {s : List (List α) × Option (List α)} (h : Cut p l s) (x : α) :
    Cut p (l ++ [x]) (cut p s x) := by
  have hbefore : Before p (l ++ [x]) ↔ p x = false := by simp [Before]
  unfold cut
  split_ifs with hx
  · refine ⟨fun w => ?_, fun w => ?_, by simp [hbefore, hx]⟩
    · rw [ended_concat, h.ended]
      simp [hx]
    · rw [ending_concat, ← h.before]
      simp only [← h.ending, hx, true_and, Option.some.injEq]
      cases s.2 <;> simp [eq_comm]
  · have hx : p x = false := by simpa using hx
    have hnone : ∀ w, ¬ Ending p (l ++ [x]) w := fun w hw => by simp [ending_concat, hx] at hw
    cases hs : s.2 with
    | none =>
      refine ⟨fun w => ?_, fun w => ?_, by simp [hbefore, hx, hs]⟩
      · rw [ended_concat, h.ended, ← h.ending, hs]
        simp
      · simp [hs, hnone]
    | some c =>
      refine ⟨fun w => ?_, fun w => ?_, by simp [hbefore, hx]⟩
      · rw [ended_concat, ← h.ended, ← h.ending, hs]
        simp [hx, eq_comm]
      · simp [hnone]

theorem cut_foldl (p : α → Bool) (l : List α) : Cut p l (l.foldl (cut p) ([], none)) := by
  induction l using List.reverseRecOn with
  | nil => exact ⟨by simp [Ended], by simp [Ending], by simp [Before]⟩
  | append_singleton l x ih =>
    rw [List.foldl_append]
    exact ih.concat x

theorem mem_fields : w ∈ fields p l ↔ MaximalRun p l w := by
  have h := cut_foldl p l
  rw [maximalRun_iff, ← h.ended, ← h.ending, fields, List.mem_append, Option.mem_toList]

/-! ## One after another -/

/-- The maximal runs of `l` from left to right, with anything else between them. -/
inductive Split (p : α → Bool) : List α → List (List α) → Prop
  | nil {l : List α} (h : ∀ x ∈ l, p x = false) : Split p l []
  | concat {l w sep : List α} {ws : List (List α)} (h : Split p l ws) (hb : Before p l)
    (hne : w ≠ []) (hall : ∀ x ∈ w, p x = true) (hsep : ∀ x ∈ sep, p x = false) :
    Split p (l ++ w ++ sep) (ws ++ [w])

theorem Split.sep {ws : List (List α)} (h : Split p l ws) (hx : p x = false) :
    Split p (l ++ [x]) ws := by
  cases h with
  | nil h =>
    refine .nil fun y hy => ?_
    rcases List.mem_append.mp hy with hy | hy
    · exact h y hy
    · exact List.mem_singleton.mp hy ▸ hx
  | concat h hb hne hall hsep =>
    rw [List.append_assoc]
    refine .concat h hb hne hall fun y hy => ?_
    rcases List.mem_append.mp hy with hy | hy
    · exact hsep y hy
    · exact List.mem_singleton.mp hy ▸ hx

/-- What `cut` has made of a list are its runs, with the last one apart if it reaches the end. -/
theorem split_foldl (p : α → Bool) (l : List α) : ∀ s, l.foldl (cut p) ([], none) = s →
    (s.2 = none → Split p l s.1 ∧ Before p l) ∧
      ∀ w, s.2 = some w → ∃ l₁, l = l₁ ++ w ∧ Split p l₁ s.1 ∧ Before p l₁ ∧ w ≠ [] ∧
        ∀ x ∈ w, p x = true := by
  induction l using List.reverseRecOn with
  | nil =>
    rintro _ rfl
    exact ⟨fun _ => ⟨.nil (by simp), by simp [Before]⟩, nofun⟩
  | append_singleton l x ih =>
    rintro _ rfl
    obtain ⟨hnone, hsome⟩ := ih _ rfl
    rw [List.foldl_append, List.foldl_cons, List.foldl_nil, cut]
    generalize l.foldl (cut p) ([], none) = s at hnone hsome ⊢
    obtain ⟨ws, _ | w⟩ := s
    · obtain ⟨hsplit, hb⟩ := hnone rfl
      split_ifs with hx
      · refine ⟨nofun, ?_⟩
        rintro _ ⟨⟩
        exact ⟨l, rfl, hsplit, hb, by simp, by simpa using hx⟩
      · have hx : p x = false := by simpa using hx
        exact ⟨fun _ => ⟨hsplit.sep hx, by simpa [Before] using hx⟩, nofun⟩
    · obtain ⟨l₁, rfl, hsplit, hb, hne, hall⟩ := hsome w rfl
      split_ifs with hx
      · refine ⟨nofun, ?_⟩
        rintro _ ⟨⟩
        refine ⟨l₁, by simp, hsplit, hb, by simp, fun y hy => ?_⟩
        rcases List.mem_append.mp hy with hy | hy
        · exact hall y hy
        · exact List.mem_singleton.mp hy ▸ hx
      · have hx : p x = false := by simpa using hx
        refine ⟨fun _ => ⟨.concat hsplit hb hne hall (by simpa using hx), ?_⟩, nofun⟩
        simpa [Before] using hx

theorem split_fields (p : α → Bool) (l : List α) : Split p l (fields p l) := by
  obtain ⟨hnone, hsome⟩ := split_foldl p l _ rfl
  rw [fields]
  rcases hs : (l.foldl (cut p) ([], none)).2 with _ | w
  · simpa using (hnone hs).1
  · obtain ⟨l₁, hl, hsplit, hb, hne, hall⟩ := hsome w hs
    have h : Split p (l₁ ++ w ++ []) (_ ++ [w]) := .concat hsplit hb hne hall (by simp)
    rwa [List.append_nil, ← hl] at h

/-- There is one way to cut a list. -/
theorem Split.eq_foldl {ws : List (List α)} (h : Split p l ws) :
    fields p l = ws ∧ (Before p l → l.foldl (cut p) ([], none) = (ws, none)) := by
  have hsep : ∀ (sep : List α) (ws : List (List α)), (∀ x ∈ sep, p x = false) →
      sep.foldl (cut p) (ws, none) = (ws, none) := by
    intro sep ws hsep
    induction sep with
    | nil => rfl
    | cons x sep ih =>
      rw [List.foldl_cons, cut, if_neg (by simp [hsep x])]
      exact ih fun y hy => hsep y (List.mem_cons_of_mem _ hy)
  have hrun : ∀ (w : List α) (ws : List (List α)) (o : Option (List α)), (∀ x ∈ w, p x = true) →
      w ≠ [] → w.foldl (cut p) (ws, o) = (ws, some (o.getD [] ++ w)) := by
    intro w ws
    induction w with
    | nil => intro o _ hne; exact absurd rfl hne
    | cons x w ih =>
      intro o hall _
      rw [List.foldl_cons, cut, if_pos (hall x (by simp))]
      rcases eq_or_ne w [] with rfl | hw
      · rfl
      · rw [ih _ (fun y hy => hall y (List.mem_cons_of_mem _ hy)) hw]
        simp
  induction h with
  | nil h =>
    rw [fields, hsep _ _ h]
    exact ⟨rfl, fun _ => rfl⟩
  | @concat l w sep ws h hb hne hall hs ih =>
    have hfold : (l ++ w).foldl (cut p) ([], none) = (ws, some w) := by
      rw [List.foldl_append, ih.2 hb, hrun w ws none hall hne]
      rfl
    rcases sep with _ | ⟨x, sep⟩
    · rw [List.append_nil, fields, hfold]
      refine ⟨rfl, fun hb' => ?_⟩
      obtain ⟨y, hy⟩ := Option.ne_none_iff_exists'.mp (mt List.getLast?_eq_none_iff.mp hne)
      have hlast := hb' y (by simp [List.getLast?_append, hy])
      rw [hall y (List.mem_of_getLast? hy)] at hlast
      cases hlast
    · have hend : (l ++ w ++ x :: sep).foldl (cut p) ([], none) = (ws ++ [w], none) := by
        rw [List.foldl_append, hfold, List.foldl_cons, cut, if_neg (by simp [hs x])]
        exact hsep _ _ fun y hy => hs y (List.mem_cons_of_mem _ hy)
      rw [fields, hend]
      exact ⟨by simp, fun _ => rfl⟩

theorem split_iff {ws : List (List α)} : Split p l ws ↔ fields p l = ws :=
  ⟨fun h => h.eq_foldl.1, fun h => h ▸ split_fields p l⟩

end DistSystem.Fields
