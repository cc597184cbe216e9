import Mathlib.Data.List.Sort

/-!
# The `k`-th largest of a list

In a list sorted downwards, more than `k` elements are at least `N` exactly when the one at place
`k` is; sorting does not change how many there are.
-/

namespace OrderStat

variable {α : Type*} [LinearOrder α]

theorem lt_countP_iff_of_sorted (N : α) :
    ∀ (l : List α) (k : ℕ) (m : α), l.Pairwise (· ≥ ·) → l[k]? = some m →
      (k < l.countP (N ≤ ·) ↔ N ≤ m)
  | [], k, m, _, hm => by simp at hm
  | a :: l, 0, m, hl, hm => by
    obtain rfl : a = m := by simpa using hm
    rw [List.countP_pos_iff]
    refine ⟨fun ⟨b, hb, hN⟩ => ?_, fun hN => ⟨a, List.mem_cons_self, by simpa using hN⟩⟩
    rcases List.mem_cons.1 hb with rfl | hb
    · simpa using hN
    · exact (of_decide_eq_true hN).trans (List.rel_of_pairwise_cons hl hb)
  | a :: l, k + 1, m, hl, hm => by
    have hm' : l[k]? = some m := by simpa using hm
    have ih := lt_countP_iff_of_sorted N l k m (List.Pairwise.of_cons hl) hm'
    have hma : m ≤ a := List.rel_of_pairwise_cons hl (List.mem_of_getElem? hm')
    rw [List.countP_cons]
    by_cases hN : N ≤ a
    · simpa [hN] using ih
    · have hzero : l.countP (N ≤ ·) = 0 := by
        rw [List.countP_eq_zero]
        intro b hb
        simpa using fun h : N ≤ b => hN (h.trans (List.rel_of_pairwise_cons hl hb))
      simp only [hzero, hN, decide_false, Bool.false_eq_true, if_false]
      exact ⟨fun h => by omega, fun h => absurd (h.trans hma) hN⟩

/-- The element at place `k` of the list sorted downwards is the largest that more than `k`
elements reach. -/
theorem lt_countP_iff {l : List α} {k : ℕ} {m : α}
    (h : (l.insertionSort (· ≥ ·))[k]? = some m) (N : α) : k < l.countP (N ≤ ·) ↔ N ≤ m := by
  rw [← (List.perm_insertionSort (· ≥ ·) l).countP_eq]
  exact lt_countP_iff_of_sorted N _ k m (List.pairwise_insertionSort _ l) h

end OrderStat
