import Mathlib.Data.List.AList
import Mathlib.Data.List.Induction
import Mathlib.Data.List.Sort

/-!
# Reading a list into a finite map

The items of a list have a key and a value. `group` collects the values of each key in the order of
the list and `latest` keeps the last one. What either map holds at a key is a function of
`valuesOf`, the values of the key in the list, so two lists with the same `valuesOf` give maps that
no lookup and no listing in key order tells apart.
-/

namespace DistSystem.Grouping

variable {ι κ ν : Type*} [DecidableEq κ] {key : ι → κ} {val : ι → ν}

/-! ## The values of a key -/

def valuesOf (key : ι → κ) (val : ι → ν) (k : κ) (l : List ι) : List ν :=
  (l.filter fun i => key i = k).map val

theorem valuesOf_append {k : κ} {l l' : List ι} :
    valuesOf key val k (l ++ l') = valuesOf key val k l ++ valuesOf key val k l' := by
  simp [valuesOf]

theorem valuesOf_concat {k : κ} {l : List ι} {i : ι} :
    valuesOf key val k (l ++ [i]) = valuesOf key val k l ++ if key i = k then [val i] else [] := by
  rw [valuesOf_append]
  by_cases h : key i = k <;> simp [valuesOf, h]

theorem valuesOf_flatMap {α : Type*} {k : κ} (f : α → List ι) (as : List α) :
    valuesOf key val k (as.flatMap f) = as.flatMap fun a => valuesOf key val k (f a) := by
  induction as with
  | nil => rfl
  | cons a as ih => simp only [List.flatMap_cons, valuesOf_append, ih]

theorem valuesOf_map {ι' : Type*} {k : κ} (f : ι' → ι) (l : List ι') :
    valuesOf key val k (l.map f) = valuesOf (key ∘ f) (val ∘ f) k l := by
  simp [valuesOf, List.filter_map, Function.comp_def]

theorem valuesOf_eq_nil_iff {k : κ} {l : List ι} :
    valuesOf key val k l = [] ↔ k ∉ l.map key := by
  simp [valuesOf, List.filter_eq_nil_iff]

/-- A key that occurs once has the same values in every order of the list. -/
theorem valuesOf_perm {k : κ} {l l' : List ι} (h : l.Perm l') (hl : (l.map key).Nodup) :
    valuesOf key val k l = valuesOf key val k l' := by
  have hp : (valuesOf key val k l).Perm (valuesOf key val k l') := (h.filter _).map val
  have hone : (l.filter fun i => key i = k).length ≤ 1 := by
    have hn : ((l.filter fun i => key i = k).map key).Nodup :=
      hl.sublist ((List.filter_sublist).map key)
    rcases hf : l.filter fun i => key i = k with _ | ⟨a, _ | ⟨b, t⟩⟩
    · simp
    · simp
    · have ha : a ∈ l.filter fun i => key i = k := by rw [hf]; simp
      have hb : b ∈ l.filter fun i => key i = k := by rw [hf]; simp
      simp only [List.mem_filter, decide_eq_true_eq] at ha hb
      simp [hf, ha.2, hb.2] at hn
  rcases hv : valuesOf key val k l with _ | ⟨v, _ | ⟨w, t⟩⟩
  · rw [hv] at hp; exact (List.nil_perm.mp hp).symm
  · rw [hv] at hp; exact List.singleton_perm.mp hp
  · have : (valuesOf key val k l).length ≤ 1 := by simpa [valuesOf] using hone
    simp [hv] at this

/-- In the entries of a map a key has the one value that a lookup finds. -/
theorem valuesOf_entries {μ : Type*} (m : AList fun _ : κ => ν) (f : (Sigma fun _ : κ => ν) → μ)
    (k : κ) :
    valuesOf Sigma.fst f k m.entries = ((m.lookup k).map fun v => f ⟨k, v⟩).toList := by
  obtain ⟨l, hl⟩ := m
  change valuesOf Sigma.fst f k l = ((l.dlookup k).map fun v => f ⟨k, v⟩).toList
  induction l with
  | nil => rfl
  | cons e l ih =>
    obtain ⟨k', v⟩ := e
    obtain ⟨hk', hl'⟩ := List.nodupKeys_cons.mp hl
    by_cases h : k' = k
    · subst h
      have hnone : valuesOf Sigma.fst f k' l = [] := by
        rw [valuesOf_eq_nil_iff]
        exact hk'
      rw [List.dlookup_cons_eq]
      have hcons : valuesOf Sigma.fst f k' (⟨k', v⟩ :: l) =
          f ⟨k', v⟩ :: valuesOf Sigma.fst f k' l := by
        simp [valuesOf]
      rw [hcons, hnone]
      rfl
    · rw [List.dlookup_cons_ne _ _ (Ne.symm h), ← ih hl']
      simp [valuesOf, h]

/-! ## Collecting -/

/-- Appends `v` to the values of `k`. -/
def push (m : AList fun _ : κ => List ν) (k : κ) (v : ν) : AList fun _ : κ => List ν :=
  match m.lookup k with
  | some vs => m.insert k (vs ++ [v])
  | none => m.insert k [v]

theorem push_eq (m : AList fun _ : κ => List ν) (k : κ) (v : ν) :
    push m k v = m.insert k ((m.lookup k).getD [] ++ [v]) := by
  unfold push
  cases m.lookup k <;> rfl

def group (key : ι → κ) (val : ι → ν) (l : List ι) : AList fun _ : κ => List ν :=
  l.foldl (fun m i => push m (key i) (val i)) ∅

theorem lookup_group (k : κ) (l : List ι) :
    (group key val l).lookup k =
      if valuesOf key val k l = [] then none else some (valuesOf key val k l) := by
  induction l using List.reverseRecOn with
  | nil => rfl
  | append_singleton l i ih =>
    have hstep : group key val (l ++ [i]) = push (group key val l) (key i) (val i) := by
      simp [group]
    rw [hstep, push_eq, valuesOf_concat]
    by_cases h : key i = k
    · subst h
      rw [AList.lookup_insert, ih]
      split_ifs with h₁ h₂ h₂ <;> simp_all
    · rw [AList.lookup_insert_ne (Ne.symm h), ih]
      simp [h]

theorem mem_group {k : κ} {l : List ι} : k ∈ group key val l ↔ k ∈ l.map key := by
  have hk : valuesOf key val k l = [] ↔ k ∉ l.map key := valuesOf_eq_nil_iff
  rw [← AList.lookup_isSome, lookup_group, ← not_iff_not, ← hk]
  split_ifs with h <;> simp [h]

/-! ## Overwriting -/

def latest (key : ι → κ) (val : ι → ν) (l : List ι) : AList fun _ : κ => ν :=
  l.foldl (fun m i => m.insert (key i) (val i)) ∅

theorem lookup_latest (k : κ) (l : List ι) :
    (latest key val l).lookup k = (valuesOf key val k l).getLast? := by
  induction l using List.reverseRecOn with
  | nil => rfl
  | append_singleton l i ih =>
    have hstep : latest key val (l ++ [i]) = (latest key val l).insert (key i) (val i) := by
      simp [latest]
    rw [hstep, valuesOf_concat]
    by_cases h : key i = k
    · subst h
      simp
    · rw [AList.lookup_insert_ne (Ne.symm h), ih]
      simp [h]

/-! ## In key order -/

section Sorted

variable {κ : Type*} [LinearOrder κ] {β : κ → Type*}

def sortedKeys (m : AList β) : List κ := m.keys.insertionSort (· ≤ ·)

theorem mem_sortedKeys {m : AList β} {k : κ} : k ∈ sortedKeys m ↔ k ∈ m :=
  List.mem_insertionSort _

theorem pairwise_lt_insertionSort {l : List κ} (hl : l.Nodup) :
    (l.insertionSort (· ≤ ·)).Pairwise (· < ·) := by
  have hle : (l.insertionSort (· ≤ ·)).Pairwise (· ≤ ·) := List.pairwise_insertionSort (· ≤ ·) _
  have hne : (l.insertionSort (· ≤ ·)).Nodup := (List.perm_insertionSort _ _).nodup_iff.mpr hl
  exact (List.pairwise_and_iff.mpr ⟨hle, hne⟩).imp fun h => lt_of_le_of_ne h.1 h.2

/-- There is one way to list the keys in order. -/
theorem sortedKeys_eq {m : AList β} {l : List κ} (hl : l.Pairwise (· < ·))
    (hm : ∀ k, k ∈ l ↔ k ∈ m) : sortedKeys m = l :=
  (pairwise_lt_insertionSort m.keys_nodup).eq_of_mem_iff hl fun k =>
    mem_sortedKeys.trans (hm k).symm

theorem sortedKeys_congr {m m' : AList β} (h : ∀ k, k ∈ m ↔ k ∈ m') :
    sortedKeys m = sortedKeys m' :=
  sortedKeys_eq (pairwise_lt_insertionSort m'.keys_nodup) fun k => mem_sortedKeys.trans (h k).symm

end Sorted

end DistSystem.Grouping
