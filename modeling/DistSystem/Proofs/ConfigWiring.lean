import DistSystem.Raft.Config

/-!
# The wiring of the servers

What the tester sees and changes: the ends and servers of the network, the instances there are and
which of them are current. Its functions keep it sane at every step: the ends of an instance lead to
the servers they are for, no two are the same, those of an instance that is not current are off, and
the server under a name is the current instance. Between two functions an end is on just if both of
its sides are connected.
-/

namespace DistSystem

open Interleaving

variable {n : ℕ} {C : Type}

structure Wiring (n : ℕ) where
  ends : ℕ → Bool
  enabled : ℕ → Bool
  connections : ℕ → Option (Fin n)
  servers : Fin n → Option ℕ
  receivers : List ℕ
  /-- The server of an instance, and its ends. -/
  instances : List (Fin n × (Fin n → ℕ))
  rafts : Fin n → Option ℕ
  connected : Fin n → Bool
  endnames : Fin n → Option (Fin n → ℕ)

namespace Wiring

variable (v : Wiring n)

/-- What an operation of the tester does, unless the process ends. -/
def operate : Op n → Wiring n → Option (Wiring n)
  | .setConnected i yes, v => some { v with connected := Function.update v.connected i yes }
  | .enable i j enabled, v => (v.endnames i).map fun endnames =>
      { v with enabled := Function.update v.enabled (endnames j) enabled }
  | .deleteServer i, v => some { v with servers := Function.update v.servers i none }
  | .kill i, v => some { v with rafts := Function.update v.rafts i none }
  | .name i endnames, v => some { v with endnames := Function.update v.endnames i (some endnames) }
  | .makeEnd i j, v =>
    match v.endnames i with
    | none => none
    | some endnames =>
      if v.ends (endnames j) then none
      else some { v with
        ends := Function.update v.ends (endnames j) true
        enabled := Function.update v.enabled (endnames j) false
        connections := Function.update v.connections (endnames j) none }
  | .connect i j, v => (v.endnames i).map fun endnames =>
      { v with connections := Function.update v.connections (endnames j) (some j) }
  | .make i _ _, v => (v.endnames i).map fun endnames =>
      { v with
        instances := v.instances ++ [(i, endnames)]
        rafts := Function.update v.rafts i (some v.instances.length) }
  | .addServer i, v => (v.rafts i).map fun q =>
      { v with
        receivers := v.receivers ++ [q]
        servers := Function.update v.servers i (some v.receivers.length) }
  | .reliable _, v => some v
  | .longReordering _, v => some v

/-- The end of `i` to `j` is on. -/
def on (i j : Fin n) : Bool :=
  match v.endnames i with
  | none => false
  | some endnames => v.enabled (endnames j)

structure Sane : Prop where
  wired : ∀ (q : ℕ) (i : Fin n) (ends : Fin n → ℕ), v.instances[q]? = some (i, ends) → ∀ j,
    v.ends (ends j) = true ∧ v.connections (ends j) = some j
  inj : ∀ (q q' : ℕ) (i i' : Fin n) (ends ends' : Fin n → ℕ) (j j' : Fin n),
    v.instances[q]? = some (i, ends) → v.instances[q']? = some (i', ends') →
    ends j = ends' j' → q = q' ∧ j = j'
  current : ∀ i q, v.rafts i = some q →
    ∃ ends, v.instances[q]? = some (i, ends) ∧ v.endnames i = some ends
  off : ∀ (q : ℕ) (i : Fin n) (ends : Fin n → ℕ), v.instances[q]? = some (i, ends) →
    v.rafts i ≠ some q → ∀ j, v.enabled (ends j) = false
  served : ∀ i p, v.servers i = some p → ∃ q, v.receivers[p]? = some q ∧ v.rafts i = some q

/-- Every known name is that of an end that an instance has. -/
def Named (i : Fin n) : Prop :=
  ∀ endnames, v.endnames i = some endnames → ∃ q : ℕ, v.instances[q]? = some (i, endnames)

/-- How the wiring is between two functions of the tester. -/
structure Settled : Prop where
  named : ∀ i, v.Named i
  on : ∀ i j, v.on i j = (v.connected i && v.connected j)
  attached : ∀ i, v.connected i = true → v.rafts i ≠ none
  listed : ∀ i, v.rafts i ≠ none → v.servers i ≠ none

/-- A server is made only after the last instance of it was let go. -/
def Due : Op n → Wiring n → Prop
  | .make i _ _, v => v.rafts i = none
  | _, _ => True

/-- The tester gets through these operations with the wiring sane. -/
abbrev Keeps (P : Wiring n → Prop) : List (Op n) → Wiring n → Prop := Safe operate Due Sane P

variable {v : Wiring n} {i : Fin n} {P : Wiring n → Prop}

theorem ne_of_rafts {k : Fin n} {q : ℕ} (hi : v.rafts i = none) (hk : v.rafts k = some q) :
    k ≠ i := by
  rintro rfl
  rw [hi] at hk
  cases hk

/-! ## Ends on and off -/

/-- Two ends with one name are the same end. -/
theorem Sane.name_inj (hv : v.Sane) {k : Fin n} {names names' : Fin n → ℕ} {j j' : Fin n}
    (hi : v.Named i) (hk : v.Named k) (hn : v.endnames i = some names)
    (hn' : v.endnames k = some names') (h : names j = names' j') : i = k ∧ j = j' := by
  obtain ⟨q, hq⟩ := hi names hn
  obtain ⟨q', hq'⟩ := hk names' hn'
  obtain ⟨rfl, hj⟩ := hv.inj q q' i k names names' j j' hq hq' h
  rw [hq] at hq'
  exact ⟨congrArg Prod.fst (Option.some.inj hq'), hj⟩

/-- Turning an end off, or one of a current instance on. -/
theorem Sane.enable (hv : v.Sane) (hi : v.Named i) {names : Fin n → ℕ} {j : Fin n} {b : Bool}
    (hn : v.endnames i = some names) (hb : b = true → v.rafts i ≠ none) :
    Sane { v with enabled := Function.update v.enabled (names j) b } where
  wired := hv.wired
  inj := hv.inj
  current := hv.current
  served := hv.served
  off := by
    intro q k ends hq hk j'
    show Function.update v.enabled (names j) b (ends j') = false
    rw [Function.update_apply]
    split_ifs with heq
    · by_contra hne
      -- The end is one of the current instance of `i`.
      obtain ⟨q', hq'⟩ := Option.ne_none_iff_exists'.mp (hb (by simpa using hne))
      obtain ⟨ends', hins, hn'⟩ := hv.current i q' hq'
      obtain rfl := Option.some.inj (hn.symm.trans hn')
      obtain ⟨rfl, -⟩ := hv.inj q q' k i ends names j' j hq hins heq
      rw [hq] at hins
      obtain ⟨rfl, -⟩ := Prod.mk.inj (Option.some.inj hins)
      exact hk hq'
    · exact hv.off q k ends hq hk j'

theorem on_enable (hv : v.Sane) (hnamed : ∀ k, v.Named k) {names : Fin n → ℕ} {j : Fin n}
    {b : Bool} (hn : v.endnames i = some names) (k l : Fin n) :
    on { v with enabled := Function.update v.enabled (names j) b } k l =
      if (k, l) = (i, j) then b else v.on k l := by
  unfold on
  show (match v.endnames k with
    | none => false
    | some endnames => Function.update v.enabled (names j) b (endnames l)) = _
  rcases hk : v.endnames k with _ | names'
  · rw [if_neg]
    rintro ⟨⟩
    rw [hn] at hk
    cases hk
  · simp only [Function.update_apply]
    refine if_congr ⟨fun h => ?_, ?_⟩ rfl rfl
    · obtain ⟨rfl, rfl⟩ := hv.name_inj (hnamed k) (hnamed i) hk hn h
      rfl
    · rintro ⟨⟩
      rw [hn] at hk
      rw [Option.some.inj hk]

/-- Some ends are turned on, or off. -/
theorem keeps_enables (hv : v.Sane) (hnamed : ∀ k, v.Named k) {l : List (Fin n × Fin n)} {b : Bool}
    (hb : b = true → ∀ p ∈ l, v.rafts p.1 ≠ none)
    (hP : ∀ f, Sane { v with enabled := f } → (∀ i j, on { v with enabled := f } i j =
      if (i, j) ∈ l then b else v.on i j) → P { v with enabled := f }) :
    Keeps P (l.map fun p => .enable p.1 p.2 b) v := by
  rw [List.map_eq_flatMap]
  refine Safe.mono (safe_flatMap (J := fun done v' => ∃ f, v' = { v with enabled := f } ∧
    Sane v' ∧ ∀ i j, v'.on i j = if (i, j) ∈ done then b else v.on i j) ?_
    ⟨v.enabled, rfl, hv, by simp⟩) ?_
  · rintro done ⟨i, j⟩ hp _ ⟨f, rfl, hf, hon⟩
    refine ⟨trivial, fun v' hv' => ?_⟩
    obtain ⟨names, hn, rfl⟩ := Option.map_eq_some_iff.mp hv'
    have hsane := hf.enable (j := j) (hnamed i) hn fun h => hb h _ hp
    refine ⟨hsane, _, rfl, hsane, fun k l => ?_⟩
    rw [on_enable hf hnamed hn, hon]
    by_cases hkl : (k, l) = (i, j) <;> simp [hkl]
  · rintro _ ⟨f, rfl, hf, hon⟩
    exact hP f hf hon

theorem Sane.setConnected (hv : v.Sane) (f : Fin n → Bool) : Sane { v with connected := f } :=
  ⟨hv.wired, hv.inj, hv.current, hv.off, hv.served⟩

theorem Sane.deleteServer (hv : v.Sane) (i : Fin n) :
    Sane { v with servers := Function.update v.servers i none } where
  wired := hv.wired
  inj := hv.inj
  current := hv.current
  off := hv.off
  served := by
    intro k p hp
    simp only [Function.update_apply] at hp
    split_ifs at hp
    exact hv.served k p hp

/-- An instance that has no ends on and no server can be let go. -/
theorem Sane.kill (hv : v.Sane) (hoff : ∀ j, v.on i j = false) (hs : v.servers i = none) :
    Sane { v with rafts := Function.update v.rafts i none } where
  wired := hv.wired
  inj := hv.inj
  current := by
    intro k q hq
    simp only [Function.update_apply] at hq
    split_ifs at hq
    exact hv.current k q hq
  off := by
    intro q k ends hins hq j
    simp only [Function.update_apply] at hq
    by_cases hcur : v.rafts k = some q
    · have hki : k = i := by
        by_contra hki
        rw [if_neg hki] at hq
        exact hq hcur
      obtain ⟨ends', hins', hn⟩ := hv.current k q hcur
      obtain ⟨-, rfl⟩ := Prod.mk.inj (Option.some.inj (hins.symm.trans hins'))
      have hon := hoff j
      rw [← hki, on, hn] at hon
      exact hon
    · exact hv.off q k ends hins hcur j
  served := by
    intro k p hp
    have hki : k ≠ i := by
      rintro rfl
      rw [hs] at hp
      cases hp
    obtain ⟨q, hr, hq⟩ := hv.served k p hp
    exact ⟨q, hr, (Function.update_of_ne hki _ _).trans hq⟩

/-! ## Names -/

/-- The server `i` is being started: the ends with the names of `done` are there. -/
structure Starting (i : Fin n) (names : Fin n → ℕ) (done : List (Fin n)) (v : Wiring n) :
    Prop where
  sane : v.Sane
  gone : v.rafts i = none
  apart : v.connected i = false
  known : v.endnames i = some names
  named : ∀ k ≠ i, v.Named k
  on : ∀ k ≠ i, ∀ j, v.on k j = (v.connected k && v.connected j)
  attached : ∀ k, v.connected k = true → v.rafts k ≠ none
  listed : ∀ k, v.rafts k ≠ none → v.servers k ≠ none
  made : ∀ j ∈ done, v.ends (names j) = true ∧ v.connections (names j) = some j ∧
    v.enabled (names j) = false
  inj : ∀ j ∈ done, ∀ j' ∈ done, names j = names j' → j = j'
  fresh : ∀ j ∈ done, ∀ (q : ℕ) (k : Fin n) (ends : Fin n → ℕ) (j' : Fin n),
    v.instances[q]? = some (k, ends) → ends j' ≠ names j

theorem Sane.name (hv : v.Sane) (hi : v.rafts i = none) (names : Fin n → ℕ) :
    Sane { v with endnames := Function.update v.endnames i (some names) } where
  wired := hv.wired
  inj := hv.inj
  off := hv.off
  served := hv.served
  current := by
    intro k q hq
    obtain ⟨ends, hins, hn⟩ := hv.current k q hq
    exact ⟨ends, hins, (Function.update_of_ne (ne_of_rafts hi hq) _ _).trans hn⟩

/-- The ends of an instance are not the one that is made. -/
theorem Sane.ne_of_not_ends (hv : v.Sane) {e q : ℕ} {k : Fin n} {ends : Fin n → ℕ}
    (he : v.ends e = false) (hq : v.instances[q]? = some (k, ends)) (j : Fin n) : ends j ≠ e := by
  rintro rfl
  rw [(hv.wired q k ends hq j).1] at he
  cases he

theorem Sane.makeEnd (hv : v.Sane) {e : ℕ} (he : v.ends e = false) (o : Option (Fin n)) :
    Sane { v with
      ends := Function.update v.ends e true
      enabled := Function.update v.enabled e false
      connections := Function.update v.connections e o } where
  inj := hv.inj
  current := hv.current
  served := hv.served
  wired := by
    intro q k ends hq j
    have hne := hv.ne_of_not_ends he hq j
    obtain ⟨hends, hconn⟩ := hv.wired q k ends hq j
    exact ⟨(Function.update_of_ne hne _ _).trans hends, (Function.update_of_ne hne _ _).trans hconn⟩
  off := by
    intro q k ends hq hcur j
    have hne := hv.ne_of_not_ends he hq j
    exact (Function.update_of_ne hne _ _).trans (hv.off q k ends hq hcur j)

/-- One round of the loop in `start1`. -/
theorem Starting.round {names : Fin n → ℕ} {done : List (Fin n)} (h : Starting i names done v)
    (j : Fin n) : Keeps (Starting i names (done ++ [j])) [.makeEnd i j, .connect i j] v := by
  refine ⟨trivial, fun v₁ hv₁ => ?_⟩
  simp only [operate, h.known] at hv₁
  split_ifs at hv₁ with hend
  obtain rfl := Option.some.inj hv₁
  have he : v.ends (names j) = false := by simpa using hend
  refine ⟨h.sane.makeEnd he none, trivial, fun v₂ hv₂ => ?_⟩
  simp only [operate, h.known, Option.map_some, Option.some.injEq, Function.update_idem] at hv₂
  subst hv₂
  have hsane := h.sane.makeEnd he (some j)
  -- The new end is none of those that are there.
  have hne : ∀ j' ∈ done, names j' ≠ names j := by
    intro j' hj' heq
    have := (h.made j' hj').1
    rw [heq, he] at this
    cases this
  refine ⟨hsane, hsane, h.gone, h.apart, h.known, h.named, ?_, h.attached, h.listed, ?_, ?_, ?_⟩
  · intro k hk l
    rw [← h.on k hk l]
    unfold Wiring.on
    rcases hn : v.endnames k with _ | names'
    · rfl
    · obtain ⟨q, hq⟩ := h.named k hk names' hn
      exact Function.update_of_ne (h.sane.ne_of_not_ends he hq l) _ _
  · intro j' hj'
    rcases List.mem_append.mp hj' with hj' | hj'
    · have hmade := h.made j' hj'
      simpa only [Function.update_of_ne (hne j' hj')] using hmade
    · obtain rfl := List.mem_singleton.mp hj'
      simp only [Function.update_self, and_self]
  · intro j₁ h₁ j₂ h₂ heq
    simp only [List.mem_append, List.mem_singleton] at h₁ h₂
    rcases h₁ with h₁ | rfl <;> rcases h₂ with h₂ | rfl
    · exact h.inj j₁ h₁ j₂ h₂ heq
    · exact absurd heq (hne j₁ h₁)
    · exact absurd heq.symm (hne j₂ h₂)
    · rfl
  · intro j' hj' q k ends l hq
    rcases List.mem_append.mp hj' with hj' | hj'
    · exact h.fresh j' hj' q k ends l hq
    · obtain rfl := List.mem_singleton.mp hj'
      exact h.sane.ne_of_not_ends he hq l

/-- With all of its ends there the server can be made. -/
theorem Starting.make {names : Fin n → ℕ} (h : Starting i names (List.finRange n) v) :
    Sane { v with
      instances := v.instances ++ [(i, names)]
      rafts := Function.update v.rafts i (some v.instances.length) } where
  wired := by
    intro q k ends hq j
    rcases of_getElem?_concat hq with hq | ⟨rfl, ⟨⟩⟩
    · exact h.sane.wired q k ends hq j
    · have hmade := h.made j (List.mem_finRange j)
      exact ⟨hmade.1, hmade.2.1⟩
  inj := by
    intro q q' k k' ends ends' j j' hq hq' heq
    rcases of_getElem?_concat hq with hq | ⟨rfl, ⟨⟩⟩ <;>
      rcases of_getElem?_concat hq' with hq' | ⟨rfl, ⟨⟩⟩
    · exact h.sane.inj q q' k k' ends ends' j j' hq hq' heq
    · exact absurd heq (h.fresh j' (List.mem_finRange j') q k ends j hq)
    · exact absurd heq.symm (h.fresh j (List.mem_finRange j) q' k' ends' j' hq')
    · exact ⟨rfl, h.inj j (List.mem_finRange j) j' (List.mem_finRange j') heq⟩
  current := by
    intro k q hq
    simp only [Function.update_apply] at hq
    split_ifs at hq with hk
    · obtain rfl := Option.some.inj hq
      subst hk
      exact ⟨names, List.getElem?_concat_length, h.known⟩
    · obtain ⟨ends, hins, hn⟩ := h.sane.current k q hq
      exact ⟨ends, getElem?_concat_of_some hins, hn⟩
  off := by
    intro q k ends hins hq j
    simp only [Function.update_apply] at hq
    rcases of_getElem?_concat hins with hins | ⟨rfl, ⟨⟩⟩
    · refine h.sane.off q k ends hins (fun hcur => ?_) j
      rw [if_neg (ne_of_rafts h.gone hcur)] at hq
      exact hq hcur
    · simp at hq
  served := by
    intro k p hp
    obtain ⟨q, hr, hq⟩ := h.sane.served k p hp
    exact ⟨q, hr, (Function.update_of_ne (ne_of_rafts h.gone hq) _ _).trans hq⟩

/-- A server that is there again is settled, and not connected. -/
theorem Starting.settled {names : Fin n → ℕ} (h : Starting i names (List.finRange n) v)
    (receivers : List ℕ) (p : ℕ) :
    Settled { v with
      instances := v.instances ++ [(i, names)]
      rafts := Function.update v.rafts i (some v.instances.length)
      receivers := receivers
      servers := Function.update v.servers i (some p) } where
  named := by
    intro k names' hn
    by_cases hk : k = i
    · subst hk
      obtain rfl := Option.some.inj (h.known.symm.trans hn)
      exact ⟨_, List.getElem?_concat_length⟩
    · obtain ⟨q, hq⟩ := h.named k hk names' hn
      exact ⟨q, getElem?_concat_of_some hq⟩
  on := by
    intro k j
    by_cases hk : k = i
    · subst hk
      have hmade := (h.made j (List.mem_finRange j)).2.2
      simp only [Wiring.on, h.known, h.apart, hmade, Bool.false_and]
    · exact h.on k hk j
  attached := by
    intro k hk
    simp only [Function.update_apply]
    split_ifs
    · simp
    · exact h.attached k hk
  listed := by
    intro k hk
    simp only [Function.update_apply] at hk ⊢
    split_ifs with hki
    · simp
    · rw [if_neg hki] at hk
      exact h.listed k hk

theorem Sane.addServer (hv : v.Sane) {q : ℕ} (hq : v.rafts i = some q) :
    Sane { v with
      receivers := v.receivers ++ [q]
      servers := Function.update v.servers i (some v.receivers.length) } where
  wired := hv.wired
  inj := hv.inj
  current := hv.current
  off := hv.off
  served := by
    intro k p hp
    simp only [Function.update_apply] at hp
    split_ifs at hp with hk
    · obtain rfl := Option.some.inj hp
      exact ⟨q, List.getElem?_concat_length, hk ▸ hq⟩
    · obtain ⟨q', hr, hq'⟩ := hv.served k p hp
      exact ⟨q', getElem?_concat_of_some hr, hq'⟩

end Wiring

/-! ## The functions of the tester -/

namespace Config

open Wiring

variable {s : Config n C} {i : Fin n}

def wiring (s : Config n C) : Wiring n where
  ends := s.net.ends
  enabled := s.net.enabled
  connections := s.net.connections
  servers := s.net.servers
  receivers := s.receivers
  instances := s.instances.map fun x => (x.raft.me, x.ends)
  rafts := s.rafts
  connected := s.connected
  endnames := s.endnames

theorem mem_row {l : List (Fin n)} {k j : Fin n} : (k, j) ∈ l.map (i, ·) ↔ k = i ∧ j ∈ l := by
  constructor
  · rintro h
    obtain ⟨j', hj', ⟨⟩⟩ := List.mem_map.mp h
    exact ⟨rfl, hj'⟩
  · rintro ⟨rfl, hj⟩
    exact List.mem_map_of_mem hj

theorem mem_column {l : List (Fin n)} {k j : Fin n} : (k, j) ∈ l.map (·, i) ↔ j = i ∧ k ∈ l := by
  constructor
  · rintro h
    obtain ⟨k', hk', ⟨⟩⟩ := List.mem_map.mp h
    exact ⟨rfl, hk'⟩
  · rintro ⟨rfl, hk⟩
    exact List.mem_map_of_mem hk

theorem keeps_connect (hv : s.wiring.Sane) (hs : s.wiring.Settled) (hi : s.rafts i ≠ none) :
    Wiring.Keeps Settled (s.connect i) s.wiring := by
  have hpeer : ∀ j, j = i ∨ s.connected j = true → s.rafts j ≠ none := by
    rintro j (rfl | hj)
    · exact hi
    · exact hs.attached j hj
  refine ⟨trivial, fun v₁ hv₁ => ?_⟩
  obtain rfl := Option.some.inj hv₁
  have hsane := hv.setConnected (Function.update s.connected i true)
  refine ⟨hsane, ?_⟩
  let peers := (List.finRange n).filter fun j => j = i ∨ s.connected j
  have hmem : ∀ k j, (k, j) ∈ peers.map (i, ·) ++ peers.map (·, i) ↔
      k = i ∧ (j = i ∨ s.connected j = true) ∨ j = i ∧ (k = i ∨ s.connected k = true) := by
    intro k j
    rw [List.mem_append, mem_row, mem_column]
    simp only [peers, List.mem_filter, List.mem_finRange, true_and, decide_eq_true_eq]
  have hl : ∀ p ∈ peers.map (i, ·) ++ peers.map (·, i), s.rafts p.1 ≠ none := by
    intro p hp
    rcases (hmem p.1 p.2).mp hp with ⟨hp, -⟩ | ⟨-, hp⟩
    · exact hp ▸ hi
    · exact hpeer p.1 hp
  have hops : peers.map (Op.enable i · true) ++ peers.map (Op.enable · i true) =
      (peers.map (i, ·) ++ peers.map (·, i)).map fun p => Op.enable p.1 p.2 true := by
    simp [Function.comp_def]
  show Wiring.Keeps Settled (peers.map (Op.enable i · true) ++ peers.map (Op.enable · i true)) _
  rw [hops]
  refine keeps_enables hsane hs.named (fun _ => hl) fun f hf hon =>
    ⟨hs.named, fun k j => ?_, fun k hk => ?_, hs.listed⟩
  · rw [hon, if_congr (hmem k j) rfl rfl]
    show (if _ then true else s.wiring.on k j) =
      (Function.update s.connected i true k && Function.update s.connected i true j)
    rw [hs.on k j]
    show (if _ then true else s.connected k && s.connected j) = _
    simp only [Function.update_apply]
    by_cases hk : k = i <;> by_cases hj : j = i <;> cases s.connected k <;>
      cases s.connected j <;> simp [hk, hj]
  · by_cases hki : k = i
    · exact hki ▸ hi
    · exact hs.attached k ((Function.update_of_ne hki _ _).symm.trans hk)

theorem keeps_disconnect (hv : s.wiring.Sane) (hs : s.wiring.Settled) :
    Wiring.Keeps (fun v => v.Sane ∧ v.Settled ∧ v.connected i = false) (s.disconnect i)
      s.wiring := by
  refine ⟨trivial, fun v₁ hv₁ => ?_⟩
  obtain rfl := Option.some.inj hv₁
  have hsane := hv.setConnected (Function.update s.connected i false)
  refine ⟨hsane, ?_⟩
  let out := if (s.endnames i).isSome then (List.finRange n).map (i, ·) else []
  let known := (List.finRange n).filter fun j => (s.endnames j).isSome
  have hmem : ∀ k j, (k, j) ∈ out ++ known.map (·, i) ↔
      (k = i ∨ j = i) ∧ (s.endnames k).isSome := by
    intro k j
    have hout : (k, j) ∈ out ↔ k = i ∧ (s.endnames i).isSome := by
      by_cases hi : (s.endnames i).isSome
      · simp only [out, if_pos hi, mem_row, List.mem_finRange, hi]
      · simp [out, hi]
    rw [List.mem_append, hout, mem_column]
    simp only [known, List.mem_filter, List.mem_finRange, true_and]
    constructor
    · rintro (⟨rfl, h⟩ | ⟨rfl, h⟩)
      · exact ⟨.inl rfl, h⟩
      · exact ⟨.inr rfl, h⟩
    · rintro ⟨rfl | rfl, h⟩
      · exact .inl ⟨rfl, h⟩
      · exact .inr ⟨rfl, h⟩
  have hops : (if (s.endnames i).isSome then (List.finRange n).map (Op.enable i · false) else []) ++
      known.map (Op.enable · i false) =
      (out ++ known.map (·, i)).map fun p => Op.enable p.1 p.2 false := by
    by_cases hi : (s.endnames i).isSome <;> simp [out, hi, Function.comp_def]
  show Wiring.Keeps _ (_ ++ known.map (Op.enable · i false)) _
  rw [hops]
  refine keeps_enables hsane hs.named (by simp) fun f hf hon =>
    ⟨hf, ⟨hs.named, fun k j => ?_, fun k hk => ?_, hs.listed⟩, Function.update_self _ _ _⟩
  · have hnone : s.endnames k = none → s.wiring.on k j = false := by
      intro h
      have h' : s.wiring.endnames k = none := h
      rw [Wiring.on, h']
    rw [hon, if_congr (hmem k j) rfl rfl]
    show (if _ then false else s.wiring.on k j) =
      (Function.update s.connected i false k && Function.update s.connected i false j)
    have hold : s.wiring.on k j = (s.connected k && s.connected j) := hs.on k j
    simp only [Function.update_apply]
    by_cases hkj : k = i ∨ j = i
    · have hoff : (if (k = i ∨ j = i) ∧ (s.endnames k).isSome then false
          else s.wiring.on k j) = false := by
        split_ifs with h
        · rfl
        · exact hnone (Option.not_isSome_iff_eq_none.mp fun h' => h ⟨hkj, h'⟩)
      rw [hoff]
      rcases hkj with rfl | rfl <;> simp
    · rw [if_neg fun h => hkj h.1, if_neg fun h => hkj (.inl h), if_neg fun h => hkj (.inr h), hold]
  · have hki : k ≠ i := by
      rintro rfl
      simp at hk
    exact hs.attached k ((Function.update_of_ne hki _ _).symm.trans hk)

theorem keeps_crash1 (hv : s.wiring.Sane) (hs : s.wiring.Settled) :
    Wiring.Keeps (fun v => v.Sane ∧ v.Settled ∧ v.connected i = false ∧ v.rafts i = none)
      (s.crash1 i) s.wiring := by
  refine Safe.append ((keeps_disconnect hv hs).mono ?_)
  rintro v ⟨hv, hs, hi⟩
  refine ⟨trivial, fun v₁ hv₁ => ?_⟩
  obtain rfl := Option.some.inj hv₁
  have hdel := hv.deleteServer i
  refine ⟨hdel, trivial, fun v₂ hv₂ => ?_⟩
  obtain rfl := Option.some.inj hv₂
  have hkill : Sane { v with
      servers := Function.update v.servers i none
      rafts := Function.update v.rafts i none } := by
    refine hdel.kill (fun j => ?_) (Function.update_self _ _ _)
    have hon := hs.on i j
    rwa [hi, Bool.false_and] at hon
  refine ⟨hkill, hkill, ⟨hs.named, hs.on, fun k hk => ?_, fun k hk => ?_⟩, hi,
    Function.update_self _ _ _⟩
  · have hki : k ≠ i := by
      rintro rfl
      exact Bool.false_ne_true (hi.symm.trans hk)
    exact ne_of_eq_of_ne (Function.update_of_ne hki _ _) (hs.attached k hk)
  · have hki : k ≠ i := by
      rintro rfl
      exact hk (Function.update_self _ _ _)
    refine ne_of_eq_of_ne (Function.update_of_ne hki _ _) (hs.listed k ?_)
    exact ne_of_eq_of_ne (Function.update_of_ne hki _ _).symm hk

theorem keeps_start1 (hv : s.wiring.Sane) (hs : s.wiring.Settled) {names : Fin n → ℕ} {rnd : ℕ}
    {spare : ℕ → ℕ} : Wiring.Keeps Settled (s.start1 i names rnd spare) s.wiring := by
  refine Safe.append (Safe.append ((keeps_crash1 hv hs).mono ?_))
  rintro v ⟨hv, hs, hi, hgone⟩
  refine ⟨trivial, fun v₁ hv₁ => ?_⟩
  obtain rfl := Option.some.inj hv₁
  have hname := hv.name hgone names
  refine ⟨hname, (safe_flatMap (J := Starting i names)
    (fun done j _ v hstart => hstart.round j) ?_).mono
    fun v hstart => ⟨hstart.gone, fun v₂ hv₂ => ?_⟩⟩
  · refine ⟨hname, hgone, hi, Function.update_self _ _ _, fun k hk names' hn => ?_,
      fun k hk j => ?_, hs.attached, hs.listed, by simp, by simp, by simp⟩
    · exact hs.named k names' ((Function.update_of_ne hk _ _).symm.trans hn)
    · rw [← hs.on k j]
      simp only [on, Function.update_of_ne hk]
  · obtain ⟨names', hn, rfl⟩ := Option.map_eq_some_iff.mp hv₂
    obtain rfl := Option.some.inj (hstart.known.symm.trans hn)
    refine ⟨hstart.make, trivial, fun v₃ hv₃ => ?_⟩
    obtain ⟨q, hq, rfl⟩ := Option.map_eq_some_iff.mp hv₃
    exact ⟨hstart.make.addServer hq, hstart.settled _ _⟩

/-- A function of the tester keeps the wiring sane, and leaves it settled. Only a server that is
there can be connected. -/
theorem keeps_program (hv : s.wiring.Sane) (hs : s.wiring.Settled) {cmd : Command n}
    (hcmd : ∀ i, cmd = .connect i → s.rafts i ≠ none) :
    Wiring.Keeps Settled (s.program cmd) s.wiring := by
  cases cmd with
  | connect i => exact keeps_connect hv hs (hcmd i rfl)
  | disconnect i => exact (keeps_disconnect hv hs).mono fun _ h => h.2.1
  | crash1 i => exact (keeps_crash1 hv hs).mono fun _ h => h.2.1
  | start1 i names rnd spare => exact keeps_start1 hv hs
  | setunreliable unrel =>
    refine ⟨trivial, ?_⟩
    rintro _ ⟨⟩
    exact ⟨hv, hs⟩
  | setlongreordering longrel =>
    refine ⟨trivial, ?_⟩
    rintro _ ⟨⟩
    exact ⟨hv, hs⟩

end Config

end DistSystem
