import DistSystem.Proofs.EtcdRun

/-!
# The members in a snapshot

`publishEntries` drops what `ApplyConfChange` returns, so `rc.confState` stays what the last
snapshot from the leader said, or empty. A snapshot has the right members only if the changes since
then come to nothing.
-/

namespace DistSystem.Etcd

open Interleaving
open MapReduce (ascii)

/-! ## The members after some entries -/

/-- The effect of an entry on the members. -/
def Entry.change (nodes : Finset ℕ) (e : Entry) : Finset ℕ :=
  match e.payload with
  | .normal _ => nodes
  | .confChange cc => applyConfChange nodes cc

def membership (nodes : Finset ℕ) (ents : List Entry) : Finset ℕ := ents.foldl Entry.change nodes

theorem membership_of_normal {ents : List Entry} (h : ∀ e ∈ ents, ∃ data, e.payload = .normal data)
    (nodes : Finset ℕ) : membership nodes ents = nodes := by
  induction ents with
  | nil => rfl
  | cons e ents ih =>
    obtain ⟨data, hdata⟩ := h e List.mem_cons_self
    rw [membership, List.foldl_cons, Entry.change, hdata]
    exact ih fun e he => h e (List.mem_cons_of_mem _ he)

namespace System

/-- The members in a snapshot are right in a run exactly if, whenever one is saved, the changes
applied since the last snapshot from the leader leave the members as they were. -/
theorem confState_iff (C : Codec) (id : ℕ) (log : Committed) {t : List Event} {s' : System}
    (h : runs (step C) (start id) t = some s') (hdel : ∀ rd, .ready rd ∈ t → rd.From log) :
    AtEach (step C) (start id) (fun t₁ s e => e = .snapshot →
        ∀ snap rc, s.saving C = .ok (snap, rc) → snap.confState.toFinset =
          membership (Account.of t₁).installed.confState.toFinset
            (log.slice (Account.of t₁).installed.index
              (snap.index - (Account.of t₁).installed.index))) t ↔
      AtEach (step C) (start id) (fun t₁ s e => e = .snapshot →
        ∀ snap rc, s.saving C = .ok (snap, rc) →
          membership (Account.of t₁).installed.confState.toFinset (Account.of t₁).handled =
            (Account.of t₁).installed.confState.toFinset) t := by
  refine atEach_iff h fun t₁ e t₂ s s₂ ht hrun _ _ => forall_congr' fun _ =>
    forall_congr' fun snap => forall_congr' fun rc => forall_congr' fun hs => ?_
  have htr := runs_tracked hrun fun rd hrd => hdel rd (ht ▸ List.mem_append_left _ hrd)
  obtain ⟨hidx, hconf, -, -⟩ := RaftNode.createSnapshot_ok (saving_ok hs).2
  obtain ⟨n, hn, hhan⟩ := htr.handled
  have hlen : snap.index - (Account.of t₁).installed.index = n := by omega
  rw [hlen, ← hhan, hconf, htr.confState]
  exact eq_comm

end System

/-! ## The first snapshot of a node -/

theorem Account.installed_eq_empty {t : List Event} (h : ∀ snap, .publishSnapshot snap ∉ t) :
    (of t).installed = emptySnapshot := by
  induction t using List.reverseRecOn with
  | nil => rfl
  | append_singleton t e ih =>
    have hold := ih fun snap hmem => h snap (List.mem_append_left _ hmem)
    rw [of_concat]
    cases e with
    | publishSnapshot snap => exact absurd (by simp) (h snap)
    | restart => rfl
    | _ => exact hold

variable {C : Codec} {id : ℕ} {log : Committed}

theorem installed_untilSnapshot (log : Committed) :
    (Account.of (untilSnapshot log)).installed = emptySnapshot := by
  refine Account.installed_eq_empty fun snap hmem => ?_
  simp only [untilSnapshot, opening, List.mem_append, List.mem_flatMap] at hmem
  rcases hmem with hmem | ⟨e, -, hmem⟩
  · simp at hmem
  · unfold follow at hmem
    split_ifs at hmem <;> simp at hmem

theorem handled_untilSnapshot (h : ∀ i, (log.entry i).Sound C id) :
    (Account.of (untilSnapshot log)).handled = log.slice 0 10001 := by
  have htr : System.Tracked log _ _ := System.runs_tracked (System.runs_untilSnapshot h)
    fun rd hrd => (untilSnapshot_from (List.mem_append_left _ hrd)).1
  obtain ⟨n, hn, hhan⟩ := htr.handled
  rw [installed_untilSnapshot] at hn hhan
  have hn' : n = 10001 := (hn.trans (Nat.zero_add n)).symm
  rw [hhan, hn']
  rfl

/-- A member is added and removed again. -/
def visited : Committed := logOf fun i =>
  if i = 1 then .confChange ⟨.addNode, 2⟩
  else if i = 2 then .confChange ⟨.removeNode, 2⟩
  else .normal (gob (ascii "k") (ascii "v"))

theorem visited_payload {i : ℕ} (hi : 2 < i) :
    (visited.entry i).payload = .normal (gob (ascii "k") (ascii "v")) := by
  simp [visited, logOf, show i ≠ 1 by omega, show i ≠ 2 by omega]

theorem visited_sound (i : ℕ) : (visited.entry i).Sound plain 1 := by
  by_cases hi : 2 < i
  · exact Entry.sound_of_stored (visited_payload hi) (by decide)
  · have hle : i = 0 ∨ i = 1 ∨ i = 2 := by omega
    rcases hle with rfl | rfl | rfl <;> exact ⟨by decide, by decide⟩

/-- The members after a log that has only its first entries for them. -/
theorem membership_slice (log : Committed) {k n : ℕ}
    (h : ∀ i, k < i → ∃ data, (log.entry i).payload = .normal data)
    (nodes : Finset ℕ) :
    membership nodes (log.slice 0 (k + n)) = membership nodes (log.slice 0 k) := by
  rw [log.slice_add, membership, List.foldl_append]
  refine membership_of_normal (fun e he => ?_) _
  obtain ⟨i, hi, rfl⟩ := List.mem_map.mp he
  exact h i (by have := List.mem_range'_1.mp hi; omega)

namespace System

theorem visited_confState :
    (runs (step plain) (start 1) (untilSnapshot visited ++ [.snapshot])).isSome = true ∧
      AtEach (step plain) (start 1) (fun t₁ s e => e = .snapshot →
        ∀ snap rc, s.saving plain = .ok (snap, rc) → snap.confState.toFinset =
          membership (Account.of t₁).installed.confState.toFinset
            (visited.slice (Account.of t₁).installed.index
              (snap.index - (Account.of t₁).installed.index)))
        (untilSnapshot visited ++ [.snapshot]) := by
  obtain ⟨s, hrun, -⟩ := runs_snapshot visited_sound
  refine ⟨by rw [hrun]; rfl, (confState_iff plain 1 visited hrun fun rd hrd =>
    (untilSnapshot_from hrd).1).2 (atEach_snapshot visited_sound fun _ _ _ => ?_)⟩
  have hchange := membership_slice visited (k := 2) (n := 9999)
    (fun i hi => ⟨_, visited_payload hi⟩) ∅
  rw [handled_untilSnapshot visited_sound, installed_untilSnapshot]
  exact hchange.trans (by decide)

/-- The snapshot has no members, where the node is one. -/
theorem changing_confState :
    (∀ rd, .ready rd ∈ untilSnapshot changing → rd.From changing) ∧
      (Account.of (untilSnapshot changing)).installed = emptySnapshot ∧
      ∃ s snap, runs (step plain) (start 1) (untilSnapshot changing ++ [.snapshot]) = some s ∧
        s.newest = some snap ∧ snap.index = 10001 ∧ snap.confState = [] ∧
        membership ∅ (changing.slice 0 10001) = {1} := by
  obtain ⟨s, hrun, hnew⟩ := runs_snapshot changing_sound
  have hchange := membership_slice changing (k := 1) (n := 10000)
    (fun i hi => ⟨_, changing_payload hi⟩) ∅
  exact ⟨fun rd hrd => (untilSnapshot_from (List.mem_append_left _ hrd)).1,
    installed_untilSnapshot changing, s, _, hrun, hnew, rfl, rfl, hchange.trans (by decide)⟩

end System

end DistSystem.Etcd
