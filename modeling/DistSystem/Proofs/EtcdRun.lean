import DistSystem.Proofs.EtcdStore

/-!
# A first run

A node that starts with an empty disk, is handed the first `n` entries of a log at once, and whose
reader keeps up with it: what the node is then, and what it saves.
-/

namespace DistSystem.Etcd

open Interleaving
open MapReduce (ascii)

variable {C : Codec} {s : System} {id : ℕ} {log : Committed}

/-! ## The entries in storage -/

theorem sub64_zero {a : ℕ} (h : a < uint64Size) : sub64 a 0 = a := by
  simp [sub64, Nat.mod_eq_of_lt h]

theorem Committed.getElem?_slice (log : Committed) (a k i : ℕ) (h : i < k) :
    (log.slice a k)[i]? = some (log.entry (a + i + 1)) := by
  rw [slice, List.getElem?_map, List.getElem?_range' h]
  simp [Nat.add_right_comm]

namespace MemoryStorage

/-- The first `n` entries, and a snapshot. -/
def filled (log : Committed) (n : ℕ) (snap : Snapshot) : MemoryStorage :=
  ⟨snap, place 0 0, log.slice 0 n⟩

theorem append_slice (log : Committed) (n : ℕ) :
    new.append (log.slice 0 n) = .ok (filled log n emptySnapshot) := by
  rcases n with _ | n
  · rfl
  · have hsub : sub64 1 0 = 1 := sub64_zero (by decide)
    rw [Committed.slice_succ]
    simp only [append, splice, log.index_entry]
    simp [firstIndex, new, place, filled, Committed.slice_succ, hsub]

theorem getElem?_filled {n i : ℕ} (hi : 0 < i) (hin : i ≤ n) (snap : Snapshot) :
    ((filled log n snap).dummy :: (filled log n snap).ents)[i]? = some (log.entry i) := by
  obtain ⟨i, rfl⟩ := Nat.exists_eq_succ_of_ne_zero hi.ne'
  rw [List.getElem?_cons_succ]
  exact (log.getElem?_slice 0 n i hin).trans (by rw [Nat.zero_add])

theorem lastIndex_filled (log : Committed) (n : ℕ) (snap : Snapshot) :
    (filled log n snap).lastIndex = n := by
  simp [lastIndex, filled, place]

theorem createSnapshot_filled {n : ℕ} (h0 : 0 < n) (hn : n < uint64Size) (cs : List ℕ)
    (data : MapReduce.Str) : (filled log n emptySnapshot).createSnapshot n cs data =
      .ok (⟨n, (log.entry n).term, cs, data⟩,
        filled log n ⟨n, (log.entry n).term, cs, data⟩) := by
  have hsub : sub64 n (filled log n emptySnapshot).dummy.index = n := sub64_zero hn
  have hnew : ¬ n ≤ (filled log n emptySnapshot).snapshot.index := Nat.not_le_of_gt h0
  simp only [createSnapshot, if_neg hnew, lastIndex_filled, lt_irrefl, if_false, hsub,
    getElem?_filled h0 le_rfl]
  rfl

theorem compact_filled (log : Committed) {n i : ℕ} (h0 : 0 < i) (hi : i ≤ n) (snap : Snapshot) :
    ∃ storage, (filled log n snap).compact i = .ok storage := by
  have hdummy : ¬ i ≤ (filled log n snap).dummy.index := Nat.not_le_of_gt h0
  have hget : ((filled log n snap).dummy :: (filled log n snap).ents)[
      i - (filled log n snap).dummy.index]? = some (log.entry i) := getElem?_filled h0 hi snap
  simp only [compact, if_neg hdummy, lastIndex_filled, if_neg (Nat.not_lt_of_le hi), hget]
  exact ⟨_, rfl⟩

end MemoryStorage

theorem RaftNode.entriesToApply_first {rc : RaftNode} (h : rc.appliedIndex = 0) (n : ℕ) :
    rc.entriesToApply (log.slice 0 n) = .ok (log.slice 0 n) := by
  rcases n with _ | n
  · rfl
  · have hoff : add64 (sub64 0 (0 + 1)) 1 = 0 := add64_sub64 le_rfl (by decide)
    have hfirst : ¬ add64 0 1 < 0 + 1 := by decide
    rw [Committed.slice_succ]
    simp only [entriesToApply, h, log.index_entry, hoff, if_neg hfirst]
    simp

/-! ## The start -/

/-- The node starts, and gets its first `Ready`. -/
def opening (log : Committed) (n : ℕ) : List Event :=
  [.replay, .load, .spawn, .assign, .ready ⟨log.slice 0 n, emptySnapshot, log.slice 0 n⟩, .append]

namespace System

/-- The node in the middle of a first run. -/
def running (id : ℕ) (log : Committed) (n i : ℕ) (ents : List Entry) (m : Store) : System where
  wal := log.slice 0 n
  newest := none
  rc := ⟨id, 0, [], 0, i, .filled log n emptySnapshot⟩
  loop := .publishing ents
  stopc := false
  kvStore := m
  reader := .receiving
  second := true
  kvs := true
  crash := none

@[simp] theorem running_kvStore (id : ℕ) (log : Committed) (n i : ℕ) (ents : List Entry)
    (m : Store) : (running id log n i ents m).kvStore = m := rfl

theorem runs_opening (C : Codec) (id : ℕ) (log : Committed) (n : ℕ) :
    runs (step C) (start id) (opening log n) = some (running id log n 0 (log.slice 0 n) ∅) := by
  have hents : (start id).rc.entriesToApply (log.slice 0 n) = .ok (log.slice 0 n) :=
    RaftNode.entriesToApply_first rfl n
  have happ : (start id).rc.raftStorage.append (log.slice 0 n) =
      .ok (.filled log n emptySnapshot) := MemoryStorage.append_slice log n
  have hready : runs (step C) (start id) (opening log n).dropLast = some
      { start id with
        wal := log.slice 0 n
        loop := .appending ⟨log.slice 0 n, emptySnapshot, log.slice 0 n⟩
        second := true
        kvs := true } := rfl
  have happend : step C .append
      { start id with
        wal := log.slice 0 n
        loop := .appending ⟨log.slice 0 n, emptySnapshot, log.slice 0 n⟩
        second := true
        kvs := true } = some (running id log n 0 (log.slice 0 n) ∅) := by
    have hcr : (start id).crash = none := rfl
    simp only [step, next, hcr, happ, hents]
    rfl
  have hall : runs (step C) (start id) ((opening log n).dropLast ++ [.append]) = _ :=
    runs_trans hready (runs_cons happend rfl)
  exact hall

end System

/-! ## A reader that keeps up -/

/-- The node goes through an entry, and the reader stores it. -/
def follow (e : Entry) : List Event := if e.data = [] then [.apply e] else [.send e, .store]

@[simp] theorem mem_follow {x : Event} {e : Entry} : x ∈ follow e ↔
    e.data = [] ∧ x = .apply e ∨ e.data ≠ [] ∧ (x = .send e ∨ x = .store) := by
  unfold follow
  split_ifs with h <;> simp [h]

theorem eq_of_ready_mem_opening {n : ℕ} {u : List Event} (hu : ∀ rd, .ready rd ∉ u) {rd : Ready}
    (hrd : .ready rd ∈ opening log n ++ u) :
    rd = ⟨log.slice 0 n, emptySnapshot, log.slice 0 n⟩ := by
  simpa [opening, hu rd] using hrd

theorem opening_from {n : ℕ} (hn : n < uint64Size) {u : List Event} (hu : ∀ rd, .ready rd ∉ u)
    {rd : Ready} (hrd : .ready rd ∈ opening log n ++ u) :
    rd.From log ∧ rd.snapshot = emptySnapshot := by
  obtain rfl := eq_of_ready_mem_opening hu hrd
  exact ⟨⟨⟨0, n, rfl, by omega⟩, show 0 < uint64Size by decide⟩, rfl⟩

/-- The entry leaves the node in the cluster, and can be decoded. -/
structure Entry.Sound (C : Codec) (id : ℕ) (e : Entry) : Prop where
  stays : ¬ e.Removes id
  decodes : e.data ≠ [] → (C.decode e.data).isSome = true

namespace System

theorem step_send {n i : ℕ} {ents : List Entry} {m : Store}
    (hd : (log.entry (i + 1)).data ≠ []) :
    step C (.send (log.entry (i + 1))) (running id log n i (log.entry (i + 1) :: ents) m) =
      some { running id log n (i + 1) ents m with
        reader := .decoding (log.entry (i + 1)).data } := by
  simp [step, next, running, hd, advance, log.index_entry (i + 1)]

theorem runs_follow_one {n i : ℕ} {ents : List Entry} {m : Store}
    (h : (log.entry (i + 1)).Sound C id) :
    runs (step C) (running id log n i (log.entry (i + 1) :: ents) m) (follow (log.entry (i + 1))) =
      some (running id log n (i + 1) ents (C.applyEntry m (log.entry (i + 1)))) := by
  by_cases hd : (log.entry (i + 1)).data = []
  · rw [follow, if_pos hd, Codec.applyEntry, if_pos hd]
    refine runs_cons ?_ rfl
    simp [step, next, running, hd, h.stays, advance, log.index_entry (i + 1)]
  · obtain ⟨kv, hkv⟩ := Option.isSome_iff_exists.mp (h.decodes hd)
    rw [follow, if_neg hd, Codec.applyEntry, if_neg hd]
    refine runs_cons (step_send hd) (runs_cons ?_ rfl)
    simp [step, next, running, Codec.storeCommit, hkv, Except.toOption]

theorem runs_follow {n : ℕ} (rest : List Entry) : ∀ (k i : ℕ) (m : Store),
    (∀ j, i < j → j ≤ i + k → (log.entry j).Sound C id) →
    runs (step C) (running id log n i (log.slice i k ++ rest) m) ((log.slice i k).flatMap follow) =
      some (running id log n (i + k) rest ((log.slice i k).foldl C.applyEntry m))
  | 0, i, m, h => rfl
  | k + 1, i, m, h => by
    rw [Committed.slice_succ, List.flatMap_cons, List.foldl_cons, List.cons_append]
    refine runs_trans (runs_follow_one (h (i + 1) (by omega) (by omega))) ?_
    rw [show i + (k + 1) = i + 1 + k by omega]
    exact runs_follow rest k (i + 1) _ fun j hj hjk => h j (by omega) (by omega)

/-- The first `k` entries are stored. -/
theorem runs_first {k j : ℕ} (h : ∀ i, 0 < i → i ≤ k → (log.entry i).Sound C id) :
    runs (step C) (start id) (opening log (k + j) ++ (log.slice 0 k).flatMap follow) =
      some (running id log (k + j) k (log.slice k j) (log.mapAt C k)) := by
  have hopen := runs_opening C id log (k + j)
  rw [log.slice_add 0 k j] at hopen
  refine runs_trans hopen ((runs_follow _ k 0 ∅ fun i hi hik => h i hi (by omega)).trans ?_)
  rw [Nat.zero_add]
  rfl

/-! ## The first snapshot -/

/-- The node has been through `n` entries, whatever the reader does. -/
structure Through (log : Committed) (n : ℕ) (s : System) : Prop where
  crash : s.crash = none
  loop : s.loop = .publishing []
  kvs : s.kvs = true
  rc : ∃ id, s.rc = ⟨id, 0, [], 0, n, .filled log n emptySnapshot⟩

variable {n : ℕ}

theorem Through.saving (h : Through log n s) (h0 : 0 < n) (hn : n < uint64Size) :
    ∃ rc, s.saving C = .ok (⟨n, (log.entry n).term, [], C.marshal s.kvStore⟩, rc) ∧
      rc.appliedIndex = n ∧ ∃ snap, rc.raftStorage = .filled log n snap := by
  obtain ⟨id, hrc⟩ := h.rc
  simp only [System.saving, h.kvs, if_true, RaftNode.createSnapshot, hrc,
    MemoryStorage.createSnapshot_filled h0 hn]
  exact ⟨_, rfl, rfl, _, rfl⟩

/-- The node saves its store. -/
theorem Through.step (h : Through log n s) (hdue : defaultSnapCount < n) (hn : n < uint64Size) :
    ∃ s', s.step C .snapshot = some s' ∧
      s'.newest = some ⟨n, (log.entry n).term, [], C.marshal s.kvStore⟩ := by
  have h0 : 0 < n := Nat.zero_lt_of_lt hdue
  obtain ⟨rc, hs, happ, snap, hst⟩ := h.saving (C := C) h0 hn
  have hd : s.rc.Due := by
    obtain ⟨id, hrc⟩ := h.rc
    rw [RaftNode.Due, hrc]
    exact (sub64_zero hn).symm ▸ hdue
  have hci : 0 < rc.compactIndex ∧ rc.compactIndex ≤ n := by
    unfold RaftNode.compactIndex snapshotCatchUpEntriesN
    unfold defaultSnapCount at hdue
    split_ifs <;> omega
  obtain ⟨storage, hc⟩ := MemoryStorage.compact_filled log hci.1 hci.2 snap
  simp only [System.step, h.crash, next, h.loop, hd, hs, RaftNode.compact, hst, hc, and_self,
    if_true]
  exact ⟨_, rfl, rfl⟩

end System

/-- The run of a node, with its reader, up to the first snapshot that it takes. -/
def untilSnapshot (log : Committed) : List Event :=
  opening log 10001 ++ (log.slice 0 10001).flatMap follow

theorem untilSnapshot_from {rd : Ready} (hrd : .ready rd ∈ untilSnapshot log ++ [.snapshot]) :
    rd.From log ∧ rd.snapshot = emptySnapshot := by
  rw [untilSnapshot, List.append_assoc] at hrd
  exact opening_from (by decide) (by simp) hrd

namespace System

theorem runs_untilSnapshot (h : ∀ i, (log.entry i).Sound C id) :
    runs (step C) (start id) (untilSnapshot log) =
      some (running id log 10001 10001 [] (log.mapAt C 10001)) :=
  runs_first (j := 0) fun i _ _ => h i

theorem runs_snapshot (h : ∀ i, (log.entry i).Sound C id) :
    ∃ s, runs (step C) (start id) (untilSnapshot log ++ [.snapshot]) = some s ∧
      s.newest = some ⟨10001, (log.entry 10001).term, [], C.marshal (log.mapAt C 10001)⟩ := by
  have hthr : Through log 10001 (running id log 10001 10001 [] (log.mapAt C 10001)) :=
    ⟨rfl, rfl, rfl, id, rfl⟩
  obtain ⟨s, hs, hnew⟩ := hthr.step (C := C) (by decide) (by decide)
  rw [running_kvStore] at hnew
  exact ⟨s, runs_trans (runs_untilSnapshot h) (runs_cons hs rfl), hnew⟩

/-- What is to hold whenever a snapshot is taken. -/
theorem atEach_snapshot (h : ∀ i, (log.entry i).Sound C id) {P : List Event → System → Prop}
    (hP : P (untilSnapshot log) (running id log 10001 10001 [] (log.mapAt C 10001))) :
    AtEach (step C) (start id) (fun t s e => e = .snapshot → P t s)
      (untilSnapshot log ++ [.snapshot]) := by
  rw [atEach_concat (runs_untilSnapshot h)]
  refine ⟨fun t₁ e t₂ s₁ ht _ he => ?_, fun _ => hP⟩
  have hmem : e ∈ untilSnapshot log := by simp [ht]
  subst he
  simp [untilSnapshot, opening] at hmem

end System

/-! ## Entries of one key -/

theorem Entry.sound_of_stored {e : Entry} {v : String}
    (hp : e.payload = .normal (gob (ascii "k") (ascii v)))
    (hv : (plain.decode (gob (ascii "k") (ascii v))).isSome = true) : e.Sound plain id := by
  refine ⟨?_, fun _ => ?_⟩
  · rw [Entry.Removes, hp]
    simp
  · rw [Entry.data, hp]
    exact hv

/-- The cluster is set up, one value is stored again and again, and then another one. -/
def changing : Committed := logOf fun i =>
  if i = 1 then .confChange ⟨.addNode, 1⟩
  else .normal (gob (ascii "k") (ascii (if i = 10001 then "b" else "a")))

theorem changing_payload {i : ℕ} (hi : 1 < i) : (changing.entry i).payload =
    .normal (gob (ascii "k") (ascii (if i = 10001 then "b" else "a"))) := if_neg hi.ne'

theorem changing_sound (i : ℕ) : (changing.entry i).Sound plain 1 := by
  by_cases h1 : i = 1
  · subst h1
    exact ⟨by decide, by decide⟩
  · exact Entry.sound_of_stored (if_neg h1) (by split_ifs <;> decide)

end DistSystem.Etcd
