import DistSystem.Proofs.EtcdRun

/-!
# Compaction

Whenever `maybeTriggerSnapshot` goes on, what it asks of storage is there: the snapshot is past the
last one, and the log is cut past the last cut. The four indices stay in order because the log is
cut no later than at the last snapshot, and a snapshot that is received empties storage
(`Stock`).
-/

namespace DistSystem.Etcd

open Interleaving

theorem sub64_eq {a b : ℕ} (h : b ≤ a) (ha : a < uint64Size) : sub64 a b = a - b := by
  unfold sub64 uint64Size at *
  omega

/-! ## Entries in their place -/

namespace MemoryStorage

variable {ms ms' : MemoryStorage} {ents : List Entry} {a n : ℕ}

/-- The entry is in its place, or was there before the log was cut. -/
def Holds (ms : MemoryStorage) (x : Entry) : Prop :=
  x.index ≤ ms.dummy.index ∨ ms.ents[x.index - ms.dummy.index - 1]? = some x

/-- Up to `n`, an entry has the index of its place. -/
def Numbered (ms : MemoryStorage) (n : ℕ) : Prop :=
  ∀ j x, ms.ents[j]? = some x → ms.dummy.index + j + 1 ≤ n → x.index = ms.dummy.index + j + 1

theorem splice_numbered (hents : ∀ j x, ents[j]? = some x → x.index = a + j ∧ x.index < uint64Size)
    (ha : ms.firstIndex ≤ a) (h : ms.splice ents = .ok ms') (hn : ms.Numbered n) :
    ms'.dummy = ms.dummy ∧ ms'.Numbered n := by
  rcases ents with _ | ⟨e, rest⟩
  · cases h
  obtain ⟨p, rfl⟩ := Nat.exists_eq_add_of_le ha
  obtain ⟨he, hlt⟩ := hents 0 e rfl
  have hsub : sub64 e.index ms.dummy.index = p + 1 := by
    rw [sub64_eq (by rw [he, firstIndex]; omega) hlt, he, firstIndex]
    omega
  simp only [splice, hsub, List.take_succ_cons] at h
  split_ifs at h with hp
  obtain rfl := Except.ok.inj h
  refine ⟨rfl, fun j x hx hj => ?_⟩
  have hlen : (ms.ents.take p).length = p := List.length_take_of_le (Nat.le_of_succ_le_succ hp)
  rcases lt_or_ge j p with hjp | hjp
  · rw [List.getElem?_append_left (by omega), List.getElem?_take_of_lt hjp] at hx
    exact hn j x hx hj
  · rw [List.getElem?_append_right (by omega), hlen] at hx
    have hidx := (hents _ x hx).1
    rw [firstIndex] at hidx
    simp only [] at hj ⊢
    omega

theorem append_numbered (hents : ∀ j x, ents[j]? = some x → x.index = a + j ∧ x.index < uint64Size)
    (h : ms.append ents = .ok ms') (hn : ms.Numbered n) :
    ms'.dummy = ms.dummy ∧ ms'.Numbered n := by
  rcases ents with _ | ⟨e, rest⟩
  · obtain rfl := Except.ok.inj h
    exact ⟨rfl, hn⟩
  obtain ⟨he, -⟩ := hents 0 e rfl
  simp only [append] at h
  split_ifs at h with hold hpart
  · obtain rfl := Except.ok.inj h
    exact ⟨rfl, hn⟩
  · refine splice_numbered (a := ms.firstIndex) (fun j x hx => ?_) le_rfl h hn
    rw [List.getElem?_drop] at hx
    obtain ⟨hidx, hlt⟩ := hents _ x hx
    exact ⟨by omega, hlt⟩
  · exact splice_numbered hents (by omega) h hn

/-- The entries of the write-ahead log do not move the start of storage, whatever they are. -/
theorem append_new (hents : ∀ x ∈ ents, x.index < uint64Size) (h : new.append ents = .ok ms) :
    ms.dummy.index = 0 := by
  have hsplice : ∀ l, (∀ x ∈ l, x.index < uint64Size) → new.splice l = .ok ms →
      ms.dummy.index = 0 := by
    intro l hl h
    rcases l with _ | ⟨e, rest⟩
    · cases h
    have hsub : sub64 e.index new.dummy.index = e.index := sub64_zero (hl e (by simp))
    simp only [splice, hsub] at h
    split_ifs at h
    rcases hi : e.index with _ | i
    · rw [hi] at h
      obtain rfl := Except.ok.inj h
      exact hi
    · rw [hi] at h
      obtain rfl := Except.ok.inj h
      rfl
  unfold append at h
  split at h
  · exact Except.ok.inj h ▸ rfl
  · split_ifs at h
    · exact Except.ok.inj h ▸ rfl
    · exact hsplice _ (fun x hx => hents x (List.mem_of_mem_drop hx)) h
    · exact hsplice _ hents h

theorem createSnapshot_eq {i : ℕ} (hi : i < uint64Size) (hd : ms.dummy.index ≤ i)
    (hs : ms.snapshot.index < i) (hl : i ≤ ms.lastIndex) (cs : List ℕ) (data : MapReduce.Str) :
    ∃ snap, snap.index = i ∧
      ms.createSnapshot i cs data = .ok (snap, { ms with snapshot := snap }) := by
  have hget : i - ms.dummy.index < (ms.dummy :: ms.ents).length := by
    rw [lastIndex] at hl
    simp only [List.length_cons]
    omega
  simp only [createSnapshot, if_neg hs.not_ge, if_neg hl.not_gt, sub64_eq hd hi,
    List.getElem?_eq_getElem hget]
  exact ⟨_, rfl, rfl⟩

theorem compact_numbered {i : ℕ} (hd : ms.dummy.index < i) (hl : i ≤ ms.lastIndex)
    (hn : ms.Numbered n) (hi : i ≤ n) :
    ∃ ms', ms.compact i = .ok ms' ∧ ms'.snapshot = ms.snapshot ∧ ms'.dummy.index = i ∧
      ms'.Numbered n := by
  obtain ⟨p, rfl⟩ := Nat.exists_eq_add_of_lt hd
  have hget : p < ms.ents.length := by
    rw [lastIndex] at hl
    omega
  have hsub : ms.dummy.index + p + 1 - ms.dummy.index = p + 1 := by omega
  have hidx := hn p _ (List.getElem?_eq_getElem hget) hi
  simp only [compact, if_neg hd.not_ge, if_neg hl.not_gt, hsub, List.getElem?_cons_succ,
    List.getElem?_eq_getElem hget]
  refine ⟨_, rfl, rfl, hidx, fun j x hx hj => ?_⟩
  rw [List.getElem?_drop] at hx
  simp only [place, hidx] at hj ⊢
  have := hn _ x hx (by omega)
  omega

end MemoryStorage

/-! ## What is in storage -/

namespace RaftNode

variable {rc : RaftNode} {n : ℕ}

/-- The indices of a node that has in storage what it has applied, and is to apply up to `n`. -/
structure Stock (rc : RaftNode) (n : ℕ) : Prop where
  snapshot : rc.raftStorage.snapshot.index = rc.snapshotIndex
  le : rc.snapshotIndex ≤ rc.appliedIndex
  dummy : rc.raftStorage.dummy.index ≤ rc.snapshotIndex
  numbered : rc.raftStorage.Numbered n

theorem not_due_of_eq (h : rc.snapshotIndex = rc.appliedIndex)
    (hA : rc.appliedIndex < uint64Size) : ¬ rc.Due := by
  rw [Due, h, sub64_eq le_rfl hA, Nat.sub_self]
  exact Nat.not_lt_zero _

/-- Between the last snapshot and what is applied there is room for the entries that a slow
follower may still ask for. -/
theorem Stock.compactIndex (h : rc.Stock n) (hA : rc.appliedIndex < uint64Size) (hdue : rc.Due) :
    rc.raftStorage.snapshot.index < rc.appliedIndex ∧
      rc.raftStorage.dummy.index < rc.compactIndex ∧ rc.compactIndex ≤ rc.appliedIndex := by
  have hle := h.le
  have hdummy := h.dummy
  rw [Due, sub64_eq hle hA, defaultSnapCount] at hdue
  rw [h.snapshot, RaftNode.compactIndex, snapshotCatchUpEntriesN]
  split_ifs <;> omega

theorem Stock.compacts (h : rc.Stock rc.appliedIndex) (hA : rc.appliedIndex < uint64Size)
    (hl : rc.appliedIndex ≤ rc.raftStorage.lastIndex) (hdue : rc.Due) (data : MapReduce.Str) :
    ∃ snap rc₁ rc₂, rc.createSnapshot data = .ok (snap, rc₁) ∧ rc₁.compact = .ok rc₂ ∧
      rc₂.Stock rc₂.appliedIndex ∧ ¬ rc₂.Due := by
  obtain ⟨hs, hd, hc⟩ := h.compactIndex hA hdue
  obtain ⟨snap, hidx, hcreate⟩ := MemoryStorage.createSnapshot_eq hA (h.dummy.trans h.le) hs hl
    rc.confState data
  set rc₁ : RaftNode := { rc with raftStorage := { rc.raftStorage with snapshot := snap } }
  obtain ⟨ms', hcompact, hsnap, hdummy, hnum⟩ :
      ∃ ms', rc₁.raftStorage.compact rc₁.compactIndex = .ok ms' ∧ ms'.snapshot = snap ∧
        ms'.dummy.index = rc.compactIndex ∧ ms'.Numbered rc.appliedIndex :=
    MemoryStorage.compact_numbered hd (hc.trans hl) h.numbered hc
  refine ⟨snap, rc₁, { rc₁ with raftStorage := ms', snapshotIndex := rc.appliedIndex }, ?_, ?_,
    ⟨?_, le_rfl, ?_, hnum⟩, not_due_of_eq rfl hA⟩
  · simp only [createSnapshot, hcreate]
    rfl
  · simp only [compact, hcompact]
    rfl
  · rw [← hidx, ← hsnap]
  · exact hdummy.trans_le hc

theorem mem_of_entriesToApply {ents ents' : List Entry} {x : Entry}
    (h : rc.entriesToApply ents = .ok ents') (hx : x ∈ ents') : x ∈ ents := by
  unfold entriesToApply at h
  split at h
  · exact Except.ok.inj h ▸ hx
  · split_ifs at h
    · rw [← Except.ok.inj h] at hx
      exact List.mem_of_mem_drop hx
    · rw [← Except.ok.inj h] at hx
      cases hx

/-- What is in storage, by the place of the loop. In the middle of a batch its entries are there,
and a snapshot is due only if there was one. -/
def Stocked (rc : RaftNode) : Loop → Prop
  | .stopped _ => True
  | .announcing rd => rc.appliedIndex < rd.snapshot.index →
    rc.raftStorage = ⟨rd.snapshot, place rd.snapshot.term rd.snapshot.index, []⟩
  | .publishing ents | .signalling ents => rc.Stock (rc.appliedIndex + ents.length) ∧
    (ents ≠ [] ∨ rc.Due → rc.appliedIndex + ents.length ≤ rc.raftStorage.lastIndex)
  | _ => rc.Stock rc.appliedIndex ∧ ¬ rc.Due

theorem Stock.install (h : rc.Stock rc.appliedIndex) (rd : Ready) :
    Stocked { rc with raftStorage := rc.raftStorage.applySnapshot rd.snapshot }
      (.announcing rd) := by
  intro hlt
  have hnew : ¬ rd.snapshot.index ≤ rc.raftStorage.snapshot.index := by
    rw [h.snapshot]
    exact (h.le.trans_lt hlt).not_ge
  simp only [MemoryStorage.applySnapshot, if_neg hnew]

theorem stocked_publishSnapshot {rd : Ready} (h : Stocked rc (.announcing rd))
    (hlt : rc.appliedIndex < rd.snapshot.index) (hsnap : rd.snapshot.index < uint64Size) :
    Stocked (rc.publishSnapshot rd.snapshot) (.appending rd) := by
  have hst : (rc.publishSnapshot rd.snapshot).raftStorage =
      ⟨rd.snapshot, place rd.snapshot.term rd.snapshot.index, []⟩ := h hlt
  refine ⟨⟨?_, le_rfl, ?_, ?_⟩, not_due_of_eq rfl hsnap⟩
  · rw [hst]
    rfl
  · rw [hst]
    exact le_rfl
  · rw [hst]
    exact fun j x hx _ => by cases hx

theorem Stock.append {log : Committed} {rd : Ready} {storage : MemoryStorage} {ents : List Entry}
    {a k : ℕ} (h : rc.Stock rc.appliedIndex) (hdue : ¬ rc.Due)
    (hents : ∀ j x, rd.entries[j]? = some x → x.index = a + j ∧ x.index < uint64Size)
    (hs : rc.raftStorage.append rd.entries = .ok storage)
    (hheld : ∀ x ∈ rd.committedEntries, storage.Holds x)
    (he : rc.entriesToApply rd.committedEntries = .ok ents)
    (hk : ents = log.slice rc.appliedIndex k) :
    Stocked { rc with raftStorage := storage } (.publishing ents) := by
  obtain ⟨hdummy, hnum⟩ := MemoryStorage.append_numbered hents hs h.numbered
  have hle : storage.dummy.index ≤ rc.appliedIndex := by
    rw [hdummy]
    exact h.dummy.trans h.le
  have hnew : ∀ i, rc.appliedIndex < i → i ≤ rc.appliedIndex + k →
      storage.ents[i - storage.dummy.index - 1]? = some (log.entry i) := by
    intro i hi hik
    have hmem : log.entry i ∈ ents := by
      rw [hk, Committed.slice]
      exact List.mem_map_of_mem (List.mem_range'_1.mpr ⟨hi, by omega⟩)
    have := hheld _ (mem_of_entriesToApply he hmem)
    rw [MemoryStorage.Holds, log.index_entry] at this
    exact this.resolve_left (by omega)
  have hlen : ents.length = k := by rw [hk, Committed.length_slice]
  refine ⟨⟨?_, h.le, hdummy ▸ h.dummy, fun j x hx hj => ?_⟩, fun hne => ?_⟩
  · rw [MemoryStorage.append_snapshot hs]
    exact h.snapshot
  · rcases le_or_gt (storage.dummy.index + j + 1) rc.appliedIndex with hA | hA
    · exact hnum j x hx hA
    · have hx' := hnew _ hA (by simpa [hlen] using hj)
      rw [show storage.dummy.index + j + 1 - storage.dummy.index - 1 = j by omega] at hx'
      obtain rfl := Option.some.inj (hx.symm.trans hx')
      exact log.index_entry _
  · have hpos : 0 < k := by
      rw [← hlen]
      exact List.length_pos_iff.mpr (hne.resolve_right hdue)
    have hlast := (List.getElem?_eq_some_iff.mp
      (hnew (rc.appliedIndex + k) (by omega) le_rfl)).choose
    simp only [MemoryStorage.lastIndex, hlen]
    omega

/-- `publishEntries` gets to the next entry. -/
theorem stocked_advance {x : Entry} {ents : List Entry} (h : Stocked rc (.publishing (x :: ents)))
    (hx : x.index = rc.appliedIndex + 1) :
    Stocked { rc with appliedIndex := x.index }
      (if x.index = rc.lastIndex then .signalling ents else .publishing ents) := by
  obtain ⟨⟨hsnap, hle, hdummy, hnum⟩, hlast⟩ := h
  have hn : rc.appliedIndex + (x :: ents).length = x.index + ents.length := by
    rw [hx, List.length_cons]
    omega
  rw [hn] at hnum hlast
  have hst : Stock { rc with appliedIndex := x.index } (x.index + ents.length) :=
    ⟨hsnap, hle.trans (by simp only []; omega), hdummy, hnum⟩
  split_ifs <;> exact ⟨hst, fun _ => hlast (.inl (by simp))⟩

end RaftNode

/-! ## Runs -/

/-- A `Ready` with a piece of the log to apply, and with entries that follow one another. -/
structure Ready.Orderly (log : Committed) (rd : Ready) : Prop where
  pieces : rd.From log
  entries : ∃ a, ∀ j (x : Entry), rd.entries[j]? = some x → x.index = a + j ∧ x.index < uint64Size

namespace System

variable {C : Codec} {s s' : System} {e : Event} {t : List Event} {u : List Turn} {id : ℕ}
  {log : Committed}

/-- What is to be applied is in storage once the new entries are. -/
def CommittedHeld (s : System) : Prop :=
  ∀ rd storage, s.loop = .appending rd → s.rc.raftStorage.append rd.entries = .ok storage →
    ∀ x ∈ rd.committedEntries, storage.Holds x

theorem boot_stocked (wal : List Entry) (newest : Option Snapshot)
    {read : Except Crash (List Entry)}
    (hread : ∀ ents, read = .ok ents → ∀ x ∈ ents, x.index < uint64Size) :
    (boot id wal newest read).rc.Stocked (boot id wal newest read).loop := by
  have hnew : RaftNode.Stocked (.new id [] .new) .replaying :=
    ⟨⟨rfl, le_rfl, le_rfl, fun j x hx _ => by cases hx⟩,
      RaftNode.not_due_of_eq rfl (show 0 < uint64Size by decide)⟩
  unfold boot
  simp only []
  split
  · exact hnew
  · exact hnew
  · split
    · exact hnew
    · rename_i e ents _ storage hs
      have hsnap : storage.snapshot.index = 0 :=
        congrArg Snapshot.index (MemoryStorage.append_snapshot hs)
      have hdummy := MemoryStorage.append_new (hread _ rfl) hs
      refine ⟨⟨rfl, le_rfl, ?_, fun j x _ hj => ?_⟩, RaftNode.not_due_of_eq rfl ?_⟩
      · exact hdummy.trans_le (Nat.zero_le _)
      · simp only [RaftNode.new, hsnap] at hj
        omega
      · simp only [RaftNode.new, hsnap]
        decide

theorem step_stocked (h : s.rc.Stocked s.loop) (hstep : s.step C e = some s')
    (htr : Tracked log t s) (hdel : ∀ rd, .ready rd ∈ t → rd.Orderly log)
    (hread : ∀ ents, e = .restart (.ok ents) → ∀ x ∈ ents, x.index < uint64Size)
    (hheld : e = .append → s.CommittedHeld) : s'.rc.Stocked s'.loop := by
  have hnext : ∀ x ents, s.loop = .publishing (x :: ents) → x.index = s.rc.appliedIndex + 1 := by
    intro x ents hl
    obtain ⟨k, hk, -⟩ := htr.rest (x :: ents) (by rw [hl]; rfl)
    rcases k with _ | k
    · cases hk
    · rw [Committed.slice_succ, List.cons.injEq] at hk
      rw [hk.1, log.index_entry]
  cases step_moves hstep with
  | replay hl =>
    rw [hl] at h
    exact h
  | ready rd hl =>
    rw [hl] at h
    simp only []
    split_ifs <;> exact h
  | install rd hl =>
    rw [hl] at h
    exact h.1.install rd
  | publishSnapshot rd hl hlt =>
    have hmem := htr.ready rd (by rw [hl]; rfl)
    rw [hl] at h
    exact RaftNode.stocked_publishSnapshot h hlt (hdel rd hmem).pieces.snapshot
  | append rd storage ents hl hs he =>
    have hord := hdel rd (htr.ready rd (by rw [hl]; rfl))
    obtain ⟨a, hents⟩ := hord.entries
    obtain ⟨b, k, hpiece, hk⟩ := hord.pieces.committed
    obtain ⟨j, hj, -⟩ := RaftNode.entriesToApply_slice hk htr.lt (hpiece ▸ he)
    rw [hl] at h
    exact h.1.append h.2 hents hs (hheld rfl rd storage hl hs) he hj
  | apply x ents hl =>
    have hx := hnext x ents hl
    rw [hl] at h
    exact RaftNode.stocked_advance h hx
  | send x ents hl =>
    have hx := hnext x ents hl
    rw [hl] at h
    exact RaftNode.stocked_advance h hx
  | signal ents hl =>
    rw [hl] at h
    exact h
  | skipSnapshot hl hd =>
    rw [hl] at h
    exact ⟨h.1, hd⟩
  | snapshot snap rc rc' hl hd hs hc =>
    rw [hl] at h
    obtain ⟨snap', rc₁, rc₂, hcreate, hcompact, hst⟩ :=
      RaftNode.Stock.compacts h.1 htr.lt (h.2 (.inr hd)) hd (C.marshal s.kvStore)
    obtain ⟨-, rfl⟩ := Prod.mk.inj (Except.ok.inj (hcreate.symm.trans (saving_ok hs).2))
    obtain rfl := Except.ok.inj (hcompact.symm.trans hc)
    exact hst
  | remove | stop | transportError => trivial
  | restart read => exact boot_stocked _ _ fun ents hr => hread ents (hr ▸ rfl)
  | fail | compactFails | closeStopc | store | loadNone | load | recover | drain | spawn
  | assign => exact h

theorem serve_stocked (h : runs (serve C) (start id) u = some s)
    (hdel : ∀ rd, .node (.ready rd) ∈ u → rd.Orderly log)
    (hread : ∀ ents, .node (.restart (.ok ents)) ∈ u → ∀ x ∈ ents, x.index < uint64Size)
    (hheld : AtEach (serve C) (start id) (fun _ s e => e = .node .append → s.CommittedHeld) u) :
    s.rc.Stocked s.loop := by
  refine runs_induction (P := fun u s => (∀ rd, .node (.ready rd) ∈ u → rd.Orderly log) →
      (∀ ents, .node (.restart (.ok ents)) ∈ u → ∀ x ∈ ents, x.index < uint64Size) →
      AtEach (serve C) (start id) (fun _ s e => e = .node .append → s.CommittedHeld) u →
      s.rc.Stocked s.loop)
    (fun _ _ _ => boot_stocked _ _ fun ents hr => by cases hr; simp)
    (fun u s₁ e s₂ h₁ hP hstep hdel hread hheld => ?_) h hdel hread hheld
  have hdel' : ∀ rd, .node (.ready rd) ∈ u → rd.Orderly log := fun rd hrd =>
    hdel rd (List.mem_append_left _ hrd)
  obtain ⟨hat, hs₁⟩ := (atEach_concat h₁).mp hheld
  have hst := hP hdel' (fun ents he => hread ents (List.mem_append_left _ he)) hat
  cases e with
  | node e =>
    exact step_stocked hst hstep (serve_tracked h₁ fun rd hrd => (hdel' rd hrd).pieces)
      (fun rd hrd => hdel' rd (mem_events.mp hrd)) (fun ents he => hread ents (by simp [he]))
      fun he => hs₁ (he ▸ rfl)
  | other r m =>
    obtain rfl := Option.some.inj hstep
    exact hst

/-- Whatever batches and snapshots come in, and whatever is at the other end of `commitC`,
`maybeTriggerSnapshot` finds the indices in order, and neither `CreateSnapshot` nor `Compact`
fails. -/
theorem compaction_succeeds (h : runs (serve C) (start id) u = some s)
    (hdel : ∀ rd, .node (.ready rd) ∈ u → rd.Orderly log)
    (hread : ∀ ents, .node (.restart (.ok ents)) ∈ u → ∀ x ∈ ents, x.index < uint64Size)
    (hheld : AtEach (serve C) (start id) (fun _ s e => e = .node .append → s.CommittedHeld) u)
    (hl : s.loop = .publishing []) :
    s.rc.snapshotIndex ≤ s.rc.appliedIndex ∧
      sub64 s.rc.appliedIndex s.rc.snapshotIndex = s.rc.appliedIndex - s.rc.snapshotIndex ∧
      (s.rc.Due →
        s.rc.raftStorage.snapshot.index < s.rc.appliedIndex ∧
          s.rc.appliedIndex ≤ s.rc.raftStorage.lastIndex ∧
          s.rc.raftStorage.dummy.index < s.rc.compactIndex ∧
          s.rc.compactIndex ≤ s.rc.appliedIndex ∧
          ∀ data, ∃ snap rc₁ rc₂, s.rc.createSnapshot data = .ok (snap, rc₁) ∧
            rc₁.compact = .ok rc₂) := by
  have hst := serve_stocked h hdel hread hheld
  have hlt := (serve_tracked h fun rd hrd => (hdel rd hrd).pieces).lt
  rw [hl] at hst
  have hstock : s.rc.Stock s.rc.appliedIndex := hst.1
  refine ⟨hstock.le, sub64_eq hstock.le hlt, fun hdue => ?_⟩
  have hlast : s.rc.appliedIndex ≤ s.rc.raftStorage.lastIndex := hst.2 (.inr hdue)
  obtain ⟨hsnap, hdummy, hci⟩ := hstock.compactIndex hlt hdue
  refine ⟨hsnap, hlast, hdummy, hci, fun data => ?_⟩
  obtain ⟨snap, rc₁, rc₂, hcreate, hcompact, -⟩ := hstock.compacts hlt hlast hdue data
  exact ⟨snap, rc₁, rc₂, hcreate, hcompact⟩

/-- In a first run all of the log comes in at once, and is put in storage. -/
theorem untilSnapshot_held (C : Codec) (log : Committed) :
    AtEach (serve C) (start id) (fun _ s e => e = .node .append → s.CommittedHeld)
      ((untilSnapshot log).map .node) := by
  rintro u₁ - u₂ s₁ hu h₁ rfl rd storage hl hs x hx
  have hfollow : .node .append ∉ ((log.slice 0 10001).flatMap follow).map Turn.node := by
    simp
  have hu₁ : ((opening log 10001).dropLast).map Turn.node = u₁ := by
    have hcut : (untilSnapshot log).map Turn.node = ((opening log 10001).dropLast).map .node ++
        .node .append :: ((log.slice 0 10001).flatMap follow).map .node := by
      simp [untilSnapshot, opening]
    refine ((List.append_cons_inj_of_notMem ?_ hfollow).mp (hcut.symm.trans hu)).1
    simp [opening]
  subst hu₁
  rw [runs_map_node] at h₁
  obtain rfl := Option.some.inj (h₁.symm.trans rfl)
  cases hl
  obtain rfl := Except.ok.inj (hs.symm.trans (MemoryStorage.append_slice log 10001))
  obtain ⟨i, hi, rfl⟩ := List.mem_map.mp hx
  have hi := List.mem_range'_1.mp hi
  refine .inr ?_
  rw [log.index_entry]
  have hget := log.getElem?_slice 0 10001 (i - 1) (by omega)
  rw [show 0 + (i - 1) + 1 = i by omega] at hget
  exact hget

theorem untilSnapshot_orderly (log : Committed) {rd : Ready}
    (hrd : .node (.ready rd) ∈ (untilSnapshot log).map Turn.node) : rd.Orderly log := by
  have hmem : .ready rd ∈ untilSnapshot log := by simpa using hrd
  obtain rfl := eq_of_ready_mem_opening (by simp) hmem
  refine ⟨⟨⟨0, 10001, rfl, by decide⟩, show 0 < uint64Size by decide⟩, 1, fun j x hx => ?_⟩
  have hj : j < 10001 := by
    rw [← log.length_slice 0 10001]
    exact (List.getElem?_eq_some_iff.mp hx).choose
  obtain rfl := Option.some.inj (hx.symm.trans (log.getElem?_slice 0 10001 j hj))
  rw [log.index_entry, uint64Size]
  omega

theorem untilSnapshot_compacts :
    ∃ s, runs (serve plain) (start 1) ((untilSnapshot changing).map .node) = some s ∧
      s.rc.Due ∧ s.rc.raftStorage.dummy.index < s.rc.compactIndex := by
  have hrun := runs_untilSnapshot changing_sound
  rw [← runs_map_node] at hrun
  have hdue : (running 1 changing 10001 10001 [] (changing.mapAt plain 10001)).rc.Due := by
    decide
  have hread : ∀ ents, .node (.restart (.ok ents)) ∉ (untilSnapshot changing).map Turn.node := by
    simp [untilSnapshot, opening]
  obtain ⟨-, -, h⟩ := compaction_succeeds hrun (fun rd => untilSnapshot_orderly changing)
    (fun ents he => absurd he (hread ents)) (untilSnapshot_held plain changing) rfl
  exact ⟨_, hrun, hdue, (h hdue).2.2.1⟩

end System

end DistSystem.Etcd
