import DistSystem.Proofs.EtcdRun

/-!
# What a snapshot holds

`getSnapshot` reads the store while the reader may still hold the last entry, or the last snapshot
from the leader. Only the second `readCommits` is there to be read from, after the end of the replay
(`Joined`), so nothing else can be missing: a snapshot is the map at its index exactly if the reader
held nothing that changes the map.
-/

namespace DistSystem.Etcd

open Interleaving
open MapReduce (ascii)

/-- A snapshot from the leader is the map at its index. -/
def Ready.Carries (C : Codec) (log : Committed) (rd : Ready) : Prop :=
  rd.snapshot.index ≠ 0 → rd.snapshot.data = C.marshal (log.mapAt C rd.snapshot.index)

theorem Codec.recoverFromSnapshot_marshal (C : Codec) (m : Store) :
    C.recoverFromSnapshot (C.marshal m) = .ok m := by
  simp [recoverFromSnapshot, C.unmarshal_marshal]

namespace System

variable {C : Codec} {s s' : System} {e : Event} {t : List Event} {id : ℕ} {log : Committed}

/-! ## The end of the replay -/

/-- The nil at the end of the replay has been sent. -/
def Replayed (s : System) : Prop :=
  match s.loop with
  | .replaying => False
  | .signalling _ => False
  | .stopped _ => True
  | _ => s.rc.lastIndex ≤ s.rc.appliedIndex

/-- The first `readCommits` has returned, or will find no snapshot to load. -/
def Ended (s : System) : Prop :=
  s.second = true ∨ s.reader = .returned ∨ s.reader = .loading ∧ s.newest = none

theorem Ended.back (h : s'.Ended) (hs : s'.second = s.second)
    (hr : s'.reader = s.reader ∧ (s'.newest = none → s.newest = none) ∨
      s'.reader ≠ .returned ∧ (s'.reader = .loading → s'.newest ≠ none)) : s.Ended := by
  rcases h with h | h | ⟨h, hn⟩
  · exact .inl (hs ▸ h)
  · rcases hr with ⟨hr, -⟩ | ⟨hr, -⟩
    · exact .inr (.inl (hr ▸ h))
    · exact absurd h hr
  · rcases hr with ⟨hr, hn'⟩ | ⟨-, hn'⟩
    · exact .inr (.inr ⟨hr ▸ h, hn' hn⟩)
    · exact absurd hn (hn' h)

/-- `publishEntries` is past the end of the replay. -/
theorem Replayed.advance (h : s.Replayed) (htr : Tracked log t s) {x : Entry} {ents : List Entry}
    (hl : s.loop = .publishing (x :: ents)) : (s.advance x ents).Replayed := by
  obtain rfl := htr.head hl
  have hle : s.rc.lastIndex ≤ s.rc.appliedIndex := by
    rwa [Replayed, hl] at h
  have hne : s.rc.appliedIndex + 1 ≠ s.rc.lastIndex := by omega
  simp only [Replayed, System.advance, log.index_entry, if_neg hne]
  omega

theorem Replayed.step (h : s.Replayed) (htr : Tracked log t s) (hstep : s.step C e = some s')
    (he : ∀ read, e ≠ .restart read) : s'.Replayed := by
  cases step_moves hstep with
  | replay hl | signal ents hl =>
    rw [Replayed, hl] at h
    exact h.elim
  | ready rd hl =>
    rw [Replayed, hl] at h
    simp only [Replayed]
    split_ifs <;> exact h
  | install rd hl | append rd storage ents hl | skipSnapshot hl =>
    rwa [Replayed, hl] at h
  | publishSnapshot rd hl hlt =>
    rw [Replayed, hl] at h
    exact h.trans hlt.le
  | apply x ents hl => exact h.advance htr hl
  | send x ents hl => exact h.advance htr hl
  | snapshot snap rc rc' hl hd hs hc =>
    obtain ⟨storage, rfl⟩ := snapshot_rc hs hc
    rwa [Replayed, hl] at h
  | remove | stop | transportError => trivial
  | restart read => exact absurd rfl (he read)
  | _ => exact h

/-- What is behind `kvs` comes after the replay. -/
structure Joined (s : System) : Prop where
  assigned : s.kvs = true → s.second = true
  replaying : s.loop = .replaying → s.rc.lastIndex = 0
  signalling : ∀ ents, s.loop = .signalling ents → s.rc.appliedIndex = s.rc.lastIndex
  replayed : s.Ended → s.Replayed

namespace Joined

theorem keep (h : Joined s) (htr : Tracked log t s) (hstep : s.step C e = some s')
    (he : ∀ read, e ≠ .restart read) (hk : s'.kvs = true → s'.second = true)
    (hl : s'.loop ≠ .replaying ∧ (∀ ents, s'.loop ≠ .signalling ents) ∨
      s'.loop = s.loop ∧ s'.rc = s.rc)
    (hback : s'.Ended → s.Ended) : Joined s' := by
  refine ⟨hk, fun hrep => ?_, fun ents hsig => ?_, fun hend =>
    (h.replayed (hback hend)).step htr hstep he⟩
  · rcases hl with ⟨hl, -⟩ | ⟨hl, hrc⟩
    · exact absurd hrep hl
    · rw [hrc]
      exact h.replaying (hl ▸ hrep)
  · rcases hl with ⟨-, hl⟩ | ⟨hl, hrc⟩
    · exact absurd hsig (hl ents)
    · rw [hrc]
      exact h.signalling ents (hl ▸ hsig)

/-- A nil is sent at the end of the replay. -/
theorem nil (h : Joined s) (hk : s'.kvs = s.kvs) (hsec : s'.second = s.second)
    (hl : s'.loop ≠ .replaying ∧ ∀ ents, s'.loop ≠ .signalling ents) (hrep : s'.Replayed) :
    Joined s' :=
  ⟨fun hkvs => hsec ▸ h.assigned (hk ▸ hkvs), fun hl' => absurd hl' hl.1,
    fun ents hl' => absurd hl' (hl.2 ents), fun _ => hrep⟩

theorem advance (h : Joined s) (htr : Tracked log t s) (hstep : s.step C e = some s')
    (he : ∀ read, e ≠ .restart read) {x : Entry} {ents : List Entry}
    (hk : s'.kvs = s.kvs) (hsec : s'.second = s.second) (hrc : s'.rc = (s.advance x ents).rc)
    (hloop : s'.loop = (s.advance x ents).loop) (hback : s'.Ended → s.Ended) : Joined s' := by
  refine ⟨fun hkvs => hsec ▸ h.assigned (hk ▸ hkvs), fun hl => ?_, fun ents' hl => ?_, fun hend =>
    (h.replayed (hback hend)).step htr hstep he⟩
  · rw [hloop, System.advance] at hl
    split_ifs at hl
  · rw [hloop, System.advance] at hl
    rw [hrc]
    split_ifs at hl with hx
    exact hx

end Joined

theorem boot_joined {n : Option Snapshot} (hb : Booted n s) : Joined s := by
  refine ⟨fun hk => ?_, fun hl => ?_, fun ents hl => ?_, fun hend => ?_⟩
  · rw [hb.kvs] at hk
    cases hk
  · rcases hb.loop with ⟨-, h0⟩ | hl'
    · exact h0
    · rw [hl'] at hl
      cases hl
  · rcases hb.loop with ⟨hl', -⟩ | hl' <;> rw [hl'] at hl <;> cases hl
  · rw [Ended, hb.reader, hb.second] at hend
    simp at hend

theorem Joined.step (h : Joined s) (htr : Tracked log t s) (hup : UpToDate C log t s)
    (hstep : s.step C e = some s') : Joined s' := by
  cases step_moves hstep with
  | replay hl hr =>
    exact h.nil rfl rfl ⟨by simp, by simp⟩ (by simp [Replayed, h.replaying hl])
  | signal ents hl hr =>
    exact h.nil rfl rfl ⟨by simp, by simp⟩ (by simp [Replayed, h.signalling ents hl])
  | ready rd hl =>
    refine h.keep htr hstep (by simp) h.assigned (.inl ?_) (·.back rfl (.inl ⟨rfl, id⟩))
    simp only []
    split_ifs <;> simp
  | install rd =>
    exact h.keep htr hstep (by simp) h.assigned (.inl (by simp))
      (·.back rfl (.inl ⟨rfl, fun hn => by cases hn⟩))
  | publishSnapshot rd hl hlt hr =>
    refine h.keep htr hstep (by simp) h.assigned (.inl (by simp)) (·.back rfl (.inr ⟨by simp, ?_⟩))
    simp [hup.announced rd hl]
  | append | remove | skipSnapshot | stop | transportError =>
    exact h.keep htr hstep (by simp) h.assigned (.inl (by simp)) (·.back rfl (.inl ⟨rfl, id⟩))
  | apply x ents =>
    exact h.advance htr hstep (by simp) rfl rfl rfl rfl (·.back rfl (.inl ⟨rfl, id⟩))
  | send x ents =>
    exact h.advance htr hstep (by simp) rfl rfl rfl rfl (·.back rfl (.inr (by simp)))
  | snapshot =>
    exact h.keep htr hstep (by simp) h.assigned (.inl (by simp))
      (·.back rfl (.inl ⟨rfl, fun hn => by cases hn⟩))
  | compactFails =>
    exact h.keep htr hstep (by simp) h.assigned (.inr ⟨rfl, rfl⟩)
      (·.back rfl (.inl ⟨rfl, fun hn => by cases hn⟩))
  | closeStopc =>
    exact h.keep htr hstep (by simp) h.assigned (.inr ⟨rfl, rfl⟩) (·.back rfl (.inl ⟨rfl, id⟩))
  | store | load | recover =>
    exact h.keep htr hstep (by simp) h.assigned (.inr ⟨rfl, rfl⟩) (·.back rfl (.inr (by simp)))
  | loadNone hr hn =>
    exact h.keep htr hstep (by simp) h.assigned (.inr ⟨rfl, rfl⟩) fun _ => .inr (.inr ⟨hr, hn⟩)
  | drain hl =>
    refine ⟨h.assigned, h.replaying, h.signalling, fun _ => ?_⟩
    simp [Replayed, hl]
  | spawn hr =>
    exact h.keep htr hstep (by simp) (fun _ => rfl) (.inr ⟨rfl, rfl⟩) fun _ => .inr (.inl hr)
  | assign hs =>
    exact h.keep htr hstep (by simp) (fun _ => hs) (.inr ⟨rfl, rfl⟩) (·.back rfl (.inl ⟨rfl, id⟩))
  | restart read => exact boot_joined (boot_booted _ _ _ _)
  | fail e c he =>
    refine h.keep htr hstep (fun read heq => ?_) h.assigned (.inr ⟨rfl, rfl⟩)
      (·.back rfl (.inl ⟨rfl, id⟩))
    subst heq
    exact he

/-! ## A reader on the way to a snapshot -/

theorem pending_congr (hr : s'.reader = s.reader) (hk : s'.kvStore = s.kvStore)
    (hn : s'.newest = s.newest) : s'.pending C = s.pending C := by
  unfold pending
  rw [hr, hk, hn]

/-- The second reader will have the map at `appliedIndex`, unless the next snapshot from the leader
is already there. -/
def Recovering (C : Codec) (log : Committed) (s : System) : Prop :=
  s.second = true → ¬ s.reader.Plain → (∀ rd, s.loop ≠ .announcing rd) →
    s.pending C = log.mapAt C s.rc.appliedIndex

namespace Recovering

theorem of_plain (hp : s.reader.Plain) : Recovering C log s := fun _ hno => absurd hp hno

theorem keep (h : Recovering C log s) (hsec : s'.second = s.second)
    (hp : s'.pending C = s.pending C) (hr : ¬ s'.reader.Plain → ¬ s.reader.Plain)
    (hmap : log.mapAt C s'.rc.appliedIndex = log.mapAt C s.rc.appliedIndex)
    (hl : (∀ rd, s.loop ≠ .announcing rd) ∨ s'.loop = s.loop) : Recovering C log s' := by
  intro hs hno hann
  rw [hp, hmap]
  refine h (hsec ▸ hs) (hr hno) fun rd => ?_
  rcases hl with hl | hl
  · exact hl rd
  · exact hl ▸ hann rd

/-- A snapshot of the map is put on disk. -/
theorem saved (h : Recovering C log s) {snap : Snapshot} (hl : s.loop = .publishing [])
    (hdata : snap.data = C.marshal (log.mapAt C s.rc.appliedIndex)) (hsec : s'.second = s.second)
    (hr : s'.reader = s.reader) (hk : s'.kvStore = s.kvStore) (hn : s'.newest = some snap)
    (happ : s'.rc.appliedIndex = s.rc.appliedIndex) : Recovering C log s' := by
  intro hs hno hann
  have hold := h (hsec ▸ hs) (hr ▸ hno) (by simp [hl])
  rw [happ, ← hold]
  unfold pending at hold ⊢
  rw [hr, hk, hn]
  split
  · rfl
  · rename_i hload
    rw [hload] at hold
    simp only [] at hold ⊢
    rw [hold, hdata, C.recoverFromSnapshot_marshal]
    rfl
  · rfl
  · rfl

end Recovering

theorem stoppable_ne_announcing (h : s.loop.stoppable = true) (rd : Ready) :
    s.loop ≠ .announcing rd := by
  intro hl
  rw [hl] at h
  cases h

/-- The snapshot that is saved is the map at its index. -/
def SavesMap (C : Codec) (log : Committed) (s : System) : Prop :=
  ∀ snap rc, s.saving C = .ok (snap, rc) →
    snap.index = s.rc.appliedIndex ∧ snap.data = C.marshal (log.mapAt C s.rc.appliedIndex)

theorem Recovering.step (h : Recovering C log s) (htr : Tracked log t s) (hup : UpToDate C log t s)
    (hj : Joined s) (hcar : ∀ rd, .ready rd ∈ t → rd.Carries C log)
    (hsave : e = .snapshot → s.SavesMap C log) (hstep : s.step C e = some s') :
    Recovering C log s' := by
  cases step_moves hstep with
  | replay hl hr | signal ents hl hr =>
    intro hsec
    have := hj.replayed (.inl hsec)
    rw [Replayed, hl] at this
    exact this.elim
  | ready rd hl => exact h.keep rfl (pending_congr rfl rfl rfl) id rfl (.inl (by simp [hl]))
  | install rd => exact fun _ _ hann => absurd rfl (hann rd)
  | publishSnapshot rd hl hlt hr =>
    intro _ _ _
    have hdata := hcar rd (htr.ready rd (by rw [hl]; rfl)) (by omega)
    simp only [pending, hup.announced rd hl, hdata, C.recoverFromSnapshot_marshal]
    rfl
  | append rd storage ents hl =>
    exact h.keep rfl (pending_congr rfl rfl rfl) id rfl (.inl (by simp [hl]))
  | apply x ents hl hd =>
    obtain rfl := htr.head hl
    refine h.keep rfl (pending_congr rfl rfl rfl) id ?_ (.inl (by simp [hl]))
    rw [System.advance, log.index_entry, log.mapAt_succ, Codec.applyEntry, if_pos hd]
  | send | store | loadNone | drain | spawn => exact of_plain trivial
  | remove x ents hl | skipSnapshot hl | transportError hl =>
    exact h.keep rfl (pending_congr rfl rfl rfl) id rfl (.inl (by simp [hl]))
  | stop hl =>
    exact h.keep rfl (pending_congr rfl rfl rfl) id rfl (.inl (stoppable_ne_announcing hl))
  | snapshot snap rc rc' hl hd hs hc =>
    have hdata := (hsave rfl snap rc hs).2
    obtain ⟨storage, rfl⟩ := snapshot_rc hs hc
    exact h.saved hl hdata rfl rfl rfl rfl rfl
  | compactFails snap rc c hl hd hs =>
    exact h.saved hl (hsave rfl snap rc hs).2 rfl rfl rfl rfl rfl
  | load snap hr hn =>
    refine h.keep rfl ?_ (fun _ => by rw [hr]; exact id) rfl (.inr rfl)
    simp only [pending, hr, hn]
  | recover snap store hr hs =>
    refine h.keep rfl ?_ (fun _ => by rw [hr]; exact id) rfl (.inr rfl)
    simp [pending, hr, hs, Except.toOption]
  | closeStopc | assign | fail =>
    exact h.keep rfl (pending_congr rfl rfl rfl) id rfl (.inr rfl)
  | restart read =>
    refine of_plain ?_
    rw [(boot_booted _ _ _ _).reader]
    trivial

theorem runs_joined (h : runs (step C) (start id) t = some s)
    (hdel : ∀ rd, .ready rd ∈ t → rd.From log) : Joined s := by
  refine runs_induction (P := fun t s => (∀ rd, .ready rd ∈ t → rd.From log) → Joined s)
    (fun _ => boot_joined (boot_booted _ _ _ _)) (fun t s₁ e s₂ hrun hP hstep hdel => ?_) h hdel
  have hdel' : ∀ rd, .ready rd ∈ t → rd.From log := fun rd hrd =>
    hdel rd (List.mem_append_left _ hrd)
  exact (hP hdel').step (runs_tracked hrun hdel') (runs_upToDate hrun hdel') hstep

/-- All snapshots so far were right. -/
theorem runs_recovering (h : runs (step C) (start id) t = some s)
    (hdel : ∀ rd, .ready rd ∈ t → rd.From log ∧ rd.Carries C log)
    (hsave : AtEach (step C) (start id) (fun _ s e => e = .snapshot → s.SavesMap C log) t) :
    Recovering C log s := by
  refine runs_induction (P := fun t s =>
    (∀ rd, .ready rd ∈ t → rd.From log ∧ rd.Carries C log) →
      AtEach (step C) (start id) (fun _ s e => e = .snapshot → s.SavesMap C log) t →
        Recovering C log s)
    (fun _ _ => .of_plain (s := start id) trivial)
    (fun t s₁ e s₂ hrun hP hstep hdel hsave => ?_) h hdel hsave
  rw [atEach_concat hrun] at hsave
  have hdel' : ∀ rd, .ready rd ∈ t → rd.From log ∧ rd.Carries C log := fun rd hrd =>
    hdel rd (List.mem_append_left _ hrd)
  have hfrom : ∀ rd, .ready rd ∈ t → rd.From log := fun rd hrd => (hdel' rd hrd).1
  exact (hP hdel' hsave.1).step (runs_tracked hrun hfrom) (runs_upToDate hrun hfrom)
    (runs_joined hrun hfrom) (fun rd hrd => (hdel' rd hrd).2) hsave.2 hstep

theorem pending_of_saves (h : runs (step C) (start id) t = some s)
    (hdel : ∀ rd, .ready rd ∈ t → rd.From log ∧ rd.Carries C log)
    (hsave : AtEach (step C) (start id) (fun _ s e => e = .snapshot → s.SavesMap C log) t)
    (hk : s.kvs = true) (hl : ∀ rd, s.loop ≠ .announcing rd) :
    s.pending C = log.mapAt C s.rc.appliedIndex := by
  have hfrom : ∀ rd, .ready rd ∈ t → rd.From log := fun rd hrd => (hdel rd hrd).1
  by_cases hp : s.reader.Plain
  · exact (runs_upToDate h hfrom).plain hp
  · exact runs_recovering h hdel hsave ((runs_joined h hfrom).assigned hk) hp hl

theorem loop_of_snapshot (h : s.step C .snapshot = some s') : s.loop = .publishing [] := by
  rcases hc : s.crash with _ | c
  · simp only [step, hc, next, Option.ite_none_right_eq_some] at h
    exact h.1.1
  · simp [step, hc] at h

/-- The snapshots of a run are the maps at their indices exactly if, whenever one is taken, the
reader holds nothing that changes the map. -/
theorem snapshots_consistent_iff (C : Codec) (id : ℕ) (log : Committed) {t : List Event}
    {s' : System} (h : runs (step C) (start id) t = some s')
    (hdel : ∀ rd, .ready rd ∈ t → rd.From log ∧ rd.Carries C log) :
    AtEach (step C) (start id) (fun _ s e => e = .snapshot → s.SavesMap C log) t ↔
      AtEach (step C) (start id) (fun _ s e => e = .snapshot →
        ∀ snap rc, s.saving C = .ok (snap, rc) → s.pending C = s.kvStore) t := by
  refine atEach_iff h fun t₁ e t₂ s s₂ ht hrun hstep hsave => forall_congr' fun he => ?_
  subst he
  refine forall_congr' fun snap => forall_congr' fun rc => forall_congr' fun hs => ?_
  obtain ⟨hk, hc⟩ := saving_ok hs
  obtain ⟨hidx, -, hdata, -⟩ := RaftNode.createSnapshot_ok hc
  rw [pending_of_saves hrun (fun rd hrd => hdel rd (ht ▸ List.mem_append_left _ hrd)) hsave hk
    (by simp [loop_of_snapshot hstep]), hdata, C.marshal_injective.eq_iff]
  exact ⟨fun hmap => hmap.2.symm, fun hmap => ⟨hidx, hmap.symm⟩⟩

end System

/-! ## A late reader -/

theorem changing_lookup {i : ℕ} (hi : 1 < i) :
    (changing.mapAt plain i).lookup (ascii "k") =
      some (ascii (if i = 10001 then "b" else "a")) := by
  have hdata : (changing.entry i).data =
      gob (ascii "k") (ascii (if i = 10001 then "b" else "a")) := by
    rw [Entry.data, changing_payload hi]
  obtain ⟨i, rfl⟩ := Nat.exists_eq_succ_of_ne_zero (Nat.ne_zero_of_lt hi)
  by_cases hlast : i + 1 = 10001
  · rw [if_pos hlast] at hdata ⊢
    rw [Committed.mapAt_succ, Codec.applyEntry, hdata, if_neg (by decide)]
    exact Finmap.lookup_insert _
  · rw [if_neg hlast] at hdata ⊢
    rw [Committed.mapAt_succ, Codec.applyEntry, hdata, if_neg (by decide)]
    exact Finmap.lookup_insert _

/-- The reader has received the last entry, and not stored it, when the snapshot is taken. -/
def early : List Event :=
  opening changing 10001 ++ (changing.slice 0 10000).flatMap follow ++
    [.send (changing.entry 10001), .snapshot]

namespace System

/-- The reader has stored all entries when the snapshot is taken. -/
theorem settled_consistent :
    (runs (step plain) (start 1) (untilSnapshot changing ++ [.snapshot])).isSome = true ∧
      AtEach (step plain) (start 1) (fun _ s e => e = .snapshot → s.SavesMap plain changing)
        (untilSnapshot changing ++ [.snapshot]) := by
  obtain ⟨s, hrun, -⟩ := runs_snapshot changing_sound
  refine ⟨by rw [hrun]; rfl, (snapshots_consistent_iff plain 1 changing hrun fun rd hrd => ?_).2
    (atEach_snapshot changing_sound fun _ _ _ => rfl)⟩
  obtain ⟨hfrom, hsnap⟩ := untilSnapshot_from hrd
  exact ⟨hfrom, fun h0 => absurd (congrArg Snapshot.index hsnap) h0⟩

/-- The snapshot at the index of the last entry does not have it. -/
theorem early_stale :
    (∀ rd, .ready rd ∈ early → rd.From changing ∧ rd.Carries plain changing) ∧
      ∃ s snap, runs (step plain) (start 1) early = some s ∧ s.newest = some snap ∧
        snap.index = 10001 ∧ snap.data = plain.marshal (changing.mapAt plain 10000) ∧
        snap.data ≠ plain.marshal (changing.mapAt plain 10001) := by
  have hfirst : runs (step plain) (start 1)
      (opening changing 10001 ++ (changing.slice 0 10000).flatMap follow) =
        some (running 1 changing 10001 10000 [changing.entry 10001]
          (changing.mapAt plain 10000)) :=
    runs_first (j := 1) fun i _ _ => changing_sound i
  have hsend : step plain (.send (changing.entry 10001)) (running 1 changing 10001 10000
      [changing.entry 10001] (changing.mapAt plain 10000)) = _ := step_send (by decide)
  have hthr : Through changing 10001 { running 1 changing 10001 10001 []
      (changing.mapAt plain 10000) with reader := .decoding (changing.entry 10001).data } :=
    ⟨rfl, rfl, rfl, 1, rfl⟩
  obtain ⟨s, hs, hnew⟩ := hthr.step (C := plain) (by decide) (by decide)
  simp only [running_kvStore] at hnew
  refine ⟨fun rd hrd => ?_, s, _, runs_trans hfirst (runs_cons hsend (runs_cons hs rfl)), hnew, rfl,
    rfl, fun heq => ?_⟩
  · rw [early, List.append_assoc] at hrd
    obtain ⟨hfrom, hsnap⟩ := opening_from (by decide) (by simp) hrd
    exact ⟨hfrom, fun h0 => absurd (congrArg Snapshot.index hsnap) h0⟩
  · have ha := changing_lookup (i := 10000) (by decide)
    rw [plain.marshal_injective heq, changing_lookup (by decide)] at ha
    exact absurd (Option.some.inj ha) (by decide)

end System

end DistSystem.Etcd
