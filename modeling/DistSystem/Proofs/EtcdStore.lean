import DistSystem.Proofs.EtcdStep

/-!
# What the reader has

The store of a node follows the entries that were sent to it (`UpToDate`): it is the map at
`appliedIndex`, up to the one entry that the reader may still hold. A nil is good only for a reader
that finds no snapshot on disk, and a snapshot taken while the reader holds something is too old.
-/

namespace DistSystem.Etcd

open Interleaving
open MapReduce (ascii)

/-! ## The map at an index -/

/-- The effect of an entry on the map. -/
def Codec.applyEntry (C : Codec) (m : Store) (e : Entry) : Store :=
  if e.data = [] then m else (C.storeCommit m e.data).toOption.getD m

/-- The map after all entries up to an index. -/
def Committed.mapAt (log : Committed) (C : Codec) (i : ℕ) : Store :=
  (log.slice 0 i).foldl C.applyEntry ∅

theorem Committed.mapAt_succ (log : Committed) (C : Codec) (i : ℕ) :
    log.mapAt C (i + 1) = C.applyEntry (log.mapAt C i) (log.entry (i + 1)) := by
  simp [mapAt, slice_concat]

/-- The reader is not on the way to a snapshot. -/
def Reader.Plain : Reader → Prop
  | .loading => False
  | .loaded _ => False
  | .recovered => False
  | _ => True

namespace System

/-- The store once the reader is through with what it has received. -/
def pending (C : Codec) (s : System) : Store :=
  match s.reader with
  | .decoding data => (C.storeCommit s.kvStore data).toOption.getD s.kvStore
  | .loading =>
    match s.newest with
    | none => s.kvStore
    | some snap => (C.recoverFromSnapshot snap.data).toOption.getD s.kvStore
  | .loaded snap => (C.recoverFromSnapshot snap.data).toOption.getD s.kvStore
  | _ => s.kvStore

variable {C : Codec} {s s' : System} {e : Event} {t : List Event} {id : ℕ} {log : Committed}

theorem pending_of_plain (h : s.reader.Plain) (hr : s'.reader = s.reader)
    (hk : s'.kvStore = s.kvStore) : s'.pending C = s.pending C := by
  unfold pending
  rw [hr, hk]
  split <;> simp_all [Reader.Plain]

/-! ## Between the sends and the store -/

/-- The reader has been sent all entries up to `appliedIndex`. -/
structure UpToDate (C : Codec) (log : Committed) (t : List Event) (s : System) : Prop where
  plain : s.reader.Plain → s.pending C = log.mapAt C s.rc.appliedIndex
  signalled : s.reader = .loading → s.newest = none →
    s.kvStore = log.mapAt C (Account.of t).signalled ∧ s.kvStore = log.mapAt C s.rc.appliedIndex
  announced : ∀ rd, s.loop = .announcing rd → s.newest = some rd.snapshot

namespace UpToDate

theorem of_receiving (h : UpToDate C log t s) (hr : s.reader = .receiving) :
    s.kvStore = log.mapAt C s.rc.appliedIndex := by
  have := h.plain (by rw [hr]; trivial)
  rwa [pending, hr] at this

/-- The reader and what it reads stay as they are. -/
theorem keep (h : UpToDate C log t s) (hacc : ∀ a : Account, a.note e = a)
    (hr : s'.reader = s.reader) (hk : s'.kvStore = s.kvStore)
    (happ : s'.rc.appliedIndex = s.rc.appliedIndex)
    (hn : s'.newest = none → s.newest = none)
    (hann : ∀ rd, s'.loop = .announcing rd → s'.newest = some rd.snapshot) :
    UpToDate C log (t ++ [e]) s' := by
  refine ⟨fun hp => ?_, fun hl hnone => ?_, hann⟩
  · rw [hr] at hp
    rw [pending_of_plain hp hr hk, happ]
    exact h.plain hp
  · rw [Account.of_concat, hacc, hk, happ]
    exact h.signalled (hr ▸ hl) (hn hnone)

/-- The reader is sent a nil. -/
theorem nil (h : UpToDate C log t s) (htr : Tracked log t s) (hr : s.reader = .receiving)
    (hacc : ((Account.of t).note e).signalled = (Account.of t).applied)
    (hr' : s'.reader = .loading) (hk : s'.kvStore = s.kvStore)
    (happ : s'.rc.appliedIndex = s.rc.appliedIndex)
    (hann : ∀ rd, s'.loop = .announcing rd → s'.newest = some rd.snapshot) :
    UpToDate C log (t ++ [e]) s' := by
  have hstore := h.of_receiving hr
  refine ⟨fun hp => ?_, fun _ _ => ?_, hann⟩
  · rw [hr'] at hp
    exact hp.elim
  · rw [Account.of_concat, hacc, ← htr.applied, hk, happ]
    exact ⟨hstore, hstore⟩

/-- The reader gets to a place where it holds nothing. -/
theorem stored (h : UpToDate C log t s)
    (hr : s'.reader = .receiving ∨ s'.reader = .returned)
    (hk : s'.kvStore = log.mapAt C s.rc.appliedIndex)
    (hrc : s'.rc = s.rc) (hl : s'.loop = s.loop) (hn : s'.newest = s.newest) :
    UpToDate C log (t ++ [e]) s' := by
  refine ⟨fun _ => ?_, fun hload => ?_, fun rd hrd => ?_⟩
  · rw [hrc, ← hk]
    rcases hr with hr | hr <;> rw [pending, hr]
  · rcases hr with hr | hr <;> rw [hr] at hload <;> cases hload
  · rw [hn]
    exact h.announced rd (hl ▸ hrd)

/-- The reader is on the way to a snapshot. -/
theorem recovering (h : UpToDate C log t s) (hp : ¬ s'.reader.Plain) (hr : s'.reader ≠ .loading)
    (hl : s'.loop = s.loop) (hn : s'.newest = s.newest) : UpToDate C log (t ++ [e]) s' :=
  ⟨fun hp' => absurd hp' hp, fun hload => absurd hload hr, fun rd hrd => by
    rw [hn]
    exact h.announced rd (hl ▸ hrd)⟩

end UpToDate

theorem boot_upToDate {n : Option Snapshot} (hb : Booted n s) : UpToDate C log t s := by
  refine ⟨fun _ => ?_, fun hl => ?_, fun rd hrd => ?_⟩
  · rw [pending, hb.reader, hb.kvStore, hb.applied]
    rfl
  · rw [hb.reader] at hl
    cases hl
  · rcases hb.loop with ⟨hl, -⟩ | hl <;> rw [hl] at hrd <;> cases hrd

/-- The entry that comes next. -/
theorem Tracked.head (h : Tracked log t s) {x : Entry} {ents : List Entry}
    (hl : s.loop = .publishing (x :: ents)) : x = log.entry (s.rc.appliedIndex + 1) := by
  obtain ⟨k, hk, -⟩ := h.rest (x :: ents) (by rw [hl]; rfl)
  rcases k with _ | k
  · cases hk
  · exact (List.cons.inj hk).1

theorem advance_ne_announcing {x : Entry} {ents : List Entry} {rd : Ready} :
    (s.advance x ents).loop ≠ .announcing rd := by
  unfold advance
  split_ifs <;> simp

theorem UpToDate.step (h : UpToDate C log t s) (htr : Tracked log t s)
    (hstep : s.step C e = some s') : UpToDate C log (t ++ [e]) s' := by
  cases step_moves hstep with
  | replay hl hr | signal ents hl hr =>
    exact h.nil htr hr rfl rfl rfl rfl (fun _ hrd => by cases hrd)
  | ready rd hl =>
    refine h.keep (fun _ => rfl) rfl rfl rfl id fun rd' hrd => ?_
    simp only [] at hrd
    split_ifs at hrd
  | install rd hl =>
    refine h.keep (fun _ => rfl) rfl rfl rfl (fun hn => by cases hn) fun rd' hrd => ?_
    cases hrd
    rfl
  | publishSnapshot rd hl hlt hr =>
    refine ⟨fun hp => hp.elim, fun _ hn => ?_, fun _ hrd => by cases hrd⟩
    have hsome := h.announced rd hl
    rw [show s.newest = none from hn] at hsome
    cases hsome
  | append rd storage ents =>
    exact h.keep (fun _ => rfl) rfl rfl rfl id (fun _ hrd => by cases hrd)
  | apply x ents hl hd =>
    obtain rfl := htr.head hl
    have hmap : log.mapAt C (s.advance (log.entry (s.rc.appliedIndex + 1)) ents).rc.appliedIndex =
        log.mapAt C s.rc.appliedIndex := by
      rw [System.advance, log.index_entry, log.mapAt_succ, Codec.applyEntry, if_pos hd]
    refine ⟨fun hp => ?_, fun hload hn => ?_, fun _ hrd => absurd hrd advance_ne_announcing⟩
    · have hp' : s.reader.Plain := hp
      rw [hmap]
      exact (pending_of_plain hp' rfl rfl).trans (h.plain hp')
    · rw [hmap, Account.of_concat]
      exact h.signalled hload hn
  | send x ents hl hd hr =>
    obtain rfl := htr.head hl
    refine ⟨fun _ => ?_, (fun hload => by cases hload),
      fun _ hrd => absurd hrd advance_ne_announcing⟩
    simp only [pending, System.advance, log.index_entry, log.mapAt_succ, Codec.applyEntry,
      if_neg hd, h.of_receiving hr]
  | remove | skipSnapshot | stop | transportError =>
    exact h.keep (fun _ => rfl) rfl rfl rfl id (fun _ hrd => by cases hrd)
  | snapshot snap rc rc' hl hd hs hc =>
    obtain ⟨storage, rfl⟩ := snapshot_rc hs hc
    exact h.keep (fun _ => rfl) rfl rfl rfl (fun hn => by cases hn) (fun _ hrd => by cases hrd)
  | compactFails snap rc c hl =>
    refine h.keep (fun _ => rfl) rfl rfl rfl (fun hn => by cases hn) fun _ hrd => ?_
    rw [show s.loop = _ from hrd] at hl
    cases hl
  | closeStopc | assign => exact h.keep (fun _ => rfl) rfl rfl rfl id h.announced
  | store data store hr hs =>
    refine h.stored (.inl rfl) ?_ rfl rfl rfl
    rw [← h.plain (by rw [hr]; trivial), pending, hr]
    simp [hs, Except.toOption]
  | loadNone hr hn => exact h.stored (.inr rfl) (h.signalled hr hn).2 rfl rfl rfl
  | load | recover => exact h.recovering id (fun hr => by cases hr) rfl rfl
  | drain hl hr => exact h.stored (.inr rfl) (h.of_receiving hr) rfl rfl rfl
  | spawn hr =>
    refine h.stored (.inl rfl) ?_ rfl rfl rfl
    have := h.plain (by rw [hr]; trivial)
    rwa [pending, hr] at this
  | restart read => exact boot_upToDate (boot_booted _ _ _ _)
  | fail e c he => exact h.keep he.note rfl rfl rfl id h.announced

theorem runs_upToDate (h : runs (step C) (start id) t = some s)
    (hdel : ∀ rd, .ready rd ∈ t → rd.From log) : UpToDate C log t s := by
  refine runs_induction (P := fun t s => (∀ rd, .ready rd ∈ t → rd.From log) → UpToDate C log t s)
    (fun _ => boot_upToDate (boot_booted _ _ _ _)) (fun t s₁ e s₂ hrun hP hstep hdel => ?_) h hdel
  have hdel' : ∀ rd, .ready rd ∈ t → rd.From log := fun rd hrd =>
    hdel rd (List.mem_append_left _ hrd)
  exact (hP hdel').step (runs_tracked hrun hdel') hstep

/-! ## A nil -/

theorem handleNil_eq_ok {n : Option Snapshot} {store store' : Store}
    (h : C.handleNil n store = .ok store') : n = none ∧ store = store' := by
  rcases n with _ | snap
  · exact ⟨rfl, Except.ok.inj h⟩
  · unfold Codec.handleNil at h
    cases hs : C.recoverFromSnapshot snap.data <;> simp [hs, bind, Except.bind] at h

/-- The steps of the reader do what `handleNil` says. -/
theorem handleNil_runs (hcr : s.crash = none) (hr : s.reader = .loading) :
    (∀ store, C.handleNil s.newest s.kvStore = .ok store →
      s.step C .load = some { s with reader := .returned, kvStore := store }) ∧
    ∀ c, C.handleNil s.newest s.kvStore = .error c →
      ∃ u s', runs (step C) s u = some s' ∧ s'.crash = some c := by
  constructor
  · intro store hok
    obtain ⟨hn, rfl⟩ := handleNil_eq_ok hok
    simp [step, next, hcr, hr, hn]
  · intro c herr
    rcases hn : s.newest with _ | snap
    · rw [hn] at herr
      cases herr
    have hload : s.step C .load = some { s with reader := .loaded snap } := by
      simp [step, next, hcr, hr, hn]
    rw [hn, Codec.handleNil] at herr
    rcases hs : C.recoverFromSnapshot snap.data with c' | store
    · simp only [hs, bind, Except.bind, Except.error.injEq] at herr
      have hrec : step C .recover { s with reader := .loaded snap } =
          some (fail { s with reader := .loaded snap } c') := by
        simp [step, next, hcr, hs]
      exact ⟨[.load, .recover], _, runs_cons hload (runs_cons hrec rfl), congrArg some herr⟩
    · simp only [hs, bind, Except.bind, Except.error.injEq] at herr
      have hrec : step C .recover { s with reader := .loaded snap } =
          some { s with kvStore := store, reader := .recovered } := by
        simp [step, next, hcr, hs]
      have hderef : step C .dereference { s with kvStore := store, reader := .recovered } =
          some (fail { s with kvStore := store, reader := .recovered } nilDereference) := by
        simp [step, next, hcr]
      exact ⟨[.load, .recover, .dereference], _,
        runs_cons hload (runs_cons hrec (runs_cons hderef rfl)), congrArg some herr⟩

theorem reader_of_load (h : s.step C .load = some s') : s.reader = .loading := by
  cases step_moves h with
  | loadNone hr | load _ hr => exact hr
  | fail _ _ he => exact he.elim

/-- A run handles each nil, with the map at that point in the store afterwards, exactly if it finds
no snapshot on disk. -/
theorem nil_handled_iff (C : Codec) (id : ℕ) (log : Committed) {t : List Event} {s' : System}
    (h : runs (step C) (start id) t = some s') (hdel : ∀ rd, .ready rd ∈ t → rd.From log) :
    AtEach (step C) (start id) (fun t₁ s e => e = .load →
        C.handleNil s.newest s.kvStore = .ok (log.mapAt C (Account.of t₁).signalled)) t ↔
      AtEach (step C) (start id) (fun _ s e => e = .load → s.newest = none) t := by
  refine atEach_iff h fun t₁ e t₂ s s₂ ht hrun hstep _ => forall_congr' fun he => ?_
  subst he
  have hup := runs_upToDate hrun fun rd hrd => hdel rd (ht ▸ List.mem_append_left _ hrd)
  constructor
  · exact fun hok => (handleNil_eq_ok hok).1
  · intro hn
    have hr : s.reader = .loading := reader_of_load hstep
    rw [hn, ← (hup.signalled hr hn).1]
    rfl

theorem newest_eq_none (h : runs (step C) (start id) t = some s)
    (hno : ∀ e ∈ t, e ≠ .install ∧ e ≠ .snapshot) : s.newest = none := by
  refine runs_induction (P := fun t s => (∀ e ∈ t, e ≠ .install ∧ e ≠ .snapshot) →
    s.newest = none) (fun _ => rfl) (fun t s₁ e s₂ _ hP hstep hno => ?_) h hno
  have hn := hP fun e he => hno e (List.mem_append_left _ he)
  have hne := hno e (by simp)
  cases step_moves hstep with
  | install => exact absurd rfl hne.1
  | snapshot | compactFails => exact absurd rfl hne.2
  | restart read => exact (boot_booted _ _ _ _).newest.trans hn
  | _ => exact hn

end System

/-- A log of payloads, all of one term. -/
def logOf (p : ℕ → Payload) : Committed := ⟨fun i => ⟨1, i, p i⟩, fun _ => rfl⟩

/-- Every entry stores one pair. -/
def steady : Committed := logOf fun _ => .normal (gob (ascii "k") (ascii "v"))

/-- A node stores one entry, and is started again. -/
def reopened : List Event :=
  [.replay, .load, .spawn, .assign,
    .ready ⟨steady.slice 0 1, emptySnapshot, steady.slice 0 1⟩, .append, .send (steady.entry 1),
    .store, .skipSnapshot, .restart (.ok (steady.slice 0 1)),
    .ready ⟨[], emptySnapshot, steady.slice 0 1⟩, .append, .send (steady.entry 1), .store, .signal,
    .load]

namespace System

theorem reopened_nil :
    (runs (step plain) (start 1) reopened).isSome = true ∧
      AtEach (step plain) (start 1) (fun t₁ s e => e = .load → plain.handleNil s.newest s.kvStore =
        .ok (steady.mapAt plain (Account.of t₁).signalled)) reopened := by
  have hrun : (runs (step plain) (start 1) reopened).isSome = true := by decide +kernel
  obtain ⟨s', hs'⟩ := Option.isSome_iff_exists.mp hrun
  have hno : ∀ e ∈ reopened, e ≠ .install ∧ e ≠ .snapshot := by simp [reopened]
  refine ⟨hrun, (nil_handled_iff plain 1 steady hs' fun rd hrd => ?_).2 ?_⟩
  · simp only [reopened, List.mem_cons, reduceCtorEq, Event.ready.injEq, false_or, or_false,
      List.not_mem_nil] at hrd
    rcases hrd with rfl | rfl <;> exact ⟨⟨0, 1, rfl, by decide⟩, by decide⟩
  · intro t₁ e t₂ s ht hs he
    exact newest_eq_none hs fun e he => hno e (ht ▸ List.mem_append_left _ he)

end System

/-- What a new member gets. -/
def handedOver : Snapshot := ⟨5, 1, [1, 2], ascii "\x7b\"k\":\"v\"\x7d"⟩

/-- A new member gets its first snapshot. -/
def joining : List Event :=
  [.replay, .load, .spawn, .assign, .ready ⟨[], handedOver, []⟩, .install,
    .publishSnapshot handedOver, .load, .recover, .dereference]

/-- The member is gone once it has recovered, and again whenever it is started. -/
theorem joining_crash :
    (runs (System.step plain) (System.start 2) joining).map System.crash =
        some (some nilDereference) ∧
      (runs (System.step plain) (System.start 2)
          (joining ++ [.restart (.ok []), .replay, .load, .recover, .dereference])).map
        System.crash = some (some nilDereference) := by
  decide +kernel

end DistSystem.Etcd
