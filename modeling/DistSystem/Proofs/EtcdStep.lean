import DistSystem.Etcd.Node

/-!
# Steps of a node

What a step can do (`System.Moves`), and what the labels of a run say about the fields of `raftNode`
(`Account`). If the raft library hands out pieces of one log, `publishEntries` goes through that log
entry after entry from the last snapshot on, whatever the pieces are (`System.runs_tracked`).
-/

namespace DistSystem.Etcd

open Interleaving

/-! ## The committed log -/

/-- The log that the cluster agrees on. -/
structure Committed where
  entry : ℕ → Entry
  index_entry : ∀ i, (entry i).index = i

namespace Committed

variable (log : Committed)

/-- The `k` entries after index `a`. -/
def slice (a k : ℕ) : List Entry := (List.range' (a + 1) k).map log.entry

@[simp] theorem length_slice (a k : ℕ) : (log.slice a k).length = k := by simp [slice]

@[simp] theorem slice_zero (a : ℕ) : log.slice a 0 = [] := rfl

theorem slice_succ (a k : ℕ) : log.slice a (k + 1) = log.entry (a + 1) :: log.slice (a + 1) k := rfl

theorem slice_add (a k j : ℕ) : log.slice a (k + j) = log.slice a k ++ log.slice (a + k) j := by
  rw [slice, ← List.range'_append_1, List.map_append, Nat.add_right_comm]
  rfl

theorem slice_concat (a k : ℕ) :
    log.slice a (k + 1) = log.slice a k ++ [log.entry (a + k + 1)] := log.slice_add a k 1

theorem drop_slice (a k j : ℕ) : (log.slice a k).drop j = log.slice (a + j) (k - j) := by
  rw [slice, ← List.map_drop, List.drop_range', slice]
  congr 2
  omega

end Committed

/-- A `Ready` with a piece of the log to apply, wherever it is. -/
structure Ready.From (log : Committed) (rd : Ready) : Prop where
  committed : ∃ a k, rd.committedEntries = log.slice a k ∧ a + k < uint64Size
  snapshot : rd.snapshot.index < uint64Size

/-! ## What is to be applied -/

/-- The difference wraps when the piece starts right after what has been applied. -/
theorem add64_sub64 {A a : ℕ} (h : a ≤ A) (hA : A + 1 < uint64Size) :
    add64 (sub64 A (a + 1)) 1 = A - a := by
  unfold add64 sub64 uint64Size at *
  omega

namespace RaftNode

variable {rc : RaftNode} {log : Committed}

theorem entriesToApply_slice {a k : ℕ} (hk : a + k < uint64Size)
    (hA : rc.appliedIndex < uint64Size) {ents : List Entry}
    (h : rc.entriesToApply (log.slice a k) = .ok ents) :
    ∃ j, ents = log.slice rc.appliedIndex j ∧ rc.appliedIndex + j < uint64Size := by
  rcases k with _ | k
  · simp only [Committed.slice_zero, entriesToApply, Except.ok.injEq] at h
    exact ⟨0, h.symm, hA⟩
  · rw [Committed.slice_succ] at h
    simp only [entriesToApply, log.index_entry] at h
    rw [← Committed.slice_succ, Committed.length_slice] at h
    split_ifs at h with hfatal hoff
    · have hle : a ≤ rc.appliedIndex ∧ rc.appliedIndex + 1 < uint64Size := by
        unfold add64 uint64Size at *
        omega
      rw [add64_sub64 hle.1 hle.2] at h hoff
      simp only [Except.ok.injEq, Committed.drop_slice] at h
      refine ⟨k + 1 - (rc.appliedIndex - a), ?_, by omega⟩
      rw [← h]
      congr 1
      omega
    · simp only [Except.ok.injEq] at h
      exact ⟨0, h.symm, hA⟩

theorem createSnapshot_ok {data : MapReduce.Str} {snap : Snapshot} {rc' : RaftNode}
    (h : rc.createSnapshot data = .ok (snap, rc')) :
    snap.index = rc.appliedIndex ∧ snap.confState = rc.confState ∧ snap.data = data ∧
      ∃ storage, rc' = { rc with raftStorage := storage } := by
  unfold createSnapshot MemoryStorage.createSnapshot at h
  split at h
  · cases h
  · rename_i snap' storage hs
    split_ifs at hs
    split at hs
    · cases hs
    · simp only [Except.ok.injEq, Prod.mk.injEq] at hs h
      obtain ⟨rfl, -⟩ := hs
      obtain ⟨rfl, rfl⟩ := h
      exact ⟨rfl, rfl, rfl, storage, rfl⟩

theorem compact_ok {rc' : RaftNode} (h : rc.compact = .ok rc') :
    ∃ storage, rc' = { rc with raftStorage := storage, snapshotIndex := rc.appliedIndex } := by
  unfold compact at h
  split at h
  · cases h
  · exact ⟨_, (Except.ok.inj h).symm⟩

end RaftNode

theorem MemoryStorage.append_snapshot {ms ms' : MemoryStorage} {ents : List Entry}
    (h : ms.append ents = .ok ms') : ms'.snapshot = ms.snapshot := by
  have hsplice : ∀ ents, ms.splice ents = .ok ms' → ms'.snapshot = ms.snapshot := by
    intro ents h
    unfold splice at h
    split at h
    · cases h
    · split_ifs at h
      split at h <;> exact Except.ok.inj h ▸ rfl
  unfold append at h
  split at h
  · exact Except.ok.inj h ▸ rfl
  · split_ifs at h
    · exact Except.ok.inj h ▸ rfl
    · exact hsplice _ h
    · exact hsplice _ h

/-! ## Where the loop is -/

namespace Loop

/-- The `Ready` that is being handled. -/
def ready : Loop → Option Ready
  | installing rd => some rd
  | announcing rd => some rd
  | appending rd => some rd
  | _ => none

/-- What `publishEntries` has still to do. -/
def rest : Loop → Option (List Entry)
  | publishing ents => some ents
  | signalling ents => some ents
  | _ => none

end Loop

/-! ## What the labels say -/

/-- What can be seen of a run by its labels. -/
structure Account where
  applied : ℕ := 0
  /-- `appliedIndex` at the last nil. -/
  signalled : ℕ := 0
  /-- The last snapshot that was published. -/
  installed : Snapshot := emptySnapshot
  /-- What `publishEntries` has been through since. -/
  handled : List Entry := []

namespace Account

def note (a : Account) : Event → Account
  | .apply e => { a with applied := e.index, handled := a.handled ++ [e] }
  | .send e => { a with applied := e.index, handled := a.handled ++ [e] }
  | .publishSnapshot snap => ⟨snap.index, snap.index, snap, []⟩
  | .replay => { a with signalled := a.applied }
  | .signal => { a with signalled := a.applied }
  | .restart _ => {}
  | _ => a

def of (t : List Event) : Account := t.foldl note {}

theorem of_concat (t : List Event) (e : Event) : of (t ++ [e]) = (of t).note e := by
  simp [of]

end Account

/-- The process may end in such a step. -/
def Event.Fallible : Event → Prop
  | .refuseSnapshot => True
  | .append => True
  | .snapshot => True
  | .store => True
  | .recover => True
  | .dereference => True
  | .drain => True
  | _ => False

theorem Event.Fallible.note {e : Event} (h : e.Fallible) (a : Account) : a.note e = a := by
  cases e <;> first | rfl | exact h.elim

namespace System

variable {C : Codec} {s s' : System} {e : Event} {t : List Event} {id : ℕ} {log : Committed}

/-! ## One step -/

/-- Everything that a step can do. -/
inductive Moves (C : Codec) (s : System) : Event → System → Prop
  | replay : s.loop = .replaying → s.reader = .receiving →
      Moves C s .replay { s with loop := .selecting, reader := .loading }
  | ready (rd) : s.loop = .selecting → Moves C s (.ready rd)
      { s with
        wal := s.wal ++ rd.entries
        loop := if rd.snapshot.index = 0 then .appending rd else .installing rd }
  | install (rd) : s.loop = .installing rd → Moves C s .install
      { s with
        newest := some rd.snapshot
        rc := { s.rc with raftStorage := s.rc.raftStorage.applySnapshot rd.snapshot }
        loop := .announcing rd }
  | publishSnapshot (rd) : s.loop = .announcing rd → s.rc.appliedIndex < rd.snapshot.index →
      s.reader = .receiving → Moves C s (.publishSnapshot rd.snapshot)
        { s with
          rc := s.rc.publishSnapshot rd.snapshot
          loop := .appending rd
          reader := .loading }
  | append (rd storage ents) : s.loop = .appending rd →
      s.rc.raftStorage.append rd.entries = .ok storage →
      s.rc.entriesToApply rd.committedEntries = .ok ents → Moves C s .append
        { s with rc := { s.rc with raftStorage := storage }, loop := .publishing ents }
  | apply (e ents) : s.loop = .publishing (e :: ents) → e.data = [] → ¬ e.Removes s.rc.id →
      Moves C s (.apply e) (s.advance e ents)
  | send (e ents) : s.loop = .publishing (e :: ents) → e.data ≠ [] → s.reader = .receiving →
      Moves C s (.send e) { s.advance e ents with reader := .decoding e.data }
  | remove (e ents) : s.loop = .publishing (e :: ents) → e.Removes s.rc.id →
      Moves C s (.remove e) { s with loop := .stopped false }
  | signal (ents) : s.loop = .signalling ents → s.reader = .receiving →
      Moves C s .signal { s with loop := .publishing ents, reader := .loading }
  | skipSnapshot : s.loop = .publishing [] → ¬ s.rc.Due →
      Moves C s .skipSnapshot { s with loop := .selecting }
  | snapshot (snap rc rc') : s.loop = .publishing [] → s.rc.Due → s.saving C = .ok (snap, rc) →
      rc.compact = .ok rc' →
      Moves C s .snapshot { s with newest := some snap, rc := rc', loop := .selecting }
  | compactFails (snap rc c) : s.loop = .publishing [] → s.rc.Due →
      s.saving C = .ok (snap, rc) → rc.compact = .error c →
      Moves C s .snapshot { s.fail c with newest := some snap }
  | closeStopc : Moves C s .closeStopc { s with stopc := true }
  | stop : s.loop.stoppable = true → Moves C s .stop { s with loop := .stopped false }
  | transportError : s.loop = .selecting →
      Moves C s .transportError { s with loop := .stopped true }
  | store (data store) : s.reader = .decoding data → C.storeCommit s.kvStore data = .ok store →
      Moves C s .store { s with kvStore := store, reader := .receiving }
  | loadNone : s.reader = .loading → s.newest = none →
      Moves C s .load { s with reader := .returned }
  | load (snap) : s.reader = .loading → s.newest = some snap →
      Moves C s .load { s with reader := .loaded snap }
  | recover (snap store) : s.reader = .loaded snap → C.recoverFromSnapshot snap.data = .ok store →
      Moves C s .recover { s with kvStore := store, reader := .recovered }
  | drain : s.loop = .stopped false → s.reader = .receiving →
      Moves C s .drain { s with reader := .returned }
  | spawn : s.reader = .returned → s.second = false →
      Moves C s .spawn { s with second := true, reader := .receiving }
  | assign : s.second = true → Moves C s .assign { s with kvs := true }
  | restart (read) : Moves C s (.restart read) (boot s.rc.id s.wal s.newest read)
  | fail (e c) : e.Fallible → Moves C s e (s.fail c)

theorem next_moves (h : s.next C e = some s') : Moves C s e s' := by
  cases e with
  | replay =>
    simp only [next, Option.ite_none_right_eq_some, Option.some.injEq] at h
    obtain ⟨⟨hl, hr⟩, rfl⟩ := h
    exact .replay hl hr
  | ready rd =>
    simp only [next, Option.ite_none_right_eq_some, Option.some.injEq] at h
    obtain ⟨hl, rfl⟩ := h
    exact .ready rd hl
  | install =>
    simp only [next] at h
    split at h
    · rename_i rd hl
      exact Option.some.inj h ▸ .install rd hl
    · cases h
  | publishSnapshot snap =>
    simp only [next] at h
    split at h
    · rename_i rd hl
      simp only [Option.ite_none_right_eq_some, Option.some.injEq] at h
      obtain ⟨⟨rfl, hlt, hr⟩, rfl⟩ := h
      exact .publishSnapshot rd hl hlt hr
    · cases h
  | refuseSnapshot =>
    simp only [next] at h
    split at h
    · simp only [Option.ite_none_right_eq_some, Option.some.injEq] at h
      exact h.2 ▸ .fail _ _ trivial
    · cases h
  | append =>
    simp only [next] at h
    split at h
    · rename_i rd hl
      split at h
      · exact Option.some.inj h ▸ .fail _ _ trivial
      · rename_i storage hs
        split at h
        · exact Option.some.inj h ▸ .fail _ _ trivial
        · rename_i ents he
          exact Option.some.inj h ▸ .append rd storage ents hl hs he
    · cases h
  | apply e =>
    simp only [next] at h
    split at h
    · rename_i e' ents hl
      simp only [Option.ite_none_right_eq_some, Option.some.injEq] at h
      obtain ⟨⟨rfl, hd, hr⟩, rfl⟩ := h
      exact .apply e' ents hl hd hr
    · cases h
  | send e =>
    simp only [next] at h
    split at h
    · rename_i e' ents hl
      simp only [Option.ite_none_right_eq_some, Option.some.injEq] at h
      obtain ⟨⟨rfl, hd, hr⟩, rfl⟩ := h
      exact .send e' ents hl hd hr
    · cases h
  | remove e =>
    simp only [next] at h
    split at h
    · rename_i e' ents hl
      simp only [Option.ite_none_right_eq_some, Option.some.injEq] at h
      obtain ⟨⟨rfl, hr⟩, rfl⟩ := h
      exact .remove e' ents hl hr
    · cases h
  | signal =>
    simp only [next] at h
    split at h
    · rename_i ents hl
      simp only [Option.ite_none_right_eq_some, Option.some.injEq] at h
      obtain ⟨hr, rfl⟩ := h
      exact .signal ents hl hr
    · cases h
  | skipSnapshot =>
    simp only [next, Option.ite_none_right_eq_some, Option.some.injEq] at h
    obtain ⟨⟨hl, hd⟩, rfl⟩ := h
    exact .skipSnapshot hl hd
  | snapshot =>
    simp only [next, Option.ite_none_right_eq_some] at h
    obtain ⟨⟨hl, hd⟩, h⟩ := h
    split at h
    · exact Option.some.inj h ▸ .fail _ _ trivial
    · rename_i snap rc hs
      split at h
      · rename_i c hc
        exact Option.some.inj h ▸ .compactFails snap rc c hl hd hs hc
      · rename_i rc' hc
        exact Option.some.inj h ▸ .snapshot snap rc rc' hl hd hs hc
  | closeStopc => exact Option.some.inj h ▸ .closeStopc
  | stop =>
    simp only [next, Option.ite_none_right_eq_some, Option.some.injEq] at h
    obtain ⟨⟨-, hl⟩, rfl⟩ := h
    exact .stop hl
  | transportError =>
    simp only [next, Option.ite_none_right_eq_some, Option.some.injEq] at h
    obtain ⟨hl, rfl⟩ := h
    exact .transportError hl
  | store =>
    simp only [next] at h
    split at h
    · rename_i data hr
      split at h
      · exact Option.some.inj h ▸ .fail _ _ trivial
      · rename_i store hs
        exact Option.some.inj h ▸ .store data store hr hs
    · cases h
  | load =>
    simp only [next, Option.ite_none_right_eq_some] at h
    obtain ⟨hr, h⟩ := h
    split at h
    · rename_i hn
      exact Option.some.inj h ▸ .loadNone hr hn
    · rename_i snap hn
      exact Option.some.inj h ▸ .load snap hr hn
  | recover =>
    simp only [next] at h
    split at h
    · rename_i snap hr
      split at h
      · exact Option.some.inj h ▸ .fail _ _ trivial
      · rename_i store hs
        exact Option.some.inj h ▸ .recover snap store hr hs
    · cases h
  | dereference =>
    simp only [next, Option.ite_none_right_eq_some, Option.some.injEq] at h
    exact h.2 ▸ .fail _ _ trivial
  | drain =>
    simp only [next] at h
    split at h
    · rename_i failed hl
      simp only [Option.ite_none_right_eq_some] at h
      obtain ⟨hr, h⟩ := h
      cases failed with
      | true => exact Option.some.inj h ▸ .fail _ _ trivial
      | false => exact Option.some.inj h ▸ .drain hl hr
    · cases h
  | spawn =>
    simp only [next, Option.ite_none_right_eq_some, Option.some.injEq] at h
    obtain ⟨⟨hr, hs⟩, rfl⟩ := h
    exact .spawn hr (by simpa using hs)
  | assign =>
    simp only [next, Option.ite_none_right_eq_some, Option.some.injEq] at h
    obtain ⟨⟨hs, -⟩, rfl⟩ := h
    exact .assign hs
  | restart read =>
    simp only [next] at h
    split at h
    · exact Option.some.inj h ▸ .restart read
    · simp only [Option.ite_none_right_eq_some, Option.some.injEq] at h
      exact h.2 ▸ .restart read

theorem step_moves (h : s.step C e = some s') : Moves C s e s' := by
  unfold step at h
  split at h
  · exact next_moves h
  · exact next_moves h
  · cases h

theorem saving_ok {snap : Snapshot} {rc : RaftNode} (h : s.saving C = .ok (snap, rc)) :
    s.kvs = true ∧ s.rc.createSnapshot (C.marshal s.kvStore) = .ok (snap, rc) := by
  unfold saving at h
  split_ifs at h with hk
  exact ⟨hk, h⟩

theorem snapshot_rc {snap : Snapshot} {rc rc' : RaftNode} (hs : s.saving C = .ok (snap, rc))
    (hc : rc.compact = .ok rc') : ∃ storage, rc' =
      { s.rc with raftStorage := storage, snapshotIndex := s.rc.appliedIndex } := by
  obtain ⟨-, -, -, storage, rfl⟩ := RaftNode.createSnapshot_ok (saving_ok hs).2
  obtain ⟨storage', rfl⟩ := RaftNode.compact_ok hc
  exact ⟨storage', rfl⟩

/-- A process that has just been started. -/
structure Booted (newest : Option Snapshot) (s : System) : Prop where
  newest : s.newest = newest
  applied : s.rc.appliedIndex = 0
  confState : s.rc.confState = []
  loop : s.loop = .replaying ∧ s.rc.lastIndex = 0 ∨ s.loop = .selecting
  kvStore : s.kvStore = ∅
  reader : s.reader = .receiving
  second : s.second = false
  kvs : s.kvs = false

theorem boot_booted (id : ℕ) (wal : List Entry) (newest : Option Snapshot)
    (read : Except Crash (List Entry)) : Booted newest (boot id wal newest read) := by
  unfold boot
  simp only []
  split
  · exact ⟨rfl, rfl, rfl, .inl ⟨rfl, rfl⟩, rfl, rfl, rfl, rfl⟩
  · exact ⟨rfl, rfl, rfl, .inl ⟨rfl, rfl⟩, rfl, rfl, rfl, rfl⟩
  · split
    · exact ⟨rfl, rfl, rfl, .inl ⟨rfl, rfl⟩, rfl, rfl, rfl, rfl⟩
    · rename_i storage hs
      have hsnap := MemoryStorage.append_snapshot hs
      exact ⟨rfl, congrArg Snapshot.index hsnap, congrArg Snapshot.confState hsnap, .inr rfl, rfl,
        rfl, rfl, rfl⟩

/-! ## Runs -/

/-- The fields of `rc` are what the labels say, and `publishEntries` goes through the log. -/
structure Tracked (log : Committed) (t : List Event) (s : System) : Prop where
  applied : s.rc.appliedIndex = (Account.of t).applied
  lt : s.rc.appliedIndex < uint64Size
  confState : s.rc.confState = (Account.of t).installed.confState
  handled : ∃ n, s.rc.appliedIndex = (Account.of t).installed.index + n ∧
    (Account.of t).handled = log.slice (Account.of t).installed.index n
  ready : ∀ rd, s.loop.ready = some rd → .ready rd ∈ t
  rest : ∀ ents, s.loop.rest = some ents → ∃ k, ents = log.slice s.rc.appliedIndex k ∧
    s.rc.appliedIndex + k < uint64Size

namespace Tracked

/-- A step that applies nothing. -/
theorem keep (h : Tracked log t s) (hacc : ∀ a : Account, (a.note e).applied = a.applied ∧
      (a.note e).installed = a.installed ∧ (a.note e).handled = a.handled)
    (happ : s'.rc.appliedIndex = s.rc.appliedIndex) (hconf : s'.rc.confState = s.rc.confState)
    (hready : ∀ rd, s'.loop.ready = some rd → s.loop.ready = some rd ∨ .ready rd = e)
    (hrest : ∀ ents, s'.loop.rest = some ents → ents = [] ∨ s.loop.rest = some ents) :
    Tracked log (t ++ [e]) s' := by
  obtain ⟨h₁, h₂, h₃⟩ := hacc (Account.of t)
  refine ⟨?_, ?_, ?_, ?_, fun rd hrd => ?_, fun ents he => ?_⟩
  · rw [Account.of_concat, h₁, happ]
    exact h.applied
  · rw [happ]
    exact h.lt
  · rw [Account.of_concat, h₂, hconf]
    exact h.confState
  · rw [Account.of_concat, h₂, h₃, happ]
    exact h.handled
  · rcases hready rd hrd with hrd | rfl
    · exact List.mem_append_left _ (h.ready rd hrd)
    · simp
  · rw [happ]
    rcases hrest ents he with rfl | he
    · exact ⟨0, rfl, h.lt⟩
    · exact h.rest ents he

/-- `publishEntries` gets to the next entry. -/
theorem advance {ents : List Entry} {x : Entry} (h : Tracked log t s)
    (hl : s.loop = .publishing (x :: ents))
    (hnote : (Account.of t).note e = { Account.of t with
      applied := x.index, handled := (Account.of t).handled ++ [x] })
    (hrc : s'.rc = (s.advance x ents).rc) (hloop : s'.loop = (s.advance x ents).loop) :
    Tracked log (t ++ [e]) s' := by
  obtain ⟨k, hk, hlt⟩ := h.rest (x :: ents) (by rw [hl]; rfl)
  obtain ⟨n, hn, hhan⟩ := h.handled
  rcases k with _ | k
  · cases hk
  rw [Committed.slice_succ, List.cons.injEq] at hk
  obtain ⟨rfl, rfl⟩ := hk
  have happ : s'.rc.appliedIndex = s.rc.appliedIndex + 1 := by
    rw [hrc]
    exact log.index_entry _
  refine ⟨?_, ?_, ?_, ⟨n + 1, ?_, ?_⟩, fun rd hrd => ?_, fun ents he => ?_⟩
  · rw [Account.of_concat, hnote, happ]
    exact (log.index_entry _).symm
  · omega
  · rw [Account.of_concat, hnote, hrc]
    exact h.confState
  · rw [Account.of_concat, hnote, happ, hn]
    rfl
  · rw [Account.of_concat, hnote, Committed.slice_concat, hn, ← hhan]
  · rw [hloop, System.advance] at hrd
    split_ifs at hrd <;> cases hrd
  · refine ⟨k, ?_, by omega⟩
    rw [hloop, System.advance] at he
    rw [happ]
    split_ifs at he <;> exact (Option.some.inj he).symm

end Tracked

theorem boot_tracked {n : Option Snapshot} (hb : Booted n s) (hacc : Account.of t = {}) :
    Tracked log t s := by
  have hlt : s.rc.appliedIndex < uint64Size := by
    rw [hb.applied]
    decide
  have hidle : s.loop.ready = none ∧ s.loop.rest = none := by
    rcases hb.loop with ⟨hl, -⟩ | hl <;> rw [hl] <;> exact ⟨rfl, rfl⟩
  refine ⟨?_, hlt, ?_, ⟨0, ?_, ?_⟩, fun rd hrd => ?_, fun ents he => ?_⟩
  · rw [hacc, hb.applied]
  · rw [hacc, hb.confState]
    rfl
  · rw [hacc, hb.applied]
    rfl
  · rw [hacc]
    rfl
  · rw [hidle.1] at hrd
    cases hrd
  · rw [hidle.2] at he
    cases he

theorem Tracked.step (h : Tracked log t s) (hstep : s.step C e = some s')
    (hdel : ∀ rd, .ready rd ∈ t → rd.From log) : Tracked log (t ++ [e]) s' := by
  cases step_moves hstep with
  | replay | skipSnapshot | remove | stop | transportError =>
    exact h.keep (fun _ => ⟨rfl, rfl, rfl⟩) rfl rfl (fun _ hrd => by cases hrd)
      (fun _ he => by cases he)
  | compactFails | closeStopc | store | loadNone | load | recover | drain | spawn | assign =>
    exact h.keep (fun _ => ⟨rfl, rfl, rfl⟩) rfl rfl (fun _ hrd => .inl hrd) (fun _ he => .inr he)
  | fail e c he =>
    exact h.keep (fun a => by simp [he.note a]) rfl rfl (fun _ hrd => .inl hrd)
      (fun _ he => .inr he)
  | ready rd hl =>
    refine h.keep (fun _ => ⟨rfl, rfl, rfl⟩) rfl rfl (fun rd' hrd => ?_) (fun _ he => ?_)
    · have hrd' : rd = rd' := by
        simp only [] at hrd
        split_ifs at hrd <;> exact Option.some.inj hrd
      exact .inr (hrd' ▸ rfl)
    · simp only [] at he
      split_ifs at he <;> cases he
  | install rd hl =>
    exact h.keep (fun _ => ⟨rfl, rfl, rfl⟩) rfl rfl
      (fun rd' hrd => .inl (by rw [hl]; exact hrd)) (fun _ he => by cases he)
  | publishSnapshot rd hl hlt hr =>
    have hmem := h.ready rd (by rw [hl]; rfl)
    refine ⟨?_, (hdel rd hmem).snapshot, ?_, ⟨0, ?_, ?_⟩, fun rd' hrd => ?_,
      fun _ he => by cases he⟩
    all_goals try rw [Account.of_concat]
    · rfl
    · rfl
    · rfl
    · rfl
    · exact List.mem_append_left _ (Option.some.inj hrd ▸ hmem)
  | append rd storage ents hl hs he =>
    obtain ⟨a, k, hpiece, hk⟩ := (hdel rd (h.ready rd (by rw [hl]; rfl))).committed
    rw [hpiece] at he
    have hrest := RaftNode.entriesToApply_slice hk h.lt he
    refine ⟨?_, h.lt, ?_, ?_, (fun _ hrd => by cases hrd), fun ents' he' => ?_⟩
    all_goals try rw [Account.of_concat]
    · exact h.applied
    · exact h.confState
    · exact h.handled
    · exact Option.some.inj he' ▸ hrest
  | apply e ents hl => exact h.advance hl rfl rfl rfl
  | send e ents hl => exact h.advance hl rfl rfl rfl
  | signal ents hl hr =>
    exact h.keep (fun _ => ⟨rfl, rfl, rfl⟩) rfl rfl (fun _ hrd => by cases hrd)
      (fun _ he => .inr (by rw [hl]; exact he))
  | snapshot snap rc rc' hl hd hs hc =>
    obtain ⟨storage, rfl⟩ := snapshot_rc hs hc
    exact h.keep (fun _ => ⟨rfl, rfl, rfl⟩) rfl rfl (fun _ hrd => by cases hrd)
      (fun _ he => by cases he)
  | restart read =>
    exact boot_tracked (boot_booted _ _ _ _) (by rw [Account.of_concat]; rfl)

/-! ## Anything at the other end -/

theorem mem_events {u : List Turn} : e ∈ Turn.events u ↔ .node e ∈ u := by
  rw [Turn.events, List.mem_filterMap]
  constructor
  · rintro ⟨v, hv, hev⟩
    cases v with
    | node e' => exact Option.some.inj hev ▸ hv
    | other => cases hev
  · exact fun h => ⟨_, h, rfl⟩

theorem events_concat (u : List Turn) (e : Event) :
    Turn.events (u ++ [.node e]) = Turn.events u ++ [e] := by
  simp [Turn.events, Turn.event]

theorem events_concat_other (u : List Turn) (r : Reader) (m : Store) :
    Turn.events (u ++ [.other r m]) = Turn.events u := by
  simp [Turn.events, Turn.event]

theorem events_map_node (t : List Event) : Turn.events (t.map .node) = t := by
  rw [Turn.events, List.filterMap_map]
  exact List.filterMap_some

/-- The reader is one of the things that can be there. -/
theorem runs_map_node (C : Codec) (s : System) (t : List Event) :
    runs (serve C) s (t.map .node) = runs (step C) s t := by
  rw [runs, List.foldlM_map]
  rfl

theorem serve_tracked {u : List Turn} (h : runs (serve C) (start id) u = some s)
    (hdel : ∀ rd, .node (.ready rd) ∈ u → rd.From log) : Tracked log (Turn.events u) s := by
  refine runs_induction (P := fun u s => (∀ rd, .node (.ready rd) ∈ u → rd.From log) →
      Tracked log (Turn.events u) s)
    (fun _ => boot_tracked (boot_booted _ _ _ _) rfl) (fun u s₁ e s₂ _ hP hstep hdel => ?_) h hdel
  have hdel' : ∀ rd, .node (.ready rd) ∈ u → rd.From log := fun rd hrd =>
    hdel rd (List.mem_append_left _ hrd)
  have htr := hP hdel'
  cases e with
  | node e =>
    rw [events_concat]
    exact htr.step hstep fun rd hrd => hdel' rd (mem_events.mp hrd)
  | other r m =>
    rw [events_concat_other]
    obtain rfl := Option.some.inj hstep
    exact ⟨htr.applied, htr.lt, htr.confState, htr.handled, htr.ready, htr.rest⟩

theorem runs_tracked (h : runs (step C) (start id) t = some s)
    (hdel : ∀ rd, .ready rd ∈ t → rd.From log) : Tracked log t s := by
  rw [← runs_map_node] at h
  rw [← events_map_node t]
  exact serve_tracked h fun rd hrd => hdel rd (by simpa using hrd)

end System

end DistSystem.Etcd
