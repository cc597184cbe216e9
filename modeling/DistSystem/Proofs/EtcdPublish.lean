import DistSystem.Proofs.EtcdStore

/-!
# What is published

`entriesToApply` takes of a batch the entries that have not been applied, so `publishEntries` goes
through the log once and in order, however the batches overlap, and sends on `commitC` just what
that log has to send, whatever is at the other end (`System.serve_publishing`).
-/

namespace DistSystem.Etcd

open Interleaving

/-! ## Batches -/

/-- A `Ready` with a piece of the log to apply; no index is the last one of `uint64`. -/
structure Ready.Within (log : Committed) (rd : Ready) : Prop where
  committed : ∃ a k, rd.committedEntries = log.slice a k ∧ a + k + 1 < uint64Size
  snapshot : rd.snapshot.index + 1 < uint64Size

theorem Ready.Within.from {log : Committed} {rd : Ready} (h : rd.Within log) : rd.From log := by
  obtain ⟨a, k, hrd, hk⟩ := h.committed
  exact ⟨⟨a, k, hrd, Nat.lt_of_succ_lt hk⟩, Nat.lt_of_succ_lt h.snapshot⟩

theorem Committed.filter_slice (log : Committed) {A a : ℕ} (h : a ≤ A) (k : ℕ) :
    (log.slice a k).filter (fun e => A < e.index) = log.slice A (a + k - A) := by
  induction k with
  | zero => simp [Nat.sub_eq_zero_of_le h]
  | succ k ih =>
    rw [slice_concat, List.filter_append, ih]
    by_cases hk : A < a + k + 1
    · have hsub : a + (k + 1) - A = a + k - A + 1 := by omega
      have hidx : A + (a + k - A) + 1 = a + k + 1 := by omega
      rw [hsub, slice_concat, hidx]
      simp [log.index_entry, hk]
    · have hsub : a + (k + 1) - A = a + k - A := by omega
      rw [hsub]
      simp [log.index_entry, hk]

theorem Committed.index_le_of_mem_slice (log : Committed) {a k : ℕ} {e : Entry}
    (h : e ∈ log.slice a k) : e.index ≤ a + k := by
  obtain ⟨i, hi, rfl⟩ := List.mem_map.mp h
  have := List.mem_range'_1.mp hi
  rw [log.index_entry]
  omega

/-- Up to `S`, what is left when all past `A` is passed over. -/
theorem filter_range'_of_skip {P Q : ℕ → Prop} [DecidablePred P] [DecidablePred Q] {A S : ℕ}
    (h : A < S) (hQ : ∀ i, Q i ↔ P i ∨ A < i ∧ i ≤ S) :
    (List.range' 1 S).filter (fun i => ¬ Q i) = (List.range' 1 A).filter fun i => ¬ P i := by
  have hrange : List.range' 1 S = List.range' 1 A ++ List.range' (1 + A) (S - A) := by
    rw [List.range'_append_1]
    congr 1
    omega
  have hold : (List.range' 1 A).filter (fun i => ¬ Q i) =
      (List.range' 1 A).filter fun i => ¬ P i := by
    refine List.filter_congr fun i hi => ?_
    have hi := List.mem_range'_1.mp hi
    have hnot : ¬ (A < i ∧ i ≤ S) := by omega
    rw [decide_eq_decide, hQ]
    simp [hnot]
  have hnew : (List.range' (1 + A) (S - A)).filter (fun i => ¬ Q i) = [] := by
    refine List.filter_eq_nil_iff.mpr fun i hi => ?_
    have hi := List.mem_range'_1.mp hi
    simp only [hQ, decide_eq_true_eq, not_not]
    exact .inr (by omega)
  rw [hrange, List.filter_append, hold, hnew, List.append_nil]

/-- Of a batch that starts at or before the next entry to apply, what is left is past
`appliedIndex`. -/
theorem RaftNode.entriesToApply_eq {rc : RaftNode} {log : Committed} {rd : Ready}
    (hA : rc.appliedIndex + 1 < uint64Size) (hrd : rd.Within log)
    (hstart : ∀ e ∈ rd.committedEntries.head?, e.index ≤ rc.appliedIndex + 1) :
    rc.entriesToApply rd.committedEntries =
        .ok (rd.committedEntries.filter fun e => rc.appliedIndex < e.index) ∧
      (∀ e ∈ rd.committedEntries.head?,
        add64 (sub64 rc.appliedIndex e.index) 1 = rc.appliedIndex + 1 - e.index) ∧
      ∃ k, rd.committedEntries.filter (fun e => rc.appliedIndex < e.index) =
        log.slice rc.appliedIndex k ∧ rc.appliedIndex + k + 1 < uint64Size := by
  obtain ⟨a, k, hrd, hk⟩ := hrd.committed
  rw [hrd] at hstart ⊢
  rcases k with _ | k
  · exact ⟨rfl, by simp, 0, rfl, hA⟩
  · have hle : a ≤ rc.appliedIndex := by
      have := hstart _ (by rw [Committed.slice_succ]; rfl)
      rw [log.index_entry] at this
      omega
    have hoff := add64_sub64 hle hA
    have hfatal : ¬ add64 rc.appliedIndex 1 < a + 1 := by
      unfold add64 uint64Size at *
      omega
    rw [log.filter_slice hle]
    refine ⟨?_, ?_, _, rfl, by omega⟩
    · conv_lhs => rw [Committed.slice_succ]
      simp only [entriesToApply, log.index_entry, if_neg hfatal, hoff]
      rw [← Committed.slice_succ, Committed.length_slice, Committed.drop_slice]
      split_ifs with hlt
      · congr 2 <;> omega
      · rw [Nat.sub_eq_zero_of_le (by omega)]
        rfl
    · rw [Committed.slice_succ]
      simp only [List.head?_cons, Option.mem_def, Option.some.injEq, forall_eq', log.index_entry,
        hoff]
      omega

/-! ## What the labels say -/

/-- What `publishEntries` has done since the process was started. -/
structure Traffic where
  applied : ℕ := 0
  /-- What it has been through. -/
  through : List Entry := []
  /-- What it has sent on `commitC`; `none` is nil. -/
  sent : List (Option Entry) := []
  /-- What was passed over by a snapshot: the indices after the first, up to the second. -/
  skipped : List (ℕ × ℕ) := []
  handed : List Ready := []

namespace Traffic

def note (a : Traffic) : Event → Traffic
  | .ready rd => { a with handed := a.handed ++ [rd] }
  | .apply e => { a with applied := e.index, through := a.through ++ [e] }
  | .send e =>
    { a with applied := e.index, through := a.through ++ [e], sent := a.sent ++ [some e] }
  | .signal => { a with sent := a.sent ++ [none] }
  | .publishSnapshot snap =>
    { a with applied := snap.index, skipped := a.skipped ++ [(a.applied, snap.index)] }
  | .restart _ => {}
  | _ => a

def of (t : List Event) : Traffic := t.foldl note {}

theorem of_concat (t : List Event) (e : Event) : of (t ++ [e]) = (of t).note e := by
  simp [of]

def Skipped (a : Traffic) (i : ℕ) : Prop := ∃ p ∈ a.skipped, p.1 < i ∧ i ≤ p.2

instance skippedDecidable (a : Traffic) (i : ℕ) : Decidable (a.Skipped i) :=
  inferInstanceAs (Decidable (∃ p ∈ a.skipped, _))

end Traffic

theorem Event.Fallible.traffic {e : Event} (h : e.Fallible) (a : Traffic) : a.note e = a := by
  cases e <;> first | rfl | exact h.elim

/-- What `publishEntries` sends for an entry: its data unless it is empty, and nil after the last
one of the log at the start. -/
def Entry.commits (lastIndex : ℕ) (e : Entry) : List (Option Entry) :=
  (if e.data = [] then [] else [some e]) ++ if e.index = lastIndex then [none] else []

theorem Entry.eq_of_mem_commits {lastIndex : ℕ} {e x : Entry} (h : some x ∈ e.commits lastIndex) :
    x = e := by
  rcases List.mem_append.mp h with h | h
  · split_ifs at h
    · cases h
    · exact Option.some.inj (List.mem_singleton.mp h)
  · split_ifs at h
    · cases List.mem_singleton.mp h
    · cases h

/-- The nil that is still to be sent. -/
def Loop.owes : Loop → List (Option Entry)
  | .signalling _ => [none]
  | _ => []

/-- What `entriesToApply` is called on. -/
def Loop.batch : Loop → List Entry
  | .appending rd => rd.committedEntries
  | _ => []

/-- The entries that are still to be gone through. -/
def Loop.left (l : Loop) : ℕ := (l.rest.getD []).length

/-- What holds in a process that has published `a`, with `appliedIndex` at `A`, `lastIndex` at
`last` and the loop at `l`. -/
structure Publishing (log : Committed) (a : Traffic) (A last : ℕ) (l : Loop) : Prop where
  applied : a.applied = A
  lt : A + 1 < uint64Size
  skipped : ∀ p ∈ a.skipped, p.2 ≤ A
  through : a.through = ((List.range' 1 A).filter fun i => ¬ a.Skipped i).map log.entry
  sent : a.through.flatMap (Entry.commits last) = a.sent ++ l.owes ∨
    l = .stopped false ∧ a.through.flatMap (Entry.commits last) = a.sent ++ [none]
  rest : ∀ ents, l.rest = some ents → ∃ k, ents = log.slice A k ∧ A + k + 1 < uint64Size
  handed : ∀ rd ∈ a.handed, l.ready = some rd ∨ (∃ b, l = .stopped b) ∨
    ∀ x ∈ rd.committedEntries, x.index ≤ A + l.left

namespace Publishing

variable {log : Committed} {a : Traffic} {A last : ℕ} {l l' : Loop}

theorem sent_eq (h : Publishing log a A last l) (hne : ∀ b, l ≠ .stopped b) :
    a.through.flatMap (Entry.commits last) = a.sent ++ l.owes :=
  h.sent.resolve_right fun hs => hne _ hs.1

theorem handed_le (h : Publishing log a A last l) (hne : ∀ b, l ≠ .stopped b) {rd : Ready}
    (hrd : rd ∈ a.handed) :
    l.ready = some rd ∨ ∀ x ∈ rd.committedEntries, x.index ≤ A + l.left :=
  (h.handed rd hrd).imp id fun h => h.resolve_left fun hb => hne _ hb.choose_spec

theorem start {last : ℕ} (hl : l = .replaying ∨ l = .selecting) : Publishing log {} 0 last l := by
  refine ⟨rfl, by decide, by simp, by simp, .inl ?_, fun ents he => ?_, by simp⟩
  · rcases hl with rfl | rfl <;> rfl
  · rcases hl with rfl | rfl <;> cases he

/-- The loop gets from one place to another with nothing sent and nothing left out. -/
theorem move (h : Publishing log a A last l) (hne : ∀ b, l ≠ .stopped b)
    (howes : l'.owes = l.owes) (hready : l'.ready = l.ready) (hleft : l'.left = l.left)
    (hrest : ∀ ents, l'.rest = some ents → l.rest = some ents) :
    Publishing log a A last l' where
  applied := h.applied
  lt := h.lt
  skipped := h.skipped
  through := h.through
  sent := by
    rw [howes]
    exact .inl (h.sent_eq hne)
  rest ents he := h.rest ents (hrest ents he)
  handed rd hrd := by
    rw [hready, hleft]
    exact (h.handed_le hne hrd).imp id .inr

/-- The loop ends, and with it the nil that was to be sent. -/
theorem stop {b : Bool} (h : Publishing log a A last l) (hne : ∀ b, l ≠ .stopped b)
    (hb : b = true → l.owes = []) : Publishing log a A last (.stopped b) where
  applied := h.applied
  lt := h.lt
  skipped := h.skipped
  through := h.through
  sent := by
    have hsent := h.sent_eq hne
    cases b with
    | true =>
      rw [hb rfl] at hsent
      exact .inl hsent
    | false =>
      cases l with
      | signalling ents => exact .inr ⟨rfl, hsent⟩
      | _ => exact .inl hsent
  rest ents he := by cases he
  handed rd _ := .inr (.inl ⟨b, rfl⟩)

/-- A `Ready` comes in. -/
theorem receive (h : Publishing log a A last .selecting) {rd : Ready} (hl : l'.ready = some rd) :
    Publishing log { a with handed := a.handed ++ [rd] } A last l' := by
  have hidle : l'.owes = [] ∧ l'.rest = none ∧ l'.left = 0 := by
    cases l' <;> first | exact ⟨rfl, rfl, rfl⟩ | cases hl
  refine ⟨h.applied, h.lt, h.skipped, h.through, .inl ?_, fun ents he => ?_, fun rd' hrd => ?_⟩
  · rw [hidle.1]
    exact h.sent_eq (by simp)
  · rw [hidle.2.1] at he
    cases he
  · rcases List.mem_append.mp hrd with hrd | hrd
    · rcases h.handed_le (by simp) hrd with hr | hle
      · cases hr
      · rw [hidle.2.2]
        exact .inr (.inr hle)
    · rw [List.mem_singleton.mp hrd]
      exact .inl hl

/-- A snapshot takes the place of what is before its index. -/
theorem jump {rd : Ready} {S : ℕ} (h : Publishing log a A last (.announcing rd)) (hlt : A < S)
    (hS : S + 1 < uint64Size) :
    Publishing log { a with applied := S, skipped := a.skipped ++ [(a.applied, S)] } S last
      (.appending rd) := by
  have hskip : ∀ i, Traffic.Skipped
      { a with applied := S, skipped := a.skipped ++ [(a.applied, S)] } i ↔
        a.Skipped i ∨ A < i ∧ i ≤ S := by
    simp [Traffic.Skipped, or_and_right, exists_or, h.applied]
  refine ⟨rfl, hS, fun p hp => ?_, ?_, .inl ?_, fun ents he => ?_, fun rd' hrd => ?_⟩
  · rcases List.mem_append.mp hp with hp | hp
    · exact (h.skipped p hp).trans hlt.le
    · rw [List.mem_singleton.mp hp]
  · rw [filter_range'_of_skip hlt hskip]
    exact h.through
  · exact h.sent_eq (by simp)
  · cases he
  · rcases h.handed_le (by simp) hrd with hr | hle
    · exact .inl hr
    · exact .inr (.inr fun x hx => (hle x hx).trans (Nat.add_le_add_right hlt.le _))

/-- `entriesToApply` leaves what is past `A`. -/
theorem take {rd : Ready} {k : ℕ} (h : Publishing log a A last (.appending rd))
    (hrd : rd.committedEntries.filter (fun x => A < x.index) = log.slice A k)
    (hk : A + k + 1 < uint64Size) :
    Publishing log a A last
      (.publishing (rd.committedEntries.filter fun x => A < x.index)) := by
  refine ⟨h.applied, h.lt, h.skipped, h.through, .inl ?_, fun ents he => ?_, fun rd' hrd' => ?_⟩
  · exact h.sent_eq (by simp)
  · exact ⟨k, (Option.some.inj he).symm.trans hrd, hk⟩
  · refine .inr (.inr fun x hx => ?_)
    simp only [Loop.left, Loop.rest, Option.getD_some, hrd, Committed.length_slice]
    rcases h.handed_le (by simp) hrd' with hr | hle
    · obtain rfl := Option.some.inj hr
      by_cases hA : A < x.index
      · have hmem : x ∈ rd.committedEntries.filter fun x => A < x.index :=
          List.mem_filter.mpr ⟨hx, decide_eq_true hA⟩
        exact log.index_le_of_mem_slice (hrd ▸ hmem)
      · omega
    · have := hle x hx
      simp only [Loop.left, Loop.rest, Option.getD_none, List.length_nil] at this
      omega

/-- `publishEntries` gets to the next entry. -/
theorem advance {ents : List Entry} {x : Entry} {a' : Traffic}
    (h : Publishing log a A last (.publishing (x :: ents)))
    (happlied : a'.applied = x.index) (hthrough : a'.through = a.through ++ [x])
    (hsent : a'.sent = a.sent ++ if x.data = [] then [] else [some x])
    (hskipped : a'.skipped = a.skipped) (hhanded : a'.handed = a.handed) :
    Publishing log a' x.index last
      (if x.index = last then .signalling ents else .publishing ents) := by
  obtain ⟨k, hk, hlt⟩ := h.rest (x :: ents) rfl
  rcases k with _ | k
  · cases hk
  rw [Committed.slice_succ, List.cons.injEq] at hk
  obtain ⟨rfl, rfl⟩ := hk
  rw [log.index_entry] at happlied ⊢
  set l' : Loop := if A + 1 = last then .signalling (log.slice (A + 1) k)
    else .publishing (log.slice (A + 1) k) with hl'
  have hloop : l'.left = k ∧ l'.rest = some (log.slice (A + 1) k) ∧
      l'.owes = if A + 1 = last then [none] else [] := by
    rw [hl']
    split_ifs <;> simp [Loop.left, Loop.rest, Loop.owes]
  have hskip : ∀ i, a'.Skipped i ↔ a.Skipped i := fun i => by
    simp only [Traffic.Skipped, hskipped]
  have hnew : ¬ a.Skipped (A + 1) := by
    rintro ⟨p, hp, -, hle⟩
    have := h.skipped p hp
    omega
  refine ⟨happlied, by omega, ?_, ?_, .inl ?_, fun ents he => ⟨k, ?_, by omega⟩, fun rd hrd => ?_⟩
  · rw [hskipped]
    exact fun p hp => (h.skipped p hp).trans (Nat.le_succ _)
  · simp only [hskip]
    rw [hthrough, List.range'_1_concat, List.filter_append, List.map_append, ← h.through,
      Nat.add_comm 1 A, List.filter_singleton]
    simp [hnew]
  · rw [hthrough, List.flatMap_append, h.sent_eq (by simp), hsent, hloop.2.2]
    simp [Loop.owes, Entry.commits, log.index_entry]
  · rw [hloop.2.1] at he
    exact (Option.some.inj he).symm
  · rw [hhanded] at hrd
    refine .inr (.inr fun y hy => ?_)
    rw [hloop.1]
    rcases h.handed_le (by simp) hrd with hr | hle
    · cases hr
    · have := hle y hy
      simp only [Loop.left, Loop.rest, Option.getD_some, List.length_cons,
        Committed.length_slice] at this
      omega

/-- The nil is sent. -/
theorem signal {ents : List Entry} (h : Publishing log a A last (.signalling ents)) :
    Publishing log { a with sent := a.sent ++ [none] } A last (.publishing ents) := by
  refine ⟨h.applied, h.lt, h.skipped, h.through, .inl ?_, h.rest, fun rd hrd => ?_⟩
  · rw [h.sent_eq (by simp)]
    simp [Loop.owes]
  · exact (h.handed_le (by simp) hrd).imp id .inr

end Publishing

namespace System

variable {C : Codec} {s s' : System} {e : Event} {u : List Turn} {id : ℕ} {log : Committed}

/-! ## Runs -/

/-- A batch starts at or before the next entry to apply. -/
def StartsInTime (s : System) : Prop :=
  ∀ x ∈ s.loop.batch.head?, x.index ≤ s.rc.appliedIndex + 1

instance startsInTimeDecidable (s : System) : Decidable s.StartsInTime :=
  inferInstanceAs (Decidable (∀ x ∈ s.loop.batch.head?, _))

theorem boot_publishing {n : Option Snapshot} (hb : Booted n s) :
    Publishing log {} s.rc.appliedIndex s.rc.lastIndex s.loop := by
  rw [hb.applied]
  exact .start (hb.loop.imp And.left id)

theorem step_publishing {a : Traffic}
    (h : Publishing log a s.rc.appliedIndex s.rc.lastIndex s.loop)
    (hstep : s.step C e = some s') (hready : ∀ rd, s.loop.ready = some rd → rd.Within log)
    (hstart : e = .append → s.StartsInTime) :
    Publishing log (a.note e) s'.rc.appliedIndex s'.rc.lastIndex s'.loop := by
  cases step_moves hstep with
  | replay hl =>
    rw [hl] at h
    exact h.move (by simp) rfl rfl rfl (by simp [Loop.rest])
  | ready rd hl =>
    rw [hl] at h
    refine h.receive ?_
    simp only []
    split_ifs <;> rfl
  | install rd hl =>
    rw [hl] at h
    exact h.move (by simp) rfl rfl rfl (by simp [Loop.rest])
  | publishSnapshot rd hl hlt =>
    rw [hl] at h
    exact h.jump hlt (hready rd (by rw [hl]; rfl)).snapshot
  | append rd storage ents hl hs he =>
    have hhead := hstart rfl
    rw [StartsInTime, hl] at hhead
    obtain ⟨heq, -, k, hk, hlt⟩ :=
      RaftNode.entriesToApply_eq h.lt (hready rd (by rw [hl]; rfl)) hhead
    obtain rfl := Except.ok.inj (heq.symm.trans he)
    rw [hl] at h
    exact h.take hk hlt
  | apply x ents hl hd =>
    rw [hl] at h
    exact h.advance rfl rfl (by simp [Traffic.note, hd]) rfl rfl
  | send x ents hl hd =>
    rw [hl] at h
    exact h.advance rfl rfl (by simp [Traffic.note, hd]) rfl rfl
  | signal ents hl =>
    rw [hl] at h
    exact h.signal
  | skipSnapshot hl =>
    rw [hl] at h
    exact h.move (by simp) rfl rfl rfl (by simp [Loop.rest])
  | snapshot snap rc rc' hl hd hs hc =>
    obtain ⟨storage, rfl⟩ := snapshot_rc hs hc
    rw [hl] at h
    exact h.move (by simp) rfl rfl rfl (by simp [Loop.rest])
  | remove x ents hl =>
    rw [hl] at h
    exact h.stop (by simp) (by simp)
  | stop hl =>
    exact h.stop (fun b hb => by rw [hb] at hl; cases hl) (by simp)
  | transportError hl =>
    rw [hl] at h
    exact h.stop (by simp) fun _ => rfl
  | restart read => exact boot_publishing (boot_booted _ _ _ _)
  | fail e c he =>
    rw [he.traffic]
    exact h
  | compactFails | closeStopc | store | loadNone | load | recover | drain | spawn | assign =>
    exact h

theorem serve_publishing (h : runs (serve C) (start id) u = some s)
    (hdel : ∀ rd, .node (.ready rd) ∈ u → rd.Within log)
    (hstart : AtEach (serve C) (start id) (fun _ s e => e = .node .append → s.StartsInTime) u) :
    Publishing log (.of (Turn.events u)) s.rc.appliedIndex s.rc.lastIndex s.loop := by
  refine runs_induction (P := fun u s => (∀ rd, .node (.ready rd) ∈ u → rd.Within log) →
      AtEach (serve C) (start id) (fun _ s e => e = .node .append → s.StartsInTime) u →
      Publishing log (.of (Turn.events u)) s.rc.appliedIndex s.rc.lastIndex s.loop)
    (fun _ _ => boot_publishing (boot_booted _ _ _ _))
    (fun u s₁ e s₂ h₁ hP hstep hdel hstart => ?_) h hdel hstart
  have hdel' : ∀ rd, .node (.ready rd) ∈ u → rd.Within log := fun rd hrd =>
    hdel rd (List.mem_append_left _ hrd)
  obtain ⟨hat, hs₁⟩ := (atEach_concat h₁).mp hstart
  have hp := hP hdel' hat
  cases e with
  | node e =>
    have htr := serve_tracked h₁ fun rd hrd => (hdel' rd hrd).from
    rw [events_concat, Traffic.of_concat]
    exact step_publishing hp hstep
      (fun rd hrd => hdel' rd (mem_events.mp (htr.ready rd hrd))) fun he => hs₁ (he ▸ rfl)
  | other r m =>
    rw [events_concat_other]
    obtain rfl := Option.some.inj hstep
    exact hp

/-- Whatever batches of one log come in, each at or before the next entry to apply, and whatever is
at the other end of `commitC`: `entriesToApply` takes what is new of them; `publishEntries` goes
through the log once and in order, except for what a snapshot has taken the place of, and sends each
value, and the nil after `lastIndex`, in its place. The nil alone can be missing, when the node is
at that send or has stopped there. Nothing that is sent is past `appliedIndex`, and when
`publishEntries` is through with its batches nothing of them is. -/
theorem published_once (h : runs (serve C) (start id) u = some s)
    (hdel : ∀ rd, .node (.ready rd) ∈ u → rd.Within log)
    (hstart : AtEach (serve C) (start id) (fun _ s e => e = .node .append → s.StartsInTime) u) :
    AtEach (serve C) (start id) (fun _ s e => e = .node .append →
      s.rc.entriesToApply s.loop.batch =
          .ok (s.loop.batch.filter fun x => s.rc.appliedIndex < x.index) ∧
        ∀ x ∈ s.loop.batch.head?,
          add64 (sub64 s.rc.appliedIndex x.index) 1 = s.rc.appliedIndex + 1 - x.index) u ∧
      let a := Traffic.of (Turn.events u)
      a.through =
          ((List.range' 1 s.rc.appliedIndex).filter fun i => ¬ a.Skipped i).map log.entry ∧
        (a.through.flatMap (Entry.commits s.rc.lastIndex) = a.sent ∨
          ((∃ ents, s.loop = .signalling ents) ∨ s.loop = .stopped false) ∧
            a.through.flatMap (Entry.commits s.rc.lastIndex) = a.sent ++ [none]) ∧
        s.rc.appliedIndex = a.applied ∧
        (∀ x, some x ∈ a.sent → x.index ≤ s.rc.appliedIndex) ∧
        (s.loop = .publishing [] ∨ s.loop = .selecting → ∀ rd ∈ a.handed,
          ∀ x ∈ rd.committedEntries, x.index ≤ s.rc.appliedIndex) := by
  have hp := serve_publishing h hdel hstart
  refine ⟨?_, hp.through, ?_, hp.applied.symm, fun x hx => ?_, fun hl rd hrd x hx => ?_⟩
  · rintro u₁ e u₂ s₁ rfl h₁ he
    have hdel₁ : ∀ rd, .node (.ready rd) ∈ u₁ → rd.Within log := fun rd hrd =>
      hdel rd (List.mem_append_left _ hrd)
    have hhead := hstart u₁ e u₂ s₁ rfl h₁ he
    have hp₁ := serve_publishing h₁ hdel₁ hstart.left
    have htr := serve_tracked h₁ fun rd hrd => (hdel₁ rd hrd).from
    rw [StartsInTime] at hhead
    cases hl : s₁.loop with
    | appending rd =>
      have hmem := mem_events.mp (htr.ready rd (by rw [hl]; rfl))
      rw [hl] at hhead
      obtain ⟨heq, hoff, -⟩ := RaftNode.entriesToApply_eq hp₁.lt (hdel₁ rd hmem) hhead
      exact ⟨heq, hoff⟩
    | _ => exact ⟨rfl, by simp [Loop.batch]⟩
  · rcases hp.sent with hs | ⟨hl, hs⟩
    · cases hl : s.loop with
      | signalling ents => exact .inr ⟨.inl ⟨ents, rfl⟩, by rw [hs, hl]; rfl⟩
      | _ => exact .inl (by rw [hs, hl]; simp [Loop.owes])
    · exact .inr ⟨.inr hl, hs⟩
  · have hmem : some x ∈
        (Traffic.of (Turn.events u)).through.flatMap (Entry.commits s.rc.lastIndex) := by
      rcases hp.sent with hs | ⟨-, hs⟩ <;> rw [hs] <;> exact List.mem_append_left _ hx
    obtain ⟨y, hy, hxy⟩ := List.mem_flatMap.mp hmem
    rw [hp.through, List.mem_map] at hy
    obtain ⟨i, hi, rfl⟩ := hy
    have hx : x = log.entry i := Entry.eq_of_mem_commits hxy
    have hi := List.mem_range'_1.mp (List.mem_filter.mp hi).1
    rw [hx, log.index_entry]
    omega
  · have hidle : s.loop.ready = none ∧ s.loop.left = 0 ∧ ∀ b, s.loop ≠ .stopped b := by
      rcases hl with hl | hl <;> rw [hl] <;> exact ⟨rfl, rfl, by simp⟩
    rcases hp.handed_le hidle.2.2 hrd with hr | hle
    · rw [hidle.1] at hr
      cases hr
    · have := hle x hx
      rw [hidle.2.1] at this
      exact this

end System

/-- Batches that overlap, before and after the node is started again, and a snapshot between
them. -/
def overlapping : List Turn :=
  [.node .replay,
    .node (.ready ⟨steady.slice 0 2, emptySnapshot, steady.slice 0 2⟩), .node .append,
    .other .receiving ∅, .node (.send (steady.entry 1)), .other .receiving ∅,
    .node (.send (steady.entry 2)), .node .skipSnapshot,
    .node (.ready ⟨steady.slice 2 1, emptySnapshot, steady.slice 0 3⟩), .node .append,
    .other .receiving ∅, .node (.send (steady.entry 3)), .node .skipSnapshot,
    .node (.restart (.ok (steady.slice 0 3))),
    .node (.ready ⟨[], emptySnapshot, steady.slice 0 2⟩), .node .append,
    .node (.send (steady.entry 1)), .other .receiving ∅, .node (.send (steady.entry 2)),
    .node .skipSnapshot,
    .node (.ready ⟨[], emptySnapshot, steady.slice 1 2⟩), .node .append,
    .other .receiving ∅, .node (.send (steady.entry 3)), .other .receiving ∅, .node .signal,
    .node .skipSnapshot,
    .node (.ready ⟨steady.slice 5 1, handedOver, steady.slice 4 2⟩), .node .install,
    .other .receiving ∅, .node (.publishSnapshot handedOver), .node .append,
    .other .receiving ∅, .node (.send (steady.entry 6))]

theorem System.overlapping_published :
    ∃ s, runs (serve plain) (start 1) overlapping = some s ∧ s.loop = .publishing [] ∧
      (Traffic.of (Turn.events overlapping)).through.flatMap (Entry.commits s.rc.lastIndex) =
        (Traffic.of (Turn.events overlapping)).sent := by
  have hrun : ((runs (serve plain) (start 1) overlapping).map System.loop) =
      some (.publishing []) := by decide +kernel
  obtain ⟨s, hs, hl⟩ := Option.map_eq_some_iff.mp hrun
  refine ⟨s, hs, hl, ?_⟩
  have hdel : ∀ rd, .node (.ready rd) ∈ overlapping → rd.Within steady := by
    intro rd hrd
    simp only [overlapping, List.mem_cons, reduceCtorEq, Turn.node.injEq, Event.ready.injEq,
      false_or, or_false, List.not_mem_nil] at hrd
    rcases hrd with rfl | rfl | rfl | rfl | rfl
    · exact ⟨⟨0, 2, rfl, by decide⟩, by decide⟩
    · exact ⟨⟨0, 3, rfl, by decide⟩, by decide⟩
    · exact ⟨⟨0, 2, rfl, by decide⟩, by decide⟩
    · exact ⟨⟨1, 2, rfl, by decide⟩, by decide⟩
    · exact ⟨⟨4, 2, rfl, by decide⟩, by decide⟩
  have hstart : ∀ i < overlapping.length,
      ∀ s ∈ runs (serve plain) (start 1) (overlapping.take i), s.StartsInTime := by
    decide +kernel
  obtain ⟨-, -, hsent, -⟩ := published_once hs hdel
    (atEach_of_take fun i hi s hs _ => hstart i hi s hs)
  rcases hsent with hsent | ⟨⟨ents, h⟩ | h, -⟩
  · exact hsent
  · rw [hl] at h
    cases h
  · rw [hl] at h
    cases h

end DistSystem.Etcd
