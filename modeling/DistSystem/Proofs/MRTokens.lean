import DistSystem.Proofs.MRBarrier

/-!
# Idle workers

A worker that has registered is a token with one place at a time: a goroutine that sends it on
`registerChannel`, the goroutine of the task it was given to, or none any more after a call has
returned false. Every step of the master moves one token or none (`Located.step`), so with each
worker registering once no token is ever doubled or lost.
-/

namespace DistSystem.MapReduce

open Interleaving

/-- The worker that a goroutine has received. -/
@[simp] def Goroutine.worker : Goroutine → Option Str
  | calling w _ _ => some w
  | _ => none

/-- Where a registered worker can be. -/
inductive Place where
  /-- In a send on `registerChannel`. -/
  | pending
  /-- With the goroutine of a task. -/
  | held (phase : Phase) (i : ℕ)
  | discarded

namespace Master

variable (J : Codec) (job : Job) (d : Dir) (t : List Event)

/-- A call of the worker has returned false. -/
def Discarded (w : Str) : Prop :=
  ∃ t₁ phase i t₂ s₁, t = t₁ ++ .reply phase i false :: t₂ ∧
    runs (step J job) (start d) t₁ = some s₁ ∧ (s₁.tasks phase i).worker = some w

/-- The worker is at a place, after the labels `t`. -/
def At (s : Master) (w : Str) : Place → Prop
  | .pending => w ∈ s.registerChannel
  | .held phase i => (s.tasks phase i).worker = some w
  | .discarded => Discarded J job d t w

/-- Every registered worker has one place, and no other string has any. -/
structure Located (s : Master) (place : Str → Option Place) : Prop where
  nodup : s.registerChannel.Nodup
  registered : ∀ w, w ∈ s.workers ↔ place w ≠ none
  at_iff : ∀ w p, s.At J job d t w p ↔ place w = some p

variable {J job d t} {s s' : Master} {e : Event} {place : Str → Option Place} {w : Str}

theorem worker_setTask (phase q : Phase) (i j : ℕ) (g : Goroutine) :
    ((s.setTask phase i g).tasks q j).worker =
      if q = phase ∧ j = i then g.worker else (s.tasks q j).worker := by
  split_ifs with h
  · obtain ⟨rfl, rfl⟩ := h
    rw [setTask_self]
  · rw [setTask_other g h]

theorem discarded_concat (h : runs (step J job) (start d) t = some s) :
    Discarded J job d (t ++ [e]) w ↔ Discarded J job d t w ∨
      ∃ phase i, e = .reply phase i false ∧ (s.tasks phase i).worker = some w := by
  constructor
  · rintro ⟨t₁, phase, i, t₂, s₁, heq, h₁, hw⟩
    rcases concat_eq_append_cons heq with ⟨-, rfl, he⟩ | ⟨t₃, -, rfl⟩
    · obtain rfl : s = s₁ := Option.some.inj (h.symm.trans h₁)
      exact .inr ⟨phase, i, he, hw⟩
    · exact .inl ⟨t₁, phase, i, t₃, s₁, rfl, h₁, hw⟩
  · rintro (⟨t₁, phase, i, t₂, s₁, rfl, h₁, hw⟩ | ⟨phase, i, rfl, hw⟩)
    · exact ⟨t₁, phase, i, t₂ ++ [e], s₁, by simp, h₁, hw⟩
    · exact ⟨t, phase, i, [], s, rfl, h, hw⟩

theorem discarded_concat_of_ne (h : runs (step J job) (start d) t = some s)
    (he : ∀ phase i, e ≠ .reply phase i false) :
    Discarded J job d (t ++ [e]) w ↔ Discarded J job d t w := by
  rw [discarded_concat h]
  exact or_iff_left fun ⟨phase, i, heq, _⟩ => he phase i heq

theorem workers_sublist (h : s.step J job e = some s') : s.workers.Sublist s'.workers := by
  cases (step_moves h).1 with
  | register => exact List.sublist_append_left _ _
  | _ => exact List.Sublist.refl _

namespace Located

theorem start (J : Codec) (job : Job) (d : Dir) :
    Located J job d [] (start d) fun _ => none where
  nodup := List.nodup_nil
  registered w := by simp [Master.start]
  at_iff w p := by
    cases p with
    | pending => simp [At, Master.start]
    | held phase i => simp [At, Master.start]
    | discarded => simp [At, Discarded]

/-- No token moves. -/
theorem quiet (hl : Located J job d t s place) (h : runs (step J job) (Master.start d) t = some s)
    (he : ∀ phase i, e ≠ .reply phase i false) (hch : s'.registerChannel = s.registerChannel)
    (hws : s'.workers = s.workers)
    (hwk : ∀ q j, (s'.tasks q j).worker = (s.tasks q j).worker) :
    Located J job d (t ++ [e]) s' place where
  nodup := hch ▸ hl.nodup
  registered w := by rw [hws, hl.registered]
  at_iff w p := by
    rw [← hl.at_iff]
    cases p with
    | pending => simp only [At, hch]
    | held phase i => simp only [At, hwk]
    | discarded => exact discarded_concat_of_ne h he

/-- The token `w` comes to the place `p`. -/
theorem move (hl : Located J job d t s place) (w : Str) (p : Place) (hnd : s'.registerChannel.Nodup)
    (hws : ∀ v, v ∈ s'.workers ↔ v = w ∨ v ∈ s.workers)
    (hself : ∀ q, s'.At J job d (t ++ [e]) w q ↔ q = p)
    (hother : ∀ v, v ≠ w → ∀ q, s'.At J job d (t ++ [e]) v q ↔ s.At J job d t v q) :
    Located J job d (t ++ [e]) s' (Function.update place w (some p)) where
  nodup := hnd
  registered v := by
    rw [hws]
    by_cases hv : v = w
    · simp [hv]
    · simp [hv, hl.registered]
  at_iff v q := by
    by_cases hv : v = w
    · subst hv
      rw [hself, Function.update_self, Option.some.injEq, eq_comm]
    · rw [hother v hv, Function.update_of_ne hv, hl.at_iff]

/-- A worker is nowhere but at its place. -/
theorem unique (hl : Located J job d t s place) {p q : Place} (hp : s.At J job d t w p)
    (hq : s.At J job d t w q) : p = q :=
  Option.some.inj (((hl.at_iff w p).mp hp).symm.trans ((hl.at_iff w q).mp hq))

theorem registered_of_at (hl : Located J job d t s place) {p : Place} (hp : s.At J job d t w p) :
    w ∈ s.workers := by
  rw [hl.registered, (hl.at_iff w p).mp hp]
  exact Option.some_ne_none p

/-- A goroutine goes on with the worker it has, or with none. -/
theorem keep (hl : Located J job d t s place)
    (h : runs (Master.step J job) (Master.start d) t = some s)
    (he : ∀ phase i, e ≠ .reply phase i false) {phase : Phase} {i : ℕ} {g : Goroutine}
    (hg : g.worker = (s.tasks phase i).worker) (htasks : s'.tasks = (s.setTask phase i g).tasks)
    (hch : s'.registerChannel = s.registerChannel) (hws : s'.workers = s.workers) :
    Located J job d (t ++ [e]) s' place := by
  refine hl.quiet h he hch hws fun q j => ?_
  rw [htasks, worker_setTask]
  split_ifs with hqj
  · rw [hg, hqj.1, hqj.2]
  · rfl

/-- A goroutine receives a worker. -/
theorem take (hl : Located J job d t s place)
    (h : runs (Master.step J job) (Master.start d) t = some s)
    {phase : Phase} {i : ℕ} {arg : DoTaskArgs} (hg : s.tasks phase i = .receiving)
    (hw : w ∈ s.registerChannel) :
    Located J job d (t ++ [.take phase i w])
      { s.setTask phase i (.calling w arg false) with
        registerChannel := s.registerChannel.erase w }
      (Function.update place w (some (.held phase i))) := by
  have hpend : s.At J job d t w .pending := hw
  refine hl.move w (.held phase i) (hl.nodup.erase w) (fun v => ?_) (fun q => ?_) fun v hv q => ?_
  · refine ⟨.inr, ?_⟩
    rintro (rfl | hv)
    · exact hl.registered_of_at hpend
    · exact hv
  · cases q with
    | pending =>
      exact iff_of_false hl.nodup.not_mem_erase (by simp)
    | held q j =>
      refine Iff.trans (by exact Eq.congr_left (worker_setTask ..)) ?_
      split_ifs with hqj
      · exact iff_of_true rfl (by rw [hqj.1, hqj.2])
      · refine iff_of_false (fun hheld => ?_) fun heq => hqj (by cases heq; exact ⟨rfl, rfl⟩)
        cases hl.unique hpend (q := .held q j) hheld
    | discarded =>
      refine iff_of_false (fun hdis => ?_) (by simp)
      cases hl.unique hpend (q := .discarded) ((discarded_concat_of_ne h (by simp)).mp hdis)
  · cases q with
    | pending => exact List.mem_erase_of_ne hv
    | held q j =>
      refine Iff.trans (by exact Eq.congr_left (worker_setTask ..)) ?_
      split_ifs with hqj
      · obtain ⟨rfl, rfl⟩ := hqj
        simp [At, hg, hv.symm]
      · rfl
    | discarded => exact discarded_concat_of_ne h (by simp)

/-- A goroutine gives up its worker, which comes to the place `p`. -/
theorem release (hl : Located J job d t s place) {phase : Phase} {i : ℕ} {g : Goroutine}
    (hw : (s.tasks phase i).worker = some w) (hg : g.worker = none) {p : Place}
    (hp : ∀ q j, p ≠ .held q j) (htasks : s'.tasks = (s.setTask phase i g).tasks)
    (hws : s'.workers = s.workers) (hnd : s'.registerChannel.Nodup)
    (hpend : ∀ v, v ∈ s'.registerChannel ↔ (v = w ∧ p = .pending) ∨ v ∈ s.registerChannel)
    (hdis : ∀ v, Discarded J job d (t ++ [e]) v ↔
      (v = w ∧ p = .discarded) ∨ Discarded J job d t v) :
    Located J job d (t ++ [e]) s' (Function.update place w (some p)) := by
  have hheld : s.At J job d t w (.held phase i) := hw
  refine hl.move w p hnd (fun v => ?_) (fun q => ?_) fun v hv q => ?_
  · rw [hws]
    refine ⟨.inr, ?_⟩
    rintro (rfl | hv)
    · exact hl.registered_of_at hheld
    · exact hv
  · cases q with
    | pending =>
      have hnot : w ∉ s.registerChannel := fun hmem => by
        cases hl.unique hheld (q := .pending) hmem
      simp [At, hpend, hnot, eq_comm]
    | held q j =>
      refine iff_of_false (fun hheld' => ?_) (hp q j).symm
      simp only [At, htasks, worker_setTask] at hheld'
      split_ifs at hheld' with hqj
      · rw [hg] at hheld'
        cases hheld'
      · cases hl.unique hheld (q := .held q j) hheld'
        exact hqj ⟨rfl, rfl⟩
    | discarded =>
      have hnot : ¬ Discarded J job d t w := fun hdis => by
        cases hl.unique hheld (q := .discarded) hdis
      simp [At, hdis, hnot, eq_comm]
  · cases q with
    | pending => simp [At, hpend, hv]
    | held q j =>
      simp only [At, htasks, worker_setTask]
      split_ifs with hqj
      · obtain ⟨rfl, rfl⟩ := hqj
        rw [hg, hw, Option.some.injEq]
        exact iff_of_false (by simp) hv.symm
      · rfl
    | discarded => simp [At, hdis, hv]

theorem step (hl : Located J job d t s place)
    (h : runs (Master.step J job) (Master.start d) t = some s)
    (hstep : s.step J job e = some s') (hreg : s'.workers.Nodup) :
    ∃ place', Located J job d (t ++ [e]) s' place' := by
  obtain ⟨hm, hcr⟩ := step_moves hstep
  cases hm with
  | register w =>
    have hnew : w ∉ s.workers := by
      have := List.nodup_append.mp hreg
      exact fun hw => this.2.2 w hw w List.mem_cons_self rfl
    have hnot : ∀ q, ¬ s.At J job d t w q := fun q hq => hnew (hl.registered_of_at hq)
    refine ⟨_, hl.move w .pending (List.nodup_cons.mpr ⟨hnot .pending, hl.nodup⟩)
      (fun v => by simp [or_comm]) (fun q => ?_) fun v hv q => ?_⟩
    · cases q with
      | pending => simp [At]
      | held phase i => simpa [At] using hnot (.held phase i)
      | discarded =>
        have := hnot .discarded
        simpa [At, discarded_concat_of_ne h] using this
    · cases q with
      | pending => simp [At, hv]
      | held phase i => exact Iff.rfl
      | discarded => exact discarded_concat_of_ne h (by simp)
  | spawn phase i hmain hi =>
    have habsent : s.tasks phase i = .absent := by
      have := ((runs_tracked h).started hcr phase i).not
      simpa [hmain, Main.limit] using this
    exact ⟨place, hl.keep h (by simp) (g := .spawned) (by rw [habsent]; rfl) rfl rfl rfl⟩
  | add phase i hg =>
    exact ⟨place, hl.keep h (by simp) (g := .receiving) (by rw [hg]; rfl) rfl rfl rfl⟩
  | outOfRange => exact ⟨place, hl.quiet h (by simp) rfl rfl fun _ _ => rfl⟩
  | take phase i w arg hg hw => exact ⟨_, hl.take h hg hw⟩
  | perform phase i ord w arg d' hg =>
    exact ⟨place, hl.keep h (by simp) (g := .calling w arg true) (by rw [hg]; rfl) rfl rfl rfl⟩
  | performLate => exact ⟨place, hl.quiet h (by simp) rfl rfl fun _ _ => rfl⟩
  | succeed phase i w arg hg =>
    have hheld : s.At J job d t w (.held phase i) := by simp [At, hg]
    refine ⟨_, hl.release (p := .pending) (g := .finishing) hheld rfl (by simp) rfl rfl
      (List.nodup_cons.mpr ⟨fun hmem => ?_, hl.nodup⟩) (fun v => by simp [succeed]) fun v => ?_⟩
    · cases hl.unique hheld (q := .pending) hmem
    · simp [discarded_concat_of_ne h]
  | fail phase i w arg performed hg =>
    have hheld : s.At J job d t w (.held phase i) := by simp [At, hg]
    refine ⟨_, hl.release (p := .discarded) (g := .receiving) hheld rfl (by simp) rfl rfl hl.nodup
      (fun v => by simp [fail, setTask]) fun v => ?_⟩
    rw [discarded_concat h, or_comm]
    simp [hg, eq_comm]
  | done phase i hg =>
    exact ⟨place, hl.keep h (by simp) (g := .exited) (by rw [hg]; rfl) rfl rfl rfl⟩
  | block | pass | misuse | finish | mergeFails | merge =>
    exact ⟨place, hl.quiet h (by simp) rfl rfl fun _ _ => rfl⟩

end Located

theorem exists_located (h : runs (step J job) (start d) t = some s) (hreg : s.workers.Nodup) :
    ∃ place, Located J job d t s place := by
  refine runs_induction (P := fun t s => s.workers.Nodup → ∃ place, Located J job d t s place)
    (fun _ => ⟨_, .start J job d⟩) (fun t s₁ e s₂ hrun hP hstep hreg => ?_) h hreg
  obtain ⟨place, hl⟩ := hP (hreg.sublist (workers_sublist hstep))
  exact hl.step hrun hstep hreg

/-- Where every worker registers once, each is in one place at a time: one send on
`registerChannel`, one goroutine of a task, or discarded after a call that returned false. So no
worker has two tasks at once, and none is lost while its calls return true. -/
theorem tokens_conserved (J : Codec) (job : Job) {d : Dir} {t : List Event} {s : Master}
    (h : runs (step J job) (start d) t = some s) (hreg : s.workers.Nodup) {w : Str}
    (hw : w ∈ s.workers) :
    (∃! p, s.At J job d t w p) ∧ s.registerChannel.count w ≤ 1 ∧
      (∀ phase i phase' i', (s.tasks phase i).worker = some w →
        (s.tasks phase' i').worker = some w → phase = phase' ∧ i = i') ∧
      (¬ Discarded J job d t w →
        s.registerChannel.count w = 1 ∨ ∃ phase i, (s.tasks phase i).worker = some w) := by
  obtain ⟨place, hl⟩ := exists_located h hreg
  obtain ⟨p, hp⟩ := Option.ne_none_iff_exists'.mp ((hl.registered w).mp hw)
  have hat := (hl.at_iff w p).mpr hp
  refine ⟨⟨p, hat, fun q hq => hl.unique hq hat⟩, List.nodup_iff_count_le_one.mp hl.nodup w,
    fun phase i phase' i' h₁ h₂ => ?_, fun hno => ?_⟩
  · cases hl.unique (p := .held phase i) (q := .held phase' i') h₁ h₂
    exact ⟨rfl, rfl⟩
  · cases p with
    | pending => exact .inl (List.count_eq_one_of_mem hl.nodup hat)
    | held phase i => exact .inr ⟨phase, i, hat⟩
    | discarded => exact absurd hat hno

/-- The worker has just been given the reduce task. -/
theorem orderly_token :
    ∃ s, runs (step printable single) (start shelf) (orderly.take 13) = some s ∧
      ∃! p, s.At printable single shelf (orderly.take 13) (ascii "w") p := by
  have h : (runs (step printable single) (start shelf) (orderly.take 13)).map
      (fun s => s.workers) = some [ascii "w"] := by decide +kernel
  obtain ⟨s, hs, hws⟩ := Option.map_eq_some_iff.mp h
  exact ⟨s, hs, (tokens_conserved printable single hs (by rw [hws]; exact List.nodup_singleton _)
    (by rw [hws]; exact List.mem_singleton_self _)).1⟩

end Master

end DistSystem.MapReduce
