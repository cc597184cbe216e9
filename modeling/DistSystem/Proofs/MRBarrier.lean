import DistSystem.MapReduce.Master
import DistSystem.Proofs.MRRepeat
import Mathlib.Tactic.IntervalCases

/-!
# The barrier between the phases

`wg.Add(1)` is the first thing the goroutine of a task does, so `wg.Wait()` may find the counter at
zero before a task has been counted. The counter is the number of goroutines between their `Add` and
their `Done` (`Tracked.counter`); if all goroutines of the phase have added themselves, it is zero
only when every task has had a call that returned true.
-/

namespace DistSystem.MapReduce

open Interleaving

/-! ## Goroutines -/

namespace Goroutine

/-- After `wg.Add(1)`. -/
@[simp] def added : Goroutine → Bool
  | absent => false
  | spawned => false
  | _ => true

/-- After a call that returned true. -/
@[simp] def replied : Goroutine → Bool
  | finishing => true
  | exited => true
  | _ => false

/-- Between `wg.Add(1)` and `wg.Done()`. -/
@[simp] def counted : Goroutine → Bool
  | receiving => true
  | calling _ _ _ => true
  | finishing => true
  | _ => false

theorem replied_of_added {g : Goroutine} (hadd : g.added = true) (hcount : g.counted = false) :
    g.replied = true := by
  cases g <;> simp_all

theorem added_of_replied {g : Goroutine} (h : g.replied = true) : g.added = true := by
  cases g <;> simp_all

end Goroutine

namespace Master

variable {J : Codec} {job : Job} {s s' : Master} {e : Event} {t : List Event} {d : Dir}

@[simp] theorem setTask_tasks (phase : Phase) (i : ℕ) (g : Goroutine) :
    (s.setTask phase i g).tasks =
      Function.update s.tasks phase (Function.update (s.tasks phase) i g) := rfl

/-! ## One step -/

/-- Everything that a step can do. -/
inductive Moves (J : Codec) (job : Job) (s : Master) : Event → Master → Prop
  | register (w) : s.serving → Moves J job s (.register w)
      { s with workers := s.workers ++ [w], registerChannel := w :: s.registerChannel }
  | spawn (phase i) : s.main = .spawning phase i → i < job.ntasks phase →
      Moves J job s (.spawn phase i)
        { s.setTask phase i .spawned with main := .spawning phase (i + 1) }
  | add (phase i) : s.tasks phase i = .spawned → Moves J job s (.add phase i)
      ((s.setTask phase i .receiving).setWg phase (s.wg phase + 1))
  | outOfRange (phase i w c) : s.tasks phase i = .receiving → w ∈ s.registerChannel →
      job.taskArgs phase i = .error c → Moves J job s (.take phase i w) (s.crash c)
  | take (phase i w arg) : s.tasks phase i = .receiving → w ∈ s.registerChannel →
      job.taskArgs phase i = .ok arg → Moves J job s (.take phase i w)
        { s.setTask phase i (.calling w arg false) with
          registerChannel := s.registerChannel.erase w }
  | perform (phase i ord w arg) (d' : Dir) : s.tasks phase i = .calling w arg false →
      job.doTask J ord arg s.dir = .ok d' → Moves J job s (.perform phase i ord)
        { s.setTask phase i (.calling w arg true) with dir := d' }
  | performLate (arg ord) (d' : Dir) : arg ∈ s.abandoned → job.doTask J ord arg s.dir = .ok d' →
      Moves J job s (.performLate arg ord)
        { s with abandoned := s.abandoned.erase arg, dir := d' }
  | succeed (phase i w arg) : s.tasks phase i = .calling w arg true →
      Moves J job s (.reply phase i true) (s.succeed phase i w)
  | fail (phase i w arg performed) : s.tasks phase i = .calling w arg performed →
      Moves J job s (.reply phase i false) (s.fail phase i arg performed)
  | done (phase i) : s.tasks phase i = .finishing →
      Moves J job s (.done phase i) (s.wgDone phase i)
  | block (phase) : s.atWait job phase → 0 < s.wg phase →
      Moves J job s (.block phase) { s with main := .blocked phase }
  | pass (phase) : s.atWait job phase ∨ s.main = .woken phase → s.wg phase = 0 →
      Moves J job s (.pass phase) { s with main := afterSchedule phase }
  | misuse (phase) : s.main = .woken phase → 0 < s.wg phase → Moves J job s (.misuse phase)
      (s.crash (.panic "sync: WaitGroup is reused before previous Wait has returned"))
  | finish : s.main = .finishing → Moves J job s .finish { s with main := .merging }
  | mergeFails (c) : s.main = .merging → job.merge J s.dir = .error c →
      Moves J job s .merge (s.crash c)
  | merge (d' : Dir) : s.main = .merging → job.merge J s.dir = .ok d' →
      Moves J job s .merge { s with main := .done, dir := d' }

theorem next_moves (h : s.next J job e = some s') : Moves J job s e s' := by
  cases e with
  | register w =>
    simp only [next, Option.ite_none_right_eq_some, Option.some.injEq] at h
    obtain ⟨hs, rfl⟩ := h
    exact .register w hs
  | spawn phase i =>
    simp only [next, Option.ite_none_right_eq_some, Option.some.injEq] at h
    obtain ⟨⟨hmain, hi⟩, rfl⟩ := h
    exact .spawn phase i hmain hi
  | add phase i =>
    simp only [next, Option.ite_none_right_eq_some, Option.some.injEq] at h
    obtain ⟨hg, rfl⟩ := h
    exact .add phase i hg
  | take phase i w =>
    simp only [next, Option.ite_none_right_eq_some] at h
    obtain ⟨⟨hg, hw⟩, h⟩ := h
    cases ha : job.taskArgs phase i with
    | error c =>
      simp only [ha, Option.some.injEq] at h
      exact h ▸ .outOfRange phase i w c hg hw ha
    | ok arg =>
      simp only [ha, Option.some.injEq] at h
      exact h ▸ .take phase i w arg hg hw ha
  | perform phase i ord =>
    simp only [next] at h
    split at h
    · rename_i w arg hg
      cases hd : job.doTask J ord arg s.dir with
      | error c => simp [hd] at h
      | ok d' =>
        simp only [hd, Option.some.injEq] at h
        exact h ▸ .perform phase i ord w arg d' hg hd
    · cases h
  | performLate arg ord =>
    simp only [next, Option.ite_none_right_eq_some] at h
    obtain ⟨harg, h⟩ := h
    cases hd : job.doTask J ord arg s.dir with
    | error c => simp [hd] at h
    | ok d' =>
      simp only [hd, Option.some.injEq] at h
      exact h ▸ .performLate arg ord d' harg hd
  | reply phase i ok =>
    simp only [next] at h
    split at h
    · rename_i w arg performed hg
      cases ok with
      | true =>
        simp only [if_true, Option.ite_none_right_eq_some, Option.some.injEq] at h
        obtain ⟨rfl, rfl⟩ := h
        exact .succeed phase i w arg hg
      | false =>
        simp only [Bool.false_eq_true, if_false, Option.some.injEq] at h
        exact h ▸ .fail phase i w arg performed hg
    · cases h
  | done phase i =>
    simp only [next, Option.ite_none_right_eq_some, Option.some.injEq] at h
    obtain ⟨hg, rfl⟩ := h
    exact .done phase i hg
  | block phase =>
    simp only [next, Option.ite_none_right_eq_some, Option.some.injEq] at h
    obtain ⟨⟨hmain, hwg⟩, rfl⟩ := h
    exact .block phase hmain hwg
  | pass phase =>
    simp only [next, Option.ite_none_right_eq_some, Option.some.injEq] at h
    obtain ⟨⟨hmain, hwg⟩, rfl⟩ := h
    exact .pass phase hmain hwg
  | misuse phase =>
    simp only [next, Option.ite_none_right_eq_some, Option.some.injEq] at h
    obtain ⟨⟨hmain, hwg⟩, rfl⟩ := h
    exact .misuse phase hmain hwg
  | finish =>
    simp only [next, Option.ite_none_right_eq_some, Option.some.injEq] at h
    obtain ⟨hmain, rfl⟩ := h
    exact .finish hmain
  | merge =>
    simp only [next, Option.ite_none_right_eq_some] at h
    obtain ⟨hmain, h⟩ := h
    cases hd : job.merge J s.dir with
    | error c =>
      simp only [hd, Option.some.injEq] at h
      exact h ▸ .mergeFails c hmain hd
    | ok d' =>
      simp only [hd, Option.some.injEq] at h
      exact h ▸ .merge d' hmain hd

theorem step_moves (h : s.step J job e = some s') :
    Moves J job s e s' ∧ ∀ c, s.main ≠ .crashed c := by
  unfold step at h
  split at h
  · cases h
  · exact ⟨next_moves h, by simpa using ‹_›⟩

end Master

/-! ## What the labels say about the state -/

namespace Main

/-- How many tasks of a phase have been started. -/
def limit (job : Job) : Main → Phase → ℕ
  | spawning phase i, q => if q = phase then i else if q = .map then job.ntasks q else 0
  | blocked phase, q => if q = phase ∨ q = .map then job.ntasks q else 0
  | woken phase, q => if q = phase ∨ q = .map then job.ntasks q else 0
  | _, q => job.ntasks q

/-- `schedule` has returned from a phase. -/
def past : Main → Phase → Prop
  | spawning phase _, q => q = .map ∧ phase = .reduce
  | blocked phase, q => q = .map ∧ phase = .reduce
  | woken phase, q => q = .map ∧ phase = .reduce
  | crashed _, _ => False
  | _, _ => True

end Main

namespace Master

variable {J : Codec} {job : Job} {s s' : Master} {e : Event} {t : List Event} {d : Dir}

/-- The labels so far have taken the system to this state. -/
structure Tracked (job : Job) (t : List Event) (s : Master) : Prop where
  added : ∀ phase i, (s.tasks phase i).added = true ↔ .add phase i ∈ t
  replied : ∀ phase i, (s.tasks phase i).replied = true ↔ .reply phase i true ∈ t
  counter : ∀ phase, s.wg phase = tally (fun g => Goroutine.counted g = true) (job.ntasks phase)
    (s.tasks phase)
  started : (∀ c, s.main ≠ .crashed c) →
    ∀ phase i, s.tasks phase i ≠ .absent ↔ i < s.main.limit job phase
  inRange : ∀ phase i, s.tasks phase i ≠ .absent → i < job.ntasks phase
  passed : ∀ phase, s.main.past phase → .pass phase ∈ t

theorem tracked_start (job : Job) (d : Dir) : Tracked job [] (start d) where
  added _ _ := by simp [start]
  replied _ _ := by simp [start]
  counter phase := by
    refine (tally_eq_zero.mpr fun i _ => ?_).symm
    simp [start]
  started _ phase i := by
    cases phase <;> simp [start, Main.limit]
  inRange _ _ h := absurd rfl h
  passed phase h := by simp [start, Main.past] at h

/-- A step that moves no goroutine of a task. -/
theorem Tracked.quiet (h : Tracked job t s) (htasks : s'.tasks = s.tasks) (hwg : s'.wg = s.wg)
    (he : ∀ phase i, e ≠ .add phase i ∧ e ≠ .reply phase i true)
    (hlimit : (∀ c, s'.main ≠ .crashed c) → ∀ phase, s'.main.limit job phase =
      s.main.limit job phase)
    (hcr : ∀ c, s.main ≠ .crashed c)
    (hpast : ∀ phase, s'.main.past phase → s.main.past phase ∨ e = .pass phase) :
    Tracked job (t ++ [e]) s' where
  added phase i := by
    rw [htasks, h.added]
    simp [(he phase i).1.symm]
  replied phase i := by
    rw [htasks, h.replied]
    simp [(he phase i).2.symm]
  counter phase := by rw [hwg, htasks, h.counter]
  started hcr' phase i := by rw [htasks, hlimit hcr', h.started hcr]
  inRange phase i := by
    rw [htasks]
    exact h.inRange phase i
  passed phase hp := by
    rcases hpast phase hp with hp | rfl
    · exact List.mem_append_left _ (h.passed phase hp)
    · simp

theorem setTask_self (phase : Phase) (i : ℕ) (g : Goroutine) :
    (s.setTask phase i g).tasks phase i = g := by simp

theorem setTask_other {phase q : Phase} {i j : ℕ} (g : Goroutine) (hne : ¬ (q = phase ∧ j = i)) :
    (s.setTask phase i g).tasks q j = s.tasks q j := by
  rw [setTask_tasks]
  by_cases hq : q = phase
  · subst hq
    rw [Function.update_self, Function.update_of_ne fun hj => hne ⟨rfl, hj⟩]
  · rw [Function.update_of_ne hq]

/-- A step of the goroutine of a task. -/
theorem Tracked.move {phase : Phase} {i : ℕ} (g : Goroutine) (h : Tracked job t s)
    (hi : i < job.ntasks phase) (htasks : s'.tasks = (s.setTask phase i g).tasks)
    (hadd : g.added = true ↔ (s.tasks phase i).added = true ∨ e = .add phase i)
    (hrep : g.replied = true ↔ (s.tasks phase i).replied = true ∨ e = .reply phase i true)
    (he : ∀ q j, e = .add q j ∨ e = .reply q j true → q = phase ∧ j = i)
    (hwg : s'.wg phase + (if (s.tasks phase i).counted = true then 1 else 0) =
      s.wg phase + if g.counted = true then 1 else 0)
    (hwg' : ∀ q, q ≠ phase → s'.wg q = s.wg q)
    (hstarted : ∀ q j, s'.tasks q j ≠ .absent ↔ j < s'.main.limit job q)
    (hpast : ∀ q, s'.main.past q → s.main.past q) : Tracked job (t ++ [e]) s' := by
  have hself : s'.tasks phase i = g := by rw [htasks, setTask_self]
  have hother : ∀ q j, ¬ (q = phase ∧ j = i) → s'.tasks q j = s.tasks q j := fun q j hne => by
    rw [htasks, setTask_other g hne]
  refine ⟨fun q j => ?_, fun q j => ?_, fun q => ?_, fun _ => hstarted, fun q j => ?_,
    fun q hp => List.mem_append_left _ (h.passed q (hpast q hp))⟩
  · by_cases hqj : q = phase ∧ j = i
    · obtain ⟨rfl, rfl⟩ := hqj
      rw [hself, hadd, h.added]
      simp [eq_comm]
    · rw [hother q j hqj, h.added]
      have hne : Event.add q j ≠ e := fun heq => hqj (he q j (.inl heq.symm))
      simp [hne]
  · by_cases hqj : q = phase ∧ j = i
    · obtain ⟨rfl, rfl⟩ := hqj
      rw [hself, hrep, h.replied]
      simp [eq_comm]
    · rw [hother q j hqj, h.replied]
      have hne : Event.reply q j true ≠ e := fun heq => hqj (he q j (.inr heq.symm))
      simp [hne]
  · by_cases hq : q = phase
    · subst hq
      have htally := tally_update (p := fun g => Goroutine.counted g = true) (f := s.tasks q)
        (a := g) hi
      have htasks' : s'.tasks q = Function.update (s.tasks q) i g := by rw [htasks]; simp
      rw [htasks']
      have := h.counter q
      omega
    · rw [hwg' q hq, htasks, setTask_tasks, Function.update_of_ne hq, h.counter]
  · by_cases hqj : q = phase ∧ j = i
    · obtain ⟨rfl, rfl⟩ := hqj
      exact fun _ => hi
    · rw [hother q j hqj]
      exact h.inRange q j

/-- A goroutine that was there moves, and the main goroutine stays or is released. -/
theorem Tracked.advance {phase : Phase} {i : ℕ} {g₀ : Goroutine} (g : Goroutine)
    (h : Tracked job t s) (hcr : ∀ c, s.main ≠ .crashed c) (hg : s.tasks phase i = g₀)
    (hg₀ : g₀ ≠ .absent) (hg' : g ≠ .absent) (htasks : s'.tasks = (s.setTask phase i g).tasks)
    (hadd : g.added = true ↔ g₀.added = true ∨ e = .add phase i)
    (hrep : g.replied = true ↔ g₀.replied = true ∨ e = .reply phase i true)
    (he : ∀ q j, e = .add q j ∨ e = .reply q j true → q = phase ∧ j = i)
    (hwg : s'.wg phase + (if g₀.counted = true then 1 else 0) =
      s.wg phase + if g.counted = true then 1 else 0)
    (hwg' : ∀ q, q ≠ phase → s'.wg q = s.wg q)
    (hlimit : s'.main.limit job = s.main.limit job)
    (hpast : ∀ q, s'.main.past q → s.main.past q) : Tracked job (t ++ [e]) s' := by
  subst hg
  refine h.move g (h.inRange _ _ hg₀) htasks hadd hrep he hwg hwg' (fun q j => ?_) hpast
  rw [hlimit, ← h.started hcr, htasks]
  by_cases hqj : q = phase ∧ j = i
  · obtain ⟨rfl, rfl⟩ := hqj
    rw [setTask_self]
    exact ⟨fun _ => hg₀, fun _ => hg'⟩
  · rw [setTask_other g hqj]

theorem Tracked.started_of_spawn {phase : Phase} {i : ℕ} (h : Tracked job t s)
    (hmain : s.main = .spawning phase i) (q : Phase) (j : ℕ) :
    (s.setTask phase i .spawned).tasks q j ≠ .absent ↔
      j < (Main.spawning phase (i + 1)).limit job q := by
  by_cases hqj : q = phase ∧ j = i
  · obtain ⟨rfl, rfl⟩ := hqj
    rw [setTask_self]
    simp [Main.limit]
  · rw [setTask_other _ hqj, h.started (by simp [hmain]), hmain]
    by_cases hq : q = phase
    · subst hq
      have : j ≠ i := fun hj => hqj ⟨rfl, hj⟩
      simp only [Main.limit, if_true]
      omega
    · simp only [Main.limit, if_neg hq]

theorem wgDone_main (phase : Phase) (i : ℕ) :
    (s.wgDone phase i).main = s.main ∨
      (s.main = .blocked phase ∧ (s.wgDone phase i).main = .woken phase) := by
  unfold wgDone
  by_cases h : s.wg phase - 1 = 0 ∧ s.main = .blocked phase
  · exact .inr ⟨h.2, if_pos h⟩
  · exact .inl (if_neg h)

theorem Tracked.step (h : Tracked job t s) (hstep : s.step J job e = some s') :
    Tracked job (t ++ [e]) s' := by
  obtain ⟨hm, hcr⟩ := step_moves hstep
  cases hm with
  | register w => exact h.quiet rfl rfl (by simp) (fun _ _ => rfl) hcr fun _ hp => .inl hp
  | spawn phase i hmain hi =>
    have habsent : s.tasks phase i = .absent := by
      have := (h.started hcr phase i).not
      simpa [hmain, Main.limit] using this
    refine h.move .spawned hi rfl ?_ ?_ ?_ ?_ (fun _ _ => rfl) (h.started_of_spawn hmain)
      fun q hq => ?_
    · simp [habsent]
    · simp [habsent]
    · simp
    · simp [habsent, setTask]
    · rw [hmain]
      exact hq
  | add phase i hg =>
    refine h.advance .receiving hcr hg (by simp) (by simp) rfl (by simp) (by simp)
      (by simp [eq_comm]) (by simp [setWg]) (fun q hq => ?_) rfl fun _ => id
    simp [setWg, setTask, hq]
  | outOfRange phase i w c =>
    exact h.quiet rfl rfl (by simp) (by simp [crash]) hcr (by simp [crash, Main.past])
  | take phase i w arg hg =>
    exact h.advance (.calling w arg false) hcr hg (by simp) (by simp) rfl (by simp) (by simp)
      (by simp) rfl (fun _ _ => rfl) rfl fun _ => id
  | perform phase i ord w arg d' hg =>
    exact h.advance (.calling w arg true) hcr hg (by simp) (by simp) rfl (by simp) (by simp)
      (by simp) rfl (fun _ _ => rfl) rfl fun _ => id
  | performLate => exact h.quiet rfl rfl (by simp) (fun _ _ => rfl) hcr fun _ hp => .inl hp
  | succeed phase i w arg hg =>
    exact h.advance .finishing hcr hg (by simp) (by simp) rfl (by simp) (by simp)
      (by simp [eq_comm]) rfl (fun _ _ => rfl) rfl fun _ => id
  | fail phase i w arg performed hg =>
    exact h.advance .receiving hcr hg (by simp) (by simp) rfl (by simp) (by simp) (by simp) rfl
      (fun _ _ => rfl) rfl fun _ => id
  | done phase i hg =>
    have hpos : 0 < s.wg phase := by
      rw [h.counter]
      refine Nat.pos_of_ne_zero fun h0 => ?_
      have := tally_eq_zero.mp h0 i (h.inRange phase i (by simp [hg]))
      simp [hg] at this
    refine h.advance .exited hcr hg (by simp) (by simp) rfl (by simp) (by simp) (by simp) ?_
      (fun q hq => ?_) ?_ fun q hp => ?_
    · simp [wgDone, setWg, Nat.sub_add_cancel hpos]
    · simp [wgDone, setWg, setTask, hq]
    · rcases s.wgDone_main phase i with hmain | ⟨hb, hw⟩
      · rw [hmain]
      · rw [hb, hw]
        rfl
    · rcases s.wgDone_main phase i with hmain | ⟨hb, hw⟩
      · rwa [hmain] at hp
      · rw [hw] at hp
        rw [hb]
        exact hp
  | block phase hmain =>
    refine h.quiet rfl rfl (by simp) (fun _ q => ?_) hcr fun q hp => .inl ?_
    · rw [hmain]
      cases q <;> cases phase <;> rfl
    · rw [hmain]
      exact hp
  | pass phase hmain =>
    refine h.quiet rfl rfl (by simp) (fun _ q => ?_) hcr fun q hp => ?_
    · rcases hmain with hmain | hmain <;> rw [hmain] <;> cases q <;> cases phase <;> rfl
    · cases phase with
      | map =>
        obtain ⟨rfl, -⟩ := hp
        exact .inr rfl
      | reduce =>
        cases q with
        | map =>
          refine .inl ?_
          rcases hmain with hmain | hmain <;> rw [hmain] <;> exact ⟨rfl, rfl⟩
        | reduce => exact .inr rfl
  | misuse => exact h.quiet rfl rfl (by simp) (by simp [crash]) hcr (by simp [crash, Main.past])
  | finish hmain =>
    exact h.quiet rfl rfl (by simp) (fun _ _ => by rw [hmain]; rfl) hcr
      fun _ _ => .inl (by rw [hmain]; trivial)
  | mergeFails => exact h.quiet rfl rfl (by simp) (by simp [crash]) hcr (by simp [crash, Main.past])
  | merge d' hmain =>
    exact h.quiet rfl rfl (by simp) (fun _ _ => by rw [hmain]; rfl) hcr
      fun _ _ => .inl (by rw [hmain]; trivial)

theorem runs_tracked (h : runs (step J job) (start d) t = some s) : Tracked job t s :=
  runs_induction (tracked_start job d) (fun _ _ _ _ _ hP hstep => hP.step hstep) h

/-! ## The barrier -/

/-- Every task of the phase has had a call that returned true. -/
def AllReplied (job : Job) (phase : Phase) (t : List Event) : Prop :=
  ∀ i < job.ntasks phase, .reply phase i true ∈ t

/-- `schedule` returns when its phase is complete; nothing of what comes next is earlier. -/
structure Barrier (job : Job) (t : List Event) : Prop where
  pass : ∀ t₁ phase t₂, t = t₁ ++ .pass phase :: t₂ → AllReplied job phase t₁
  reduce : ∀ t₁ i t₂, t = t₁ ++ .spawn .reduce i :: t₂ → AllReplied job .map t₁
  merge : ∀ t₁ t₂, t = t₁ ++ .merge :: t₂ → ∀ phase, AllReplied job phase t₁

/-- Whenever `wg.Wait()` returns, every goroutine of the phase has called `wg.Add(1)`. -/
def AddedFirst (job : Job) (t : List Event) : Prop :=
  ∀ t₁ phase t₂, t = t₁ ++ .pass phase :: t₂ → ∀ i < job.ntasks phase, .add phase i ∈ t₁

theorem AddedFirst.append {t' : List Event} (h : AddedFirst job t)
    (h' : ∀ t₁ phase t₂, t' = t₁ ++ .pass phase :: t₂ →
      ∀ i < job.ntasks phase, .add phase i ∈ t ++ t₁) : AddedFirst job (t ++ t') := by
  intro t₁ phase t₂ heq
  rcases List.append_eq_append_iff.mp heq with ⟨u, rfl, hu⟩ | ⟨u, rfl, hu⟩
  · exact h' u phase t₂ hu
  · rcases List.cons_eq_append_iff.mp hu with ⟨rfl, rfl⟩ | ⟨u', rfl, -⟩
    · simpa using h' [] phase t₂ rfl
    · exact h t₁ phase u' rfl

theorem addedFirst_nil : AddedFirst job [] := fun t₁ _ t₂ heq => by simp at heq

theorem AddedFirst.append_of_not_pass {t' : List Event} (h : AddedFirst job t)
    (hno : ∀ phase, .pass phase ∉ t') : AddedFirst job (t ++ t') := by
  refine h.append fun t₁ phase t₂ heq => absurd ?_ (hno phase)
  simp [heq]

theorem AddedFirst.concat_pass {phase : Phase} (h : AddedFirst job t)
    (hadd : ∀ i < job.ntasks phase, .add phase i ∈ t) : AddedFirst job (t ++ [.pass phase]) := by
  refine h.append fun t₁ q t₂ heq i hi => ?_
  rcases List.cons_eq_append_iff.mp heq with ⟨rfl, hq⟩ | ⟨u, rfl, hu⟩
  · cases hq
    simpa using hadd i hi
  · simp at hu

theorem Tracked.allReplied (h : Tracked job t s) {phase : Phase} (hwg : s.wg phase = 0)
    (hadd : ∀ i < job.ntasks phase, .add phase i ∈ t) : AllReplied job phase t := by
  intro i hi
  have hcount := tally_eq_zero.mp ((h.counter phase).symm.trans hwg) i hi
  rw [← h.replied]
  exact Goroutine.replied_of_added ((h.added phase i).mpr (hadd i hi))
    (Bool.eq_false_of_not_eq_true hcount)

theorem AllReplied.mono {phase : Phase} {t' : List Event} (h : AllReplied job phase t)
    (hsub : t ⊆ t') : AllReplied job phase t' := fun i hi => hsub (h i hi)

/-- Once `schedule` has returned from a phase, that phase is complete. -/
theorem allReplied_of_pass {t' : List Event} {phase : Phase}
    (hpass : ∀ t₁ phase t₂, t ++ t' = t₁ ++ .pass phase :: t₂ → AllReplied job phase t₁)
    (h : .pass phase ∈ t) : AllReplied job phase t := by
  obtain ⟨t₁, t₂, rfl⟩ := List.append_of_mem h
  exact (hpass t₁ phase (t₂ ++ t') (by simp)).mono (List.subset_append_left _ _)

theorem AddedFirst.barrier (hadd : AddedFirst job t)
    (h : runs (step J job) (start d) t = some s) : Barrier job t := by
  have hpass : ∀ t₁ phase t₂, t = t₁ ++ .pass phase :: t₂ → AllReplied job phase t₁ := by
    rintro t₁ phase t₂ rfl
    obtain ⟨s₁, s₂, h₁, hstep, -⟩ := runs_split h
    cases (step_moves hstep).1 with
    | pass _ _ hwg => exact (runs_tracked h₁).allReplied hwg (hadd t₁ phase t₂ rfl)
  refine ⟨hpass, ?_, ?_⟩
  · rintro t₁ i t₂ rfl
    obtain ⟨s₁, s₂, h₁, hstep, -⟩ := runs_split h
    cases (step_moves hstep).1 with
    | spawn _ _ hmain =>
      refine allReplied_of_pass hpass ((runs_tracked h₁).passed .map ?_)
      rw [hmain]
      exact ⟨rfl, rfl⟩
  · rintro t₁ t₂ rfl phase
    obtain ⟨s₁, s₂, h₁, hstep, -⟩ := runs_split h
    have hmain : s₁.main = .merging := by
      cases (step_moves hstep).1 with
      | mergeFails _ hmain => exact hmain
      | merge _ hmain => exact hmain
    refine allReplied_of_pass hpass ((runs_tracked h₁).passed phase ?_)
    rw [hmain]
    trivial

/-- The phases of a run are separated if and only if every goroutine is counted in time. -/
theorem barrier_iff (J : Codec) (job : Job) {d : Dir} {t : List Event} {s : Master}
    (h : runs (step J job) (start d) t = some s) : Barrier job t ↔ AddedFirst job t := by
  refine ⟨?_, fun hadd => hadd.barrier h⟩
  rintro hb t₁ phase t₂ rfl i hi
  obtain ⟨s₁, s₂, h₁, -, -⟩ := runs_split h
  have htr := runs_tracked h₁
  rw [← htr.added]
  exact Goroutine.added_of_replied ((htr.replied phase i).mpr (hb.pass t₁ phase t₂ rfl i hi))

/-- No goroutine of a task runs until `merge` has failed. -/
def hasty : List Event :=
  [.spawn .map 0, .spawn .map 1, .pass .map, .spawn .reduce 0, .pass .reduce, .finish, .merge]

theorem hasty_crash :
    (runs (step printable letters) (start shelf) hasty).map main =
        some (.crashed (.fatal "Merge: " (mergeName (ascii "letters") 0))) ∧
      ¬ Barrier letters hasty := by
  refine ⟨by decide +kernel, fun hb => ?_⟩
  have h := hb.pass [.spawn .map 0, .spawn .map 1] .map _ rfl 0 (by decide)
  simp at h

def single : Job := letterCount [ascii "a.txt"] 1

/-- One worker does both tasks. -/
def orderly : List Event :=
  [.register (ascii "w"), .spawn .map 0, .add .map 0, .block .map, .take .map 0 (ascii "w"),
    .perform .map 0 .stored, .reply .map 0 true, .done .map 0, .pass .map, .spawn .reduce 0,
    .add .reduce 0, .block .reduce, .take .reduce 0 (ascii "w"), .perform .reduce 0 .stored,
    .reply .reduce 0 true, .done .reduce 0, .pass .reduce, .finish, .merge]

theorem orderly_runs : ∃ s, runs (step printable single) (start shelf) orderly = some s ∧
    s.main = .done ∧ single.output s.dir = some (ascii "a: 3\nb: 1\nn: 2\n") := by
  have h : (runs (step printable single) (start shelf) orderly).map
      (fun s => (s.main, single.output s.dir)) =
        some (.done, some (ascii "a: 3\nb: 1\nn: 2\n")) := by decide +kernel
  obtain ⟨s, hs, heq⟩ := Option.map_eq_some_iff.mp h
  exact ⟨s, hs, congrArg Prod.fst heq, congrArg Prod.snd heq⟩

theorem addedFirst_of_take (h : ∀ n < t.length, ∀ phase, t[n]? = some (.pass phase) →
    ∀ i < job.ntasks phase, .add phase i ∈ t.take n) : AddedFirst job t := by
  rintro t₁ phase t₂ rfl
  have := h t₁.length (by simp) phase (by simp)
  simpa using this

theorem orderly_addedFirst : AddedFirst single orderly := by
  refine addedFirst_of_take fun n hn phase hget i hi => ?_
  obtain rfl : i = 0 := by
    cases phase <;> exact Nat.lt_one_iff.mp hi
  change n < 19 at hn
  interval_cases n <;> simp [orderly] at hget
  all_goals
    subst hget
    simp [orderly]

theorem orderly_barrier : Barrier single orderly := by
  obtain ⟨s, hs, -⟩ := orderly_runs
  exact (barrier_iff printable single hs).mpr orderly_addedFirst

end Master

end DistSystem.MapReduce
