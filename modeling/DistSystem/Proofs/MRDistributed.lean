import DistSystem.Proofs.MRCalls

/-!
# Distributed and sequential runs

If the phases of a distributed run are separated, each reduce task comes after every map task, and
the output is that of the sequential run. But the arguments of a call hold `mr.files[i]` in the
reduce phase too, where `i` is the number of a reduce task: with more reduce tasks than files the
master panics.
-/

namespace DistSystem.MapReduce

open Interleaving

namespace Job

variable {J : Codec} {job : Job} {d : Dir} {phase : Phase} {i : ℕ}

/-- What a worker does that is given task `i`. -/
def assigned (J : Codec) (job : Job) (ord : ℕ → RangeOrder) (phase : Phase) (i : ℕ) (d : Dir) :
    Except Crash Dir := do
  let arg ← job.taskArgs phase i
  job.doTask J (ord i) arg d

theorem assigned_eq_exec (ord : ℕ → RangeOrder) {a : Task job} (hi : i < job.files.length)
    (ha : job.taskOf phase i = some a) :
    job.assigned J ord phase i d = job.exec J (a, ord i) d := by
  have hargs : job.taskArgs phase i =
      .ok ⟨job.jobName, job.files[i], phase, i, job.nios phase⟩ := by
    simp [taskArgs, hi]
  rw [assigned, hargs]
  exact doTask_eq_exec hargs ha _

/-- With a file for each reduce task, workers that are given the tasks in turn do what the
sequential run does. -/
theorem inTurn_eq_assigned (hle : job.nReduce ≤ job.files.length) (ord : ℕ → RangeOrder) :
    job.inTurn J ord phase d =
      (List.range (job.ntasks phase)).foldlM (fun d i => job.assigned J ord phase i d) d := by
  cases phase with
  | map =>
    rw [inTurn_map, execAll, List.foldlM_map, ntasks, ← List.map_coe_finRange_eq_range,
      List.foldlM_map]
    congr 1
    funext d m
    refine (assigned_eq_exec ord m.2 ?_).symm
    exact dif_pos m.2
  | reduce =>
    rw [inTurn_reduce, execAll, List.foldlM_map, ntasks, ← List.map_coe_finRange_eq_range,
      List.foldlM_map]
    congr 1
    funext d r
    refine (assigned_eq_exec ord (lt_of_lt_of_le r.2 hle) ?_).symm
    exact dif_pos r.2

end Job

namespace Master

variable {J : Codec} {job : Job} {s s' : Master} {e : Event} {t : List Event} {d : Dir}
  {phase : Phase} {i : ℕ}

/-! ## The output -/

theorem executed_of_allReplied (h : runs (step J job) (start d) t = some s)
    (hrep : AllReplied job phase t) {a : Task job} (hi : i < job.ntasks phase)
    (ha : job.taskOf phase i = some a) : ∃ ord, (a, ord) ∈ job.executions t := by
  refine (runs_called h).performed ?_ ha
  have := ((runs_tracked h).replied phase i).mpr (hrep i hi)
  revert this
  cases s.tasks phase i <;> simp

theorem Barrier.of_append {t' : List Event} (h : Barrier job (t ++ t')) : Barrier job t where
  pass t₁ phase t₂ ht := h.pass t₁ phase (t₂ ++ t') (by simp [ht])
  reduce t₁ i t₂ ht := h.reduce t₁ i (t₂ ++ t') (by simp [ht])
  merge t₁ t₂ ht := h.merge t₁ (t₂ ++ t') (by simp [ht])

/-- A reduce task is carried out after its goroutine was started. -/
theorem spawn_of_execution {t' : List Event} {r : Fin job.nReduce} {ord : RangeOrder}
    (h : runs (step J job) (start d) (t ++ e :: t') = some s)
    (he : job.execution e = some (.reduce r, ord)) : .spawn .reduce r.1 ∈ t := by
  have hreduce : ∀ {phase i}, job.taskOf phase i = some (.reduce r) →
      phase = .reduce ∧ i = r.1 := by
    rintro (_ | _) i ha
    · simp [Job.taskOf] at ha
    · simp only [Job.taskOf, Option.dite_none_right_eq_some, Option.some.injEq,
        Task.reduce.injEq] at ha
      obtain ⟨hi, rfl⟩ := ha
      exact ⟨rfl, rfl⟩
  obtain ⟨s₁, s₂, h₁, hstep, -⟩ := runs_split h
  cases (step_moves hstep).1 with
  | perform phase i ord' w arg d' hg =>
    simp only [Job.execution, Option.map_eq_some_iff, Prod.mk.injEq] at he
    obtain ⟨a, ha, rfl, -⟩ := he
    obtain ⟨rfl, rfl⟩ := hreduce ha
    exact (runs_called h₁).spawned (by simp [hg])
  | performLate arg ord' d' harg =>
    simp only [Job.execution, Option.map_eq_some_iff, Prod.mk.injEq] at he
    obtain ⟨a, ha, rfl, -⟩ := he
    obtain ⟨hp, hn⟩ := hreduce ha
    have := ((runs_called h₁).abandoned arg harg).2.2
    rwa [hp, hn] at this
  | _ => simp [Job.execution] at he

/-- If the phases are separated, the last execution of a reduce task is after all map tasks. -/
theorem settled_of_barrier (h : runs (step J job) (start d) t = some s) (hb : Barrier job t)
    (hrep : AllReplied job .reduce t) (r : Fin job.nReduce) :
    Job.Settled (job.executions t) r := by
  have ha : job.taskOf .reduce r = some (.reduce r) := by simp [Job.taskOf]
  obtain ⟨ord, hord⟩ := executed_of_allReplied h hrep r.2 ha
  obtain ⟨e, he, hexec⟩ := List.mem_filterMap.mp hord
  obtain ⟨t₁, e₁, t₂, rfl, ⟨ord₁, he₁⟩, hlast⟩ := exists_last
    (p := fun e => ∃ ord, job.execution e = some (.reduce r, ord)) ⟨e, he, ord, hexec⟩
  refine ⟨job.executions t₁, job.executions t₂, ord₁, ?_, fun ord' hmem => ?_, fun m => ?_⟩
  · simp [Job.executions, List.filterMap_append, he₁]
  · obtain ⟨e', he', hexec'⟩ := List.mem_filterMap.mp hmem
    exact hlast e' he' ⟨ord', hexec'⟩
  · obtain ⟨u, v, rfl⟩ := List.append_of_mem (spawn_of_execution h he₁)
    have hmaps : AllReplied job .map (u ++ .spawn .reduce r.1 :: v) :=
      (hb.reduce u r.1 (v ++ e₁ :: t₂) (by simp)).mono (List.subset_append_left _ _)
    obtain ⟨s₁, -, h₁, -⟩ := runs_split h
    exact executed_of_allReplied h₁ hmaps m.2 (by simp [Job.taskOf])

/-- A run with separated phases that gets to the end has the output of the sequential run. -/
theorem output_eq_sequential (hap : job.Apart) (hb : Barrier job t)
    (h : runs (step J job) (start d) t = some s) (hdone : s.main = .done) (ord : ℕ → RangeOrder) :
    ∃ e, job.sequential J ord d = .ok e ∧ job.output s.dir = job.output e := by
  obtain ⟨t₁, t₂, s₁, D, rfl, h₁, hmain, hmerge, hout⟩ := (runs_written h).merged hdone
  have hexec := (runs_written h₁).dir (by simp [hmain]) (by simp [hmain])
  obtain ⟨hprog, hmaps⟩ := Job.progress_of_ok hap _ hexec
  have hall : ∀ m : Fin job.files.length, ∃ ord, (.map m, ord) ∈ job.executions t₁ := fun m =>
    executed_of_allReplied h₁ (hb.merge t₁ t₂ rfl .map) m.2 (by simp [Job.taskOf])
  have hfinal := Job.merge_of_settled (fun r _ => Job.coerced_of_mem_pairs r) fun r hr =>
    hprog.settled ⟨r, hr⟩ (settled_of_barrier h₁ hb.of_append (hb.merge t₁ t₂ rfl .reduce) _)
  have hin : ∀ f ∈ job.files, d f ≠ none := by
    intro f hf
    obtain ⟨m, rfl⟩ := List.mem_iff_get.mp hf
    obtain ⟨ord', hmem⟩ := hall m
    exact (hmaps m ord' hmem).1
  have hok : ∀ m : Fin job.files.length, ¬ job.Crashes d m := by
    intro m
    obtain ⟨ord', hmem⟩ := hall m
    exact (hmaps m ord' hmem).2
  obtain ⟨e, he, heout⟩ := Job.sequential_final (J := J) hap hin hok ord
  refine ⟨e, he, ?_⟩
  rw [hmerge] at hfinal
  obtain rfl := Except.ok.inj hfinal
  rw [hout, heout, Job.output, Function.update_self, Job.final]

/-! ## A run to the end -/

/-- The worker `w` does task `i` as soon as its goroutine has started. -/
def turn (phase : Phase) (w : Str) (ord : ℕ → RangeOrder) (i : ℕ) : List Event :=
  [.spawn phase i, .add phase i, .take phase i w, .perform phase i (ord i), .reply phase i true,
    .done phase i]

/-- The master is between two turns of worker `w`. -/
structure Between (s : Master) (phase : Phase) (w : Str) (i : ℕ) (d : Dir) : Prop where
  main : s.main = .spawning phase i
  idle : w ∈ s.registerChannel
  wg : s.wg = fun _ => 0
  dir : s.dir = d

theorem Between.turn {w : Str} {D : Dir} (h : Between s phase w i d) (hi : i < job.ntasks phase)
    {ord : ℕ → RangeOrder} (hD : job.assigned J ord phase i d = .ok D) :
    ∃ s', runs (step J job) s (turn phase w ord i) = some s' ∧
      Between s' phase w (i + 1) D := by
  obtain ⟨hmain, hw, hwg, rfl⟩ := h
  obtain ⟨arg, hargs, hD⟩ := bind_eq_ok.1 hD
  refine ⟨{ s.setTask phase i .exited with
    main := .spawning phase (i + 1)
    registerChannel := w :: s.registerChannel.erase w
    dir := D }, ?_, rfl, List.mem_cons_self, hwg, rfl⟩
  simp [Master.turn, runs, step, next, hmain, hi, hw, hwg, hargs, hD, setTask, setWg, succeed,
    wgDone]

theorem Between.turns {w : Str} {ord : ℕ → RangeOrder} (h : Between s phase w 0 d) :
    ∀ {k : ℕ} {D : Dir}, k ≤ job.ntasks phase →
      (List.range k).foldlM (fun d i => job.assigned J ord phase i d) d = .ok D →
      ∃ s', runs (step J job) s ((List.range k).flatMap (Master.turn phase w ord)) = some s' ∧
        Between s' phase w k D
  | 0, D, _, hD => ⟨s, rfl, Except.ok.inj hD ▸ h⟩
  | k + 1, D, hk, hD => by
    rw [List.range_succ, foldlM_concat, bind_eq_ok] at hD
    obtain ⟨D₁, hD₁, hD⟩ := hD
    obtain ⟨s₁, h₁, hb₁⟩ := h.turns (by omega) hD₁
    obtain ⟨s₂, h₂, hb₂⟩ := hb₁.turn hk hD
    refine ⟨s₂, ?_, hb₂⟩
    rw [List.range_succ, List.flatMap_append]
    exact runs_trans h₁ (by simpa using h₂)

/-- One worker does all tasks of a phase, each as soon as it is there. -/
theorem Between.schedule {d₀ D : Dir} {w : Str} {ord : ℕ → RangeOrder}
    (hle : job.nReduce ≤ job.files.length) (h : Between s phase w 0 d)
    (hrun : runs (step J job) (start d₀) t = some s) (hadd : AddedFirst job t)
    (hD : job.inTurn J ord phase d = .ok D) :
    ∃ t' s', runs (step J job) (start d₀) t' = some s' ∧ AddedFirst job t' ∧
      s'.main = afterSchedule phase ∧ w ∈ s'.registerChannel ∧ s'.wg = (fun _ => 0) ∧
        s'.dir = D := by
  rw [Job.inTurn_eq_assigned hle] at hD
  obtain ⟨s₁, h₁, hb⟩ := h.turns le_rfl hD
  have hstep : step J job (.pass phase) s₁ = some { s₁ with main := afterSchedule phase } := by
    simp [step, next, hb.main, hb.wg, atWait]
  refine ⟨_, { s₁ with main := afterSchedule phase },
    runs_trans (runs_trans hrun h₁) (runs_cons (t := []) hstep rfl), ?_, rfl, hb.idle, hb.wg,
    hb.dir⟩
  refine (hadd.append_of_not_pass ?_).concat_pass fun i hi => ?_
  · simp [Master.turn]
  · refine List.mem_append_right _ (List.mem_flatMap.mpr ⟨i, List.mem_range.mpr hi, ?_⟩)
    simp [Master.turn]

/-- If the sequential run ends, so do some distributed runs. -/
theorem exists_done {ord : ℕ → RangeOrder} {e : Dir} (hle : job.nReduce ≤ job.files.length)
    (h : job.sequential J ord d = .ok e) :
    ∃ t s, runs (step J job) (start d) t = some s ∧ Barrier job t ∧ s.main = .done := by
  obtain ⟨D₁, hmap, h⟩ := bind_eq_ok.1 h
  obtain ⟨D₂, hreduce, h⟩ := bind_eq_ok.1 h
  have h₀ : runs (step J job) (start d) [.register []] =
      some { start d with workers := [[]], registerChannel := [[]] } := by
    simp [runs, step, next, start, serving]
  obtain ⟨t₁, s₁, h₁, hadd₁, hmain₁, hw, hwg, rfl⟩ := Between.schedule hle
    ⟨rfl, List.mem_cons_self, rfl, rfl⟩ h₀ (addedFirst_nil.append_of_not_pass (by simp)) hmap
  obtain ⟨t₂, s₂, h₂, hadd₂, hmain₂, -, -, rfl⟩ := Between.schedule hle
    ⟨hmain₁, hw, hwg, rfl⟩ h₁ hadd₁ hreduce
  have hfinish : runs (step J job) s₂ [.finish, .merge] =
      some { s₂ with main := .done, dir := e } := by
    simp [runs, step, next, hmain₂, afterSchedule, h]
  have hall := runs_trans h₂ hfinish
  exact ⟨_, _, hall, (hadd₂.append_of_not_pass (by simp)).barrier hall, rfl⟩

/-! ## More reduce tasks than files -/

/-- Only a task number past the end of `mr.files` panics. -/
theorem outOfRange_of_crashed (h : runs (step J job) (start d) t = some s)
    (hcr : s.main = .crashed (.panic "index out of range")) :
    ∃ phase, ∃ i < job.ntasks phase, job.files.length ≤ i := by
  rcases List.eq_nil_or_concat t with rfl | ⟨t, e, rfl⟩
  · obtain rfl := Option.some.inj h
    cases hcr
  · rw [List.concat_eq_append] at h
    obtain ⟨s₁, s₂, h₁, hstep, h₂⟩ := runs_split h
    obtain rfl := Option.some.inj h₂
    obtain ⟨hm, hcr₁⟩ := step_moves hstep
    cases hm with
    | outOfRange phase i w c hg hw ha =>
      refine ⟨phase, i, (runs_tracked h₁).inRange phase i (by simp [hg]), ?_⟩
      unfold Job.taskArgs at ha
      cases hf : job.files[i]? with
      | none => simpa using hf
      | some f => simp [hf] at ha
    | mergeFails c hmain hd =>
      obtain ⟨file, rfl⟩ := merge_error hd
      cases hcr
    | misuse => simp [crash] at hcr
    | done phase i =>
      rcases s₁.wgDone_main phase i with hmain | ⟨-, hw⟩
      · exact absurd (hmain ▸ hcr) (hcr₁ _)
      · rw [hw] at hcr
        cases hcr
    | pass phase => cases phase <;> cases hcr
    | spawn => cases hcr
    | block => cases hcr
    | finish => cases hcr
    | merge => cases hcr
    | _ => exact absurd hcr (hcr₁ _)

theorem runs_spawns (J : Codec) {k : ℕ} (hk : k ≤ job.ntasks phase)
    (hmain : s.main = .spawning phase 0) :
    ∃ s', runs (step J job) s ((List.range k).map fun i => .spawn phase i) = some s' ∧
      s'.main = .spawning phase k ∧ s'.wg = s.wg ∧ ∀ i < k, s'.tasks phase i = .spawned := by
  induction k with
  | zero => exact ⟨s, rfl, hmain, rfl, by simp⟩
  | succ k ih =>
    obtain ⟨s₁, hrun, hmain₁, hwg, htasks⟩ := ih (by omega)
    have hstep : step J job (.spawn phase k) s₁ =
        some { s₁.setTask phase k .spawned with main := .spawning phase (k + 1) } := by
      simp [step, next, hmain₁, Nat.lt_of_succ_le hk]
    refine ⟨{ s₁.setTask phase k .spawned with main := .spawning phase (k + 1) }, ?_, rfl, hwg,
      fun i hi => ?_⟩
    · rw [List.range_succ, List.map_append]
      exact runs_trans hrun (runs_cons hstep rfl)
    · by_cases h : i = k
      · subst h
        exact setTask_self ..
      · exact (setTask_other _ fun hne => h hne.2).trans (htasks i (by omega))

/-- The goroutine of the first reduce task without a file takes a worker. -/
theorem exists_outOfRange (J : Codec) (d : Dir) (h : job.files.length < job.nReduce) :
    ∃ t s, runs (step J job) (start d) t = some s ∧
      s.main = .crashed (.panic "index out of range") := by
  obtain ⟨s₁, h₁, hmain₁, hwg₁, -⟩ : ∃ s₁, runs (step J job) (start d)
      ((List.range job.files.length).map fun i => .spawn .map i) = some s₁ ∧ _ :=
    runs_spawns J (show job.ntasks .map ≤ job.ntasks .map from le_rfl) rfl
  have hpass : step J job (.pass .map) s₁ = some { s₁ with main := .spawning .reduce 0 } := by
    simp [step, next, hmain₁, atWait, hwg₁, start, afterSchedule, Job.ntasks]
  obtain ⟨s₂, h₂, hmain₂, -, htasks₂⟩ := runs_spawns J
    (s := { s₁ with main := .spawning .reduce 0 })
    (show job.files.length + 1 ≤ job.ntasks .reduce from h) rfl
  have hlast : ∃ s, runs (step J job) s₂ [.register [], .add .reduce job.files.length,
      .take .reduce job.files.length []] = some s ∧
        s.main = .crashed (.panic "index out of range") := by
    simp [runs, step, next, hmain₂, serving, htasks₂, setTask, setWg, Job.taskArgs, crash]
  obtain ⟨s, h₃, hcr⟩ := hlast
  exact ⟨_, s, runs_trans h₁ (runs_cons hpass (runs_trans h₂ h₃)), hcr⟩

/-- A distributed run does what the sequential run does. -/
structure Agrees (J : Codec) (job : Job) (d : Dir) (t : List Event) (s : Master) : Prop where
  inRange : s.main ≠ .crashed (.panic "index out of range")
  dispatched : ∀ phase i w, .take phase i w ∈ t → i < job.ntasks phase
  valid : ∀ phase i w arg b, s.tasks phase i = .calling w arg b →
    ∃ f, job.files[i]? = some f ∧ arg = ⟨job.jobName, f, phase, i, job.nios phase⟩
  complete : Barrier job t → ∀ phase, .pass phase ∈ t →
    ∀ i < job.ntasks phase, ∃ w, .take phase i w ∈ t
  output : job.Apart → Barrier job t → s.main = .done → ∀ ord, ∃ e,
    job.sequential J ord d = .ok e ∧ job.output s.dir = job.output e

theorem exists_take (h : runs (step J job) (start d) t = some s) (hb : Barrier job t)
    (hpass : .pass phase ∈ t) (hi : i < job.ntasks phase) : ∃ w, .take phase i w ∈ t := by
  obtain ⟨t₁, t₂, rfl⟩ := List.append_of_mem hpass
  have hrep := ((runs_tracked h).replied phase i).mpr
    (List.mem_append_left _ (hb.pass t₁ phase t₂ rfl i hi))
  refine (runs_called h).taken phase i ?_
  revert hrep
  cases s.tasks phase i <;> simp

/-- The master agrees with the sequential run in all its runs, and can always get to the end as that
run does, if and only if there are no more reduce tasks than files. -/
theorem agrees_iff (J : Codec) (job : Job) :
    (∀ d, (∀ t s, runs (step J job) (start d) t = some s → Agrees J job d t s) ∧
        ∀ ord e, job.sequential J ord d = .ok e →
          ∃ t s, runs (step J job) (start d) t = some s ∧ Barrier job t ∧ s.main = .done) ↔
      job.nReduce ≤ job.files.length := by
  constructor
  · intro hall
    by_contra hlt
    obtain ⟨t, s, h, hcr⟩ := exists_outOfRange J (fun _ => none) (not_le.mp hlt)
    exact ((hall _).1 t s h).inRange hcr
  · intro hle d
    refine ⟨fun t s h => ?_, fun ord e he => exists_done hle he⟩
    refine ⟨fun hcr => ?_, fun phase i w => (runs_called h).dispatched,
      fun phase i w arg b hg => Job.taskArgs_eq_ok ((runs_called h).valid hg),
      fun hb phase hpass i hi => exists_take h hb hpass hi,
      fun hap hb hdone ord => output_eq_sequential hap hb h hdone ord⟩
    obtain ⟨phase, i, hi, hlen⟩ := outOfRange_of_crashed h hcr
    cases phase with
    | map => exact absurd hi (not_lt.mpr hlen)
    | reduce => exact absurd (lt_of_lt_of_le hi hle) (not_lt.mpr hlen)

/-! ## One file and two reduce tasks -/

/-- The map phase is complete; then the second reduce task gets the worker. -/
def overrun : List Event :=
  [.register (ascii "w"), .spawn .map 0, .add .map 0, .block .map, .take .map 0 (ascii "w"),
    .perform .map 0 .stored, .reply .map 0 true, .done .map 0, .pass .map, .spawn .reduce 0,
    .spawn .reduce 1, .add .reduce 1, .take .reduce 1 (ascii "w")]

theorem overrun_addedFirst : AddedFirst oneLetter overrun := by
  refine addedFirst_of_take fun n hn phase hget i hi => ?_
  change n < 13 at hn
  interval_cases n <;> simp [overrun] at hget
  subst hget
  obtain rfl : i = 0 := Nat.lt_one_iff.mp hi
  simp [overrun]

theorem overrun_panics :
    Barrier oneLetter overrun ∧
      (runs (step printable oneLetter) (start shelf) overrun).map main =
        some (.crashed (.panic "index out of range")) ∧
      (oneLetter.sequential printable (fun _ => .stored) shelf).map oneLetter.output =
        .ok (some (ascii "a: 3\nb: 1\nn: 2\n")) := by
  have hmain : (runs (step printable oneLetter) (start shelf) overrun).map main =
      some (.crashed (.panic "index out of range")) := by decide +kernel
  obtain ⟨s, hs, -⟩ := Option.map_eq_some_iff.mp hmain
  exact ⟨overrun_addedFirst.barrier hs, hmain, by decide +kernel⟩

end Master

end DistSystem.MapReduce
