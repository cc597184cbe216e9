import DistSystem.Proofs.MRBarrier
import DistSystem.Proofs.MRSequential

/-!
# The calls of a distributed run

Every call is for a task of the job, with the arguments of the sequential run, also a call that has
returned false and is carried out late (`Called`). So the directory is what a list of executions
makes of the one at the start (`Written`).
-/

namespace DistSystem.MapReduce

open Interleaving

namespace Goroutine

/-- After a call has started. -/
@[simp] def called : Goroutine → Bool
  | calling _ _ _ => true
  | finishing => true
  | exited => true
  | _ => false

/-- After a worker has carried out the task for the current call. -/
@[simp] def performed : Goroutine → Bool
  | calling _ _ b => b
  | finishing => true
  | exited => true
  | _ => false

end Goroutine

/-! ## The tasks of a run -/

namespace Job

variable (job : Job)

def taskOf : Phase → ℕ → Option (Task job)
  | .map, i => if h : i < job.files.length then some (.map ⟨i, h⟩) else none
  | .reduce, i => if h : i < job.nReduce then some (.reduce ⟨i, h⟩) else none

/-- The task that is carried out in a step. -/
def execution : Event → Option (Execution job)
  | .perform phase i ord => (job.taskOf phase i).map fun a => (a, ord)
  | .performLate arg ord => (job.taskOf arg.phase arg.taskNumber).map fun a => (a, ord)
  | _ => none

def executions (t : List Event) : List (Execution job) := t.filterMap job.execution

variable {J : Codec} {job} {phase : Phase} {i : ℕ} {arg : DoTaskArgs} {a : Task job} {d d' : Dir}

theorem taskOf_of_lt (hi : i < job.ntasks phase) : ∃ a, job.taskOf phase i = some a := by
  cases phase with
  | map => exact ⟨_, dif_pos hi⟩
  | reduce => exact ⟨_, dif_pos hi⟩

theorem taskArgs_eq_ok (h : job.taskArgs phase i = .ok arg) :
    ∃ f, job.files[i]? = some f ∧ arg = ⟨job.jobName, f, phase, i, job.nios phase⟩ := by
  unfold taskArgs at h
  cases hf : job.files[i]? with
  | none => simp [hf] at h
  | some f =>
    simp only [hf, Except.ok.injEq] at h
    exact ⟨f, rfl, h.symm⟩

/-- A worker does what the sequential run does. -/
theorem doTask_eq_exec (h : job.taskArgs phase i = .ok arg) (ha : job.taskOf phase i = some a)
    (ord : RangeOrder) : job.doTask J ord arg d = job.exec J (a, ord) d := by
  obtain ⟨f, hf, rfl⟩ := taskArgs_eq_ok h
  cases phase with
  | map =>
    simp only [taskOf, Option.dite_none_right_eq_some, Option.some.injEq] at ha
    obtain ⟨hi, rfl⟩ := ha
    obtain ⟨hi', rfl⟩ := List.getElem?_eq_some_iff.mp hf
    rfl
  | reduce =>
    simp only [taskOf, Option.dite_none_right_eq_some, Option.some.injEq] at ha
    obtain ⟨hi, rfl⟩ := ha
    rfl

/-- No task writes the output file. -/
theorem exec_output {x : Execution job} (h : job.exec J x d = .ok d') :
    job.output d' = job.output d := by
  obtain ⟨_ | _, ord⟩ := x
  case map m =>
    cases hc : d (job.files.get m) with
    | none => simp only [exec, doMap, hc, reduceCtorEq] at h
    | some contents =>
      rw [exec, doMap_eq hc] at h
      split_ifs at h
      obtain rfl := Except.ok.inj h
      exact scatter_of_ne_reduceName fun r => reduceName_ne_outputName.symm
  case reduce r =>
    obtain rfl := Except.ok.inj h
    rw [output, doReduce_eq, Function.update_of_ne mergeName_ne_outputName.symm]
    rfl

end Job

namespace Master

variable {J : Codec} {job : Job} {s s' : Master} {e : Event} {t : List Event} {d : Dir}
  {phase : Phase} {i : ℕ}

theorem executions_concat : job.executions (t ++ [e]) =
    job.executions t ++ (job.execution e).toList := by
  rw [Job.executions, List.filterMap_append]
  cases h : job.execution e <;> simp [h, Job.executions]

/-! ## Calls -/

/-- The calls so far. -/
structure Called (job : Job) (t : List Event) (s : Master) : Prop where
  spawned : ∀ {phase i}, s.tasks phase i ≠ .absent → .spawn phase i ∈ t
  valid : ∀ {phase i w arg b}, s.tasks phase i = .calling w arg b →
    job.taskArgs phase i = .ok arg
  abandoned : ∀ arg ∈ s.abandoned, job.taskArgs arg.phase arg.taskNumber = .ok arg ∧
    arg.taskNumber < job.ntasks arg.phase ∧ .spawn arg.phase arg.taskNumber ∈ t
  taken : ∀ phase i, (s.tasks phase i).called = true → ∃ w, .take phase i w ∈ t
  dispatched : ∀ {phase i w}, .take phase i w ∈ t → i < job.ntasks phase
  performed : ∀ {phase i a}, (s.tasks phase i).performed = true → job.taskOf phase i = some a →
    ∃ ord, (a, ord) ∈ job.executions t

theorem called_start (job : Job) (d : Dir) : Called job [] (start d) where
  spawned h := absurd rfl h
  valid h := by simp [start] at h
  abandoned := by simp [start]
  taken _ _ h := by simp [start] at h
  dispatched h := by simp at h
  performed h := by simp [start] at h

theorem mem_executions_concat {x : Execution job} (h : x ∈ job.executions t) :
    x ∈ job.executions (t ++ [e]) := by
  rw [executions_concat]
  exact List.mem_append_left _ h

namespace Called

theorem taken_concat (h : Called job t s) (hg : (s.tasks phase i).called = true) :
    ∃ w, .take phase i w ∈ t ++ [e] := by
  obtain ⟨w, hw⟩ := h.taken phase i hg
  exact ⟨w, List.mem_append_left _ hw⟩

theorem performed_concat {a : Task job} (h : Called job t s)
    (hg : (s.tasks phase i).performed = true) (ha : job.taskOf phase i = some a) :
    ∃ ord, (a, ord) ∈ job.executions (t ++ [e]) := by
  obtain ⟨ord, hord⟩ := h.performed hg ha
  exact ⟨ord, mem_executions_concat hord⟩

theorem abandoned_concat {arg : DoTaskArgs} (h : Called job t s) (harg : arg ∈ s.abandoned) :
    job.taskArgs arg.phase arg.taskNumber = .ok arg ∧ arg.taskNumber < job.ntasks arg.phase ∧
      .spawn arg.phase arg.taskNumber ∈ t ++ [e] := by
  obtain ⟨h₁, h₂, h₃⟩ := h.abandoned arg harg
  exact ⟨h₁, h₂, List.mem_append_left _ h₃⟩

theorem dispatched_concat (h : Called job t s)
    (he : ∀ phase i w, e = .take phase i w → i < job.ntasks phase) {w : Str}
    (hmem : .take phase i w ∈ t ++ [e]) : i < job.ntasks phase := by
  rcases List.mem_append.mp hmem with hmem | hmem
  · exact h.dispatched hmem
  · exact he _ _ _ (List.mem_singleton.mp hmem).symm

/-- A step that moves no goroutine of a task. -/
theorem quiet (h : Called job t s) (htasks : s'.tasks = s.tasks)
    (hab : s'.abandoned ⊆ s.abandoned)
    (he : ∀ phase i w, e = .take phase i w → i < job.ntasks phase) :
    Called job (t ++ [e]) s' where
  spawned hne := List.mem_append_left _ (h.spawned (htasks ▸ hne))
  valid hg := h.valid (htasks ▸ hg)
  abandoned _ harg := h.abandoned_concat (hab harg)
  taken _ _ hg := h.taken_concat (htasks ▸ hg)
  dispatched hmem := h.dispatched_concat he hmem
  performed hg ha := h.performed_concat (htasks ▸ hg) ha

/-- A step of the goroutine of a task. -/
theorem move (g : Goroutine) (h : Called job t s)
    (htasks : s'.tasks = (s.setTask phase i g).tasks) (hspawned : .spawn phase i ∈ t ++ [e])
    (hvalid : ∀ w arg b, g = .calling w arg b → job.taskArgs phase i = .ok arg)
    (hab : ∀ arg ∈ s'.abandoned, arg ∈ s.abandoned ∨ ∃ w b, s.tasks phase i = .calling w arg b)
    (hi : i < job.ntasks phase)
    (htaken : g.called = true → ∃ w, .take phase i w ∈ t ++ [e])
    (he : ∀ q j w, e = .take q j w → q = phase ∧ j = i)
    (hperf : g.performed = true → ∀ a, job.taskOf phase i = some a →
      ∃ ord, (a, ord) ∈ job.executions (t ++ [e])) : Called job (t ++ [e]) s' := by
  have hcases : ∀ q j, (q = phase ∧ j = i ∧ s'.tasks q j = g) ∨ s'.tasks q j = s.tasks q j := by
    intro q j
    by_cases hqj : q = phase ∧ j = i
    · obtain ⟨rfl, rfl⟩ := hqj
      exact .inl ⟨rfl, rfl, by rw [htasks, setTask_self]⟩
    · exact .inr (by rw [htasks, setTask_other g hqj])
  refine ⟨fun {q j} hne => ?_, fun {q j w arg b} hg => ?_, fun arg harg => ?_, fun q j hg => ?_,
    fun {q j w} hmem => ?_, fun {q j a} hg ha => ?_⟩
  · rcases hcases q j with ⟨rfl, rfl, -⟩ | hsame
    · exact hspawned
    · exact List.mem_append_left _ (h.spawned (hsame ▸ hne))
  · rcases hcases q j with ⟨rfl, rfl, hself⟩ | hsame
    · exact hvalid w arg b (hself ▸ hg)
    · exact h.valid (hsame ▸ hg)
  · rcases hab arg harg with hold | ⟨w, b, hg⟩
    · exact h.abandoned_concat hold
    · have hargs := h.valid hg
      obtain ⟨f, -, rfl⟩ := Job.taskArgs_eq_ok hargs
      exact ⟨hargs, hi, hspawned⟩
  · rcases hcases q j with ⟨rfl, rfl, hself⟩ | hsame
    · exact htaken (hself ▸ hg)
    · exact h.taken_concat (hsame ▸ hg)
  · refine h.dispatched_concat (fun q j w heq => ?_) hmem
    obtain ⟨rfl, rfl⟩ := he q j w heq
    exact hi
  · rcases hcases q j with ⟨rfl, rfl, hself⟩ | hsame
    · exact hperf (hself ▸ hg) a ha
    · exact h.performed_concat (hsame ▸ hg) ha

theorem step (h : Called job t s) (htr : Tracked job t s)
    (hstep : s.step J job e = some s') : Called job (t ++ [e]) s' := by
  have hold : ∀ phase i, s.tasks phase i ≠ .absent →
      .spawn phase i ∈ t ++ [e] ∧ i < job.ntasks phase := fun phase i hne =>
    ⟨List.mem_append_left _ (h.spawned hne), htr.inRange phase i hne⟩
  cases (step_moves hstep).1 with
  | register w => exact h.quiet rfl (List.Subset.refl _) (by simp)
  | spawn phase i hmain hi =>
    exact h.move .spawned rfl (by simp) (by simp) (fun _ => .inl) hi (by simp)
      (by simp) (by simp)
  | add phase i hg =>
    obtain ⟨hsp, hi⟩ := hold phase i (by simp [hg])
    exact h.move .receiving rfl hsp (by simp) (fun _ => .inl) hi (by simp)
      (by simp) (by simp)
  | outOfRange phase i w c hg =>
    refine h.quiet rfl (List.Subset.refl _) fun q j w' heq => ?_
    cases heq
    exact (hold _ _ (by simp [hg])).2
  | take phase i w arg hg hw ha =>
    obtain ⟨hsp, hi⟩ := hold phase i (by simp [hg])
    refine h.move (.calling w arg false) rfl hsp ?_ (fun _ => .inl) hi (fun _ => ⟨w, by simp⟩) ?_
      (by simp)
    · rintro w' arg' b heq
      cases heq
      exact ha
    · rintro q j w' heq
      cases heq
      exact ⟨rfl, rfl⟩
  | perform phase i ord w arg d' hg hd =>
    obtain ⟨hsp, hi⟩ := hold phase i (by simp [hg])
    refine h.move (.calling w arg true) rfl hsp ?_ (fun _ => .inl) hi
      (fun _ => h.taken_concat (by simp [hg])) (by simp) fun _ a ha => ⟨ord, ?_⟩
    · rintro w' arg' b heq
      cases heq
      exact h.valid hg
    · rw [executions_concat]
      simp [Job.execution, ha]
  | performLate arg ord d' harg =>
    exact h.quiet rfl (List.erase_subset) (by simp)
  | succeed phase i w arg hg =>
    obtain ⟨hsp, hi⟩ := hold phase i (by simp [hg])
    exact h.move .finishing rfl hsp (by simp) (fun _ => .inl) hi
      (fun _ => h.taken_concat (by simp [hg])) (by simp)
      fun _ _ => h.performed_concat (by simp [hg])
  | fail phase i w arg performed hg =>
    obtain ⟨hsp, hi⟩ := hold phase i (by simp [hg])
    refine h.move .receiving rfl hsp (by simp) (fun arg' harg' => ?_) hi
      (by simp) (by simp) (by simp)
    cases performed with
    | true => exact .inl harg'
    | false =>
      rcases List.mem_cons.mp harg' with rfl | hmem
      · exact .inr ⟨w, false, hg⟩
      · exact .inl hmem
  | done phase i hg =>
    obtain ⟨hsp, hi⟩ := hold phase i (by simp [hg])
    exact h.move .exited rfl hsp (by simp) (fun _ => .inl) hi
      (fun _ => h.taken_concat (by simp [hg])) (by simp)
      fun _ _ => h.performed_concat (by simp [hg])
  | block => exact h.quiet rfl (List.Subset.refl _) (by simp)
  | pass => exact h.quiet rfl (List.Subset.refl _) (by simp)
  | misuse => exact h.quiet rfl (List.Subset.refl _) (by simp)
  | finish => exact h.quiet rfl (List.Subset.refl _) (by simp)
  | mergeFails => exact h.quiet rfl (List.Subset.refl _) (by simp)
  | merge => exact h.quiet rfl (List.Subset.refl _) (by simp)

end Called

theorem runs_called (h : runs (step J job) (start d) t = some s) : Called job t s :=
  runs_induction (called_start job d)
    (fun _ _ _ _ hrun hP hstep => hP.step (runs_tracked hrun) hstep) h

/-! ## The directory -/

/-- The directory holds what the tasks so far have left, and then what `merge` has made of it. -/
structure Written (J : Codec) (job : Job) (d : Dir) (t : List Event) (s : Master) : Prop where
  dir : (∀ c, s.main ≠ .crashed c) → s.main ≠ .done →
    job.execAll J (job.executions t) d = .ok s.dir
  merged : s.main = .done → ∃ t₁ t₂ s₁ D, t = t₁ ++ .merge :: t₂ ∧
    runs (step J job) (start d) t₁ = some s₁ ∧ s₁.main = .merging ∧ job.merge J s₁.dir = .ok D ∧
      job.output s.dir = job.output D

/-- A step in which no task is carried out. -/
theorem Written.quiet (h : Written J job d t s) (hcr : ∀ c, s.main ≠ .crashed c)
    (he : job.execution e = none) (hdir : s'.dir = s.dir)
    (hmain : (∃ c, s'.main = .crashed c) ∨ (s'.main = .done ↔ s.main = .done)) :
    Written J job d (t ++ [e]) s' where
  dir hcr' hnot := by
    rcases hmain with ⟨c, hc⟩ | hmain
    · exact absurd hc (hcr' c)
    · rw [executions_concat, he, hdir, Option.toList_none, List.append_nil]
      exact h.dir hcr fun hd => hnot (hmain.mpr hd)
  merged hd := by
    rcases hmain with ⟨c, hc⟩ | hmain
    · rw [hd] at hc
      cases hc
    · obtain ⟨t₁, t₂, s₁, D, rfl, h₁, h₂, h₃, h₄⟩ := h.merged (hmain.mp hd)
      exact ⟨t₁, t₂ ++ [e], s₁, D, by simp, h₁, h₂, h₃, hdir ▸ h₄⟩

theorem Written.exec {x : Execution job} (h : Written J job d t s)
    (hcr : ∀ c, s.main ≠ .crashed c) (he : job.execution e = some x)
    (hexec : job.exec J x s.dir = .ok s'.dir) (hmain : s'.main = s.main) :
    Written J job d (t ++ [e]) s' where
  dir _ hnot := by
    rw [executions_concat, he, Option.toList_some, Job.execAll_concat,
      h.dir hcr (hmain ▸ hnot)]
    exact hexec
  merged hd := by
    obtain ⟨t₁, t₂, s₁, D, rfl, h₁, h₂, h₃, h₄⟩ := h.merged (hmain ▸ hd)
    exact ⟨t₁, t₂ ++ [e], s₁, D, by simp, h₁, h₂, h₃, (Job.exec_output hexec).trans h₄⟩

theorem Written.step (h : Written J job d t s) (hrun : runs (step J job) (start d) t = some s)
    (hstep : s.step J job e = some s') : Written J job d (t ++ [e]) s' := by
  obtain ⟨hm, hcr⟩ := step_moves hstep
  cases hm with
  | register w => exact h.quiet hcr rfl rfl (.inr Iff.rfl)
  | spawn phase i hmain => exact h.quiet hcr rfl rfl (.inr (by simp [hmain]))
  | add phase i => exact h.quiet hcr rfl rfl (.inr Iff.rfl)
  | outOfRange phase i w c => exact h.quiet hcr rfl rfl (.inl ⟨c, rfl⟩)
  | take phase i w arg => exact h.quiet hcr rfl rfl (.inr Iff.rfl)
  | perform phase i ord w arg d' hg hd =>
    have hargs := (runs_called hrun).valid hg
    obtain ⟨a, ha⟩ := Job.taskOf_of_lt
      ((runs_tracked hrun).inRange phase i (by simp [hg]))
    rw [Job.doTask_eq_exec hargs ha] at hd
    exact h.exec hcr (by simp [Job.execution, ha]) hd rfl
  | performLate arg ord d' harg hd =>
    obtain ⟨hargs, hlt, -⟩ := (runs_called hrun).abandoned arg harg
    obtain ⟨a, ha⟩ := Job.taskOf_of_lt hlt
    rw [Job.doTask_eq_exec hargs ha] at hd
    exact h.exec hcr (by simp [Job.execution, ha]) hd rfl
  | succeed phase i w arg => exact h.quiet hcr rfl rfl (.inr Iff.rfl)
  | fail phase i w arg performed => exact h.quiet hcr rfl rfl (.inr Iff.rfl)
  | done phase i =>
    refine h.quiet hcr rfl rfl (.inr ?_)
    rcases s.wgDone_main phase i with hmain | ⟨hb, hw⟩
    · rw [hmain]
    · simp [hb, hw]
  | block phase hmain =>
    refine h.quiet hcr rfl rfl (.inr ?_)
    rw [hmain]
    simp
  | pass phase hmain =>
    refine h.quiet hcr rfl rfl (.inr ?_)
    rcases hmain with hmain | hmain <;> rw [hmain] <;> cases phase <;> simp [afterSchedule]
  | misuse phase => exact h.quiet hcr rfl rfl (.inl ⟨_, rfl⟩)
  | finish hmain => exact h.quiet hcr rfl rfl (.inr (by simp [hmain]))
  | mergeFails c => exact h.quiet hcr rfl rfl (.inl ⟨c, rfl⟩)
  | merge d' hmain hd =>
    exact ⟨fun _ hnot => absurd rfl hnot, fun _ => ⟨t, [], s, d', rfl, hrun, hmain, hd, rfl⟩⟩

theorem runs_written (h : runs (step J job) (start d) t = some s) : Written J job d t s := by
  refine runs_induction ⟨fun _ _ => rfl, ?_⟩ (fun t s e s' hrun hP hstep => hP.step hrun hstep) h
  simp [start]

end Master

end DistSystem.MapReduce
