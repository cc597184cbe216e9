import DistSystem.Proofs.MRRepeat
import Mathlib.Data.Set.Function

/-!
# Who reads and writes a file

The files of a job have different names, so a task or the merge writes only files of its own, and
what it does depends only on the files that are meant for it and on its input (`Confined`).
-/

namespace DistSystem.MapReduce

/-! ## Names -/

/-- A file of a job. -/
inductive JobFile where
  | intermediate (mapTask reduceTask : ℕ)
  | result (reduceTask : ℕ)
  | output
  deriving DecidableEq

def JobFile.name (jobName : Str) : JobFile → Str
  | intermediate mapTask reduceTask => reduceName jobName mapTask reduceTask
  | result reduceTask => mergeName jobName reduceTask
  | output => outputName jobName

theorem JobFile.name_inj (jobName : Str) :
    ∀ {x y : JobFile}, x.name jobName = y.name jobName → x = y
  | .intermediate m r, .intermediate m' r', h => by
    obtain ⟨rfl, rfl⟩ := reduceName_inj h
    rfl
  | .intermediate m r, .result r', h => absurd h reduceName_ne_mergeName
  | .intermediate m r, .output, h => absurd h reduceName_ne_outputName
  | .result r, .intermediate m' r', h => absurd h.symm reduceName_ne_mergeName
  | .result r, .result r', h => by
    obtain rfl := mergeName_inj h
    rfl
  | .result r, .output, h => absurd h mergeName_ne_outputName
  | .output, .intermediate m' r', h => absurd h.symm reduceName_ne_outputName
  | .output, .result r', h => absurd h.symm mergeName_ne_outputName
  | .output, .output, _ => rfl

/-! ## What depends on what -/

/-- `f` changes only files in `writes`, and does the same to directories that agree on `reads`: it
ends in the same way, and each file it leaves as it was in both or with the same contents. -/
structure Confined (reads writes : Set Str) (f : Dir → Except Crash Dir) : Prop where
  changes : ∀ {d d' : Dir}, f d = .ok d' → ∀ name ∉ writes, d' name = d name
  crash : ∀ {d₁ d₂ : Dir} {c : Crash}, reads.EqOn d₁ d₂ → f d₁ = .error c → f d₂ = .error c
  same : ∀ {d₁ d₂ d₁' d₂' : Dir}, reads.EqOn d₁ d₂ → f d₁ = .ok d₁' → f d₂ = .ok d₂' →
    ∀ name, d₁' name = d₁ name ∧ d₂' name = d₂ name ∨ d₁' name = d₂' name

/-- A function that writes one file. -/
theorem Confined.of_update {reads : Set Str} {name : Str} {f : Dir → Except Crash Dir}
    (contents : Dir → Except Crash Str)
    (hf : ∀ d, f d = (contents d).map fun s => Function.update d name (some s))
    (hc : ∀ d₁ d₂, reads.EqOn d₁ d₂ → contents d₁ = contents d₂) : Confined reads {name} f where
  changes {d d'} h name' hname := by
    rw [hf] at h
    cases hs : contents d with
    | error c => simp [hs, Except.map] at h
    | ok s =>
      rw [hs] at h
      obtain rfl := Except.ok.inj h
      exact Function.update_of_ne hname _ _
  crash {d₁ d₂ c} hr h := by
    rw [hf, hc d₁ d₂ hr] at h
    rw [hf]
    cases hs : contents d₂ with
    | error c' =>
      rw [hs] at h
      exact h
    | ok s => simp [hs, Except.map] at h
  same {d₁ d₂ d₁' d₂'} hr h₁ h₂ name' := by
    rw [hf, hc d₁ d₂ hr] at h₁
    rw [hf] at h₂
    cases hs : contents d₂ with
    | error c => simp [hs, Except.map] at h₁
    | ok s =>
      rw [hs] at h₁ h₂
      obtain rfl := Except.ok.inj h₁
      obtain rfl := Except.ok.inj h₂
      by_cases hname : name' = name
      · subst hname
        exact .inr (by simp)
      · exact .inl ⟨Function.update_of_ne hname _ _, Function.update_of_ne hname _ _⟩

namespace Job

/-- A task, or the merge. -/
inductive Work (job : Job) where
  | task (t : Task job)
  | merge

variable (J : Codec) (job : Job)

def carryOut (ord : RangeOrder) : Work job → Dir → Except Crash Dir
  | .task t, d => job.exec J (t, ord) d
  | .merge, d => job.merge J d

/-- The files it reads: a map task its input, a reduce task one file of every map task, and the
merge every result. -/
def Work.reads {job : Job} : Work job → Set Str
  | .task (.map m) => {job.files.get m}
  | .task (.reduce r) => {name | ∃ m < job.files.length, name = reduceName job.jobName m r}
  | .merge => {name | ∃ r < job.nReduce, name = mergeName job.jobName r}

/-- The files it writes. -/
def Work.writes {job : Job} : Work job → Set Str
  | .task (.map m) => {name | ∃ r < job.nReduce, name = reduceName job.jobName m r}
  | .task (.reduce r) => {mergeName job.jobName r}
  | .merge => {outputName job.jobName}

variable {J job}

theorem confined_map (ord : RangeOrder) (m : Fin job.files.length) :
    Confined (Work.reads (.task (.map m))) (Work.writes (.task (.map m)))
      (job.carryOut J ord (.task (.map m))) := by
  -- the input decides how the task ends, and what it writes
  have hread : ∀ {d₁ d₂ : Dir}, (Work.reads (.task (.map m))).EqOn d₁ d₂ →
      d₁ (job.files.get m) = d₂ (job.files.get m) := fun h => h rfl
  have hrun : ∀ (d : Dir) contents, d (job.files.get m) = some contents →
      job.carryOut J ord (.task (.map m)) d =
        if UInt32.ofNat job.nReduce = 0 ∧ job.mapF (job.files.get m) (readBuf contents) ≠ [] then
          .error (.panic "integer divide by zero")
        else .ok (d.scatter J (target job.jobName m job.nReduce)
          (job.mapF (job.files.get m) (readBuf contents))) := fun d contents h => doMap_eq h
  have hnone : ∀ d : Dir, d (job.files.get m) = none → job.carryOut J ord (.task (.map m)) d =
      .error (.fatal "Open file error: " (job.files.get m)) := by
    intro d h
    simp only [carryOut, exec, doMap, h]
  refine ⟨fun {d d'} h name hname => ?_, fun {d₁ d₂ c} hr h => ?_,
    fun {d₁ d₂ d₁' d₂'} hr h₁ h₂ name => ?_⟩
  · cases hc : d (job.files.get m) with
    | none => simp [hnone d hc] at h
    | some contents =>
      rw [hrun d contents hc] at h
      split_ifs at h with hcr
      obtain rfl := Except.ok.inj h
      refine scatter_apply_of_ne fun kv hkv heq => hname ?_
      have hn : UInt32.ofNat job.nReduce ≠ 0 := fun hn => hcr ⟨hn, List.ne_nil_of_mem hkv⟩
      exact ⟨_, partition_lt hn kv.key, heq.symm⟩
  · have hin := hread hr
    cases hc : d₁ (job.files.get m) with
    | none =>
      rw [hnone d₁ hc] at h
      rw [hnone d₂ (hin ▸ hc), h]
    | some contents =>
      rw [hrun d₁ contents hc] at h
      rw [hrun d₂ contents (hin ▸ hc)]
      split_ifs at h ⊢
      exact h
  · have hin := hread hr
    cases hc : d₁ (job.files.get m) with
    | none => simp [hnone d₁ hc] at h₁
    | some contents =>
      rw [hrun d₁ contents hc] at h₁
      rw [hrun d₂ contents (hin ▸ hc)] at h₂
      split_ifs at h₁ h₂
      obtain rfl := Except.ok.inj h₁
      obtain rfl := Except.ok.inj h₂
      unfold Dir.scatter
      split_ifs
      · exact .inl ⟨rfl, rfl⟩
      · exact .inr rfl

theorem confined_reduce (ord : RangeOrder) (r : Fin job.nReduce) :
    Confined (Work.reads (.task (.reduce r))) (Work.writes (.task (.reduce r)))
      (job.carryOut J ord (.task (.reduce r))) := by
  refine .of_update (fun d => .ok (J.encodeAll (results ord job.reduceF
    (intermediate J job.jobName r job.files.length d)))) (fun d => ?_) fun d₁ d₂ h => ?_
  · exact congrArg Except.ok (doReduce_eq ord job.reduceF)
  · have hread : intermediate J job.jobName r job.files.length d₁ =
        intermediate J job.jobName r job.files.length d₂ := by
      refine List.flatMap_congr fun m hm => ?_
      rw [h ⟨m, List.mem_range.mp hm, rfl⟩]
    rw [hread]

theorem readResults_congr {jobName : Str} {d₁ d₂ : Dir} : ∀ {n : ℕ},
    (∀ r < n, d₁ (mergeName jobName r) = d₂ (mergeName jobName r)) →
      readResults J jobName n d₁ = readResults J jobName n d₂
  | 0, _ => rfl
  | n + 1, h => by
    rw [readResults_succ, readResults_succ, h n (Nat.lt_succ_self n),
      readResults_congr fun r hr => h r (Nat.lt_succ_of_lt hr)]

theorem confined_merge (ord : RangeOrder) :
    Confined (.merge : Work job).reads (.merge : Work job).writes (job.carryOut J ord .merge) := by
  refine .of_update (fun d => (readResults J job.jobName job.nReduce d).map report)
    (fun d => ?_) fun d₁ d₂ h => ?_
  · simp only [carryOut, Job.merge, MapReduce.merge, foldl_write]
    cases readResults J job.jobName job.nReduce d <;> rfl
  · exact congrArg _ (readResults_congr fun r hr => h ⟨r, hr, rfl⟩)

theorem confined (ord : RangeOrder) : ∀ w : Work job,
    Confined w.reads w.writes (job.carryOut J ord w)
  | .task (.map m) => confined_map ord m
  | .task (.reduce r) => confined_reduce ord r
  | .merge => confined_merge ord

/-- What is written is a file of the job. -/
theorem Work.exists_of_mem_writes {name : Str} : ∀ {w : Work job}, name ∈ w.writes →
    (∃ m r, w = .task (.map m) ∧ name = (JobFile.intermediate m r).name job.jobName) ∨
      (∃ r, w = .task (.reduce r) ∧ name = (JobFile.result r).name job.jobName) ∨
      (w = .merge ∧ name = JobFile.output.name job.jobName)
  | .task (.map m), ⟨r, _, h⟩ => .inl ⟨m, r, rfl, h⟩
  | .task (.reduce r), h => .inr (.inl ⟨r, rfl, h⟩)
  | .merge, h => .inr (.inr ⟨rfl, h⟩)

theorem Work.eq_of_mem_writes {name : Str} {w w' : Work job} (h : name ∈ w.writes)
    (h' : name ∈ w'.writes) : w = w' := by
  rcases exists_of_mem_writes h with ⟨m, r, rfl, rfl⟩ | ⟨r, rfl, rfl⟩ | ⟨rfl, rfl⟩
  · rcases exists_of_mem_writes h' with ⟨m', r', rfl, heq⟩ | ⟨r', rfl, heq⟩ | ⟨rfl, heq⟩
    · rw [Fin.ext (JobFile.intermediate.inj (JobFile.name_inj _ heq)).1]
    · cases JobFile.name_inj _ heq
    · cases JobFile.name_inj _ heq
  · rcases exists_of_mem_writes h' with ⟨m', r', rfl, heq⟩ | ⟨r', rfl, heq⟩ | ⟨rfl, heq⟩
    · cases JobFile.name_inj _ heq
    · rw [Fin.ext (JobFile.result.inj (JobFile.name_inj _ heq))]
    · cases JobFile.name_inj _ heq
  · rcases exists_of_mem_writes h' with ⟨m', r', rfl, heq⟩ | ⟨r', rfl, heq⟩ | ⟨rfl, heq⟩
    · cases JobFile.name_inj _ heq
    · cases JobFile.name_inj _ heq
    · rfl

/-- The names of a job's files tell them apart, for every job name. So no task, nor the merge,
changes a file of another one, and each reads of what the others write only the files meant for it;
but for an input that has been given the name of one of these files. -/
theorem files_apart (J : Codec) (job : Job) (ord : RangeOrder) :
    Function.Injective (JobFile.name job.jobName) ∧
      (∀ w : Work job, Confined w.reads w.writes (job.carryOut J ord w)) ∧
      (∀ w w' : Work job, w ≠ w' → ∀ name ∈ w.writes, name ∉ w'.writes) ∧
      ∀ w w' : Work job, ∀ name ∈ w.reads, name ∈ w'.writes →
        (∃ m r, w' = .task (.map m) ∧ w = .task (.reduce r) ∧
            name = reduceName job.jobName m r) ∨
          (∃ r, w' = .task (.reduce r) ∧ w = .merge ∧ name = mergeName job.jobName r) ∨
          ∃ m, w = .task (.map m) ∧ name = job.files.get m := by
  refine ⟨fun x y => JobFile.name_inj job.jobName, confined ord, fun w w' hne name h h' => ?_,
    fun w w' name hr hw => ?_⟩
  · exact hne (Work.eq_of_mem_writes h h')
  · match w, hr with
    | .task (.map m), hr => exact .inr (.inr ⟨m, rfl, hr⟩)
    | .task (.reduce r), ⟨m, hm, hname⟩ =>
      have hown : name ∈ (Work.task (.map ⟨m, hm⟩) : Work job).writes := ⟨r, r.2, hname⟩
      exact .inl ⟨⟨m, hm⟩, r, Work.eq_of_mem_writes hw hown, rfl, hname⟩
    | .merge, ⟨r, hr, hname⟩ =>
      have hown : name ∈ (Work.task (.reduce ⟨r, hr⟩) : Work job).writes := hname
      exact .inr (.inl ⟨⟨r, hr⟩, Work.eq_of_mem_writes hw hown, rfl, hname⟩)

end Job

end DistSystem.MapReduce
