import DistSystem.Lib.Interleaving
import DistSystem.Proofs.MRTasks

/-!
# Tasks in any order, any number of times

A map task reads a file that no task writes, and always leaves the same files behind (`spill`); a
reduce task that comes after every map task reads all of them. So the result files of a run in which
each reduce task has the last word after every map task are those of the run in order, up to the
order of `range`, which `merge` does not see.
-/

namespace DistSystem.MapReduce

open Grouping

/-- A task of the job. -/
inductive Task (job : Job) where
  | map (m : Fin job.files.length)
  | reduce (r : Fin job.nReduce)

/-- A task that is carried out, with the order of `range` in it. -/
abbrev Execution (job : Job) := Task job × RangeOrder

namespace Job

variable (J : Codec) (job : Job)

def exec : Execution job → Dir → Except Crash Dir
  | (.map m, _), d => doMap J job.jobName m (job.files.get m) job.nReduce job.mapF d
  | (.reduce r, ord), d =>
    .ok (doReduce J ord job.jobName r job.files.length job.reduceF d)

def execAll (as : List (Execution job)) (d : Dir) : Except Crash Dir :=
  as.foldlM (fun d a => job.exec J a d) d

/-- The output that `merge` leaves after the executions `as`. -/
def outcome (as : List (Execution job)) (d : Dir) : Except Crash (Option Str) := do
  let d ← job.execAll J as d
  let d ← job.merge J d
  return job.output d

/-- Each map task once and then each reduce task once. -/
def inOrder : List (Task job) :=
  (List.finRange job.files.length).map .map ++ (List.finRange job.nReduce).map .reduce

/-- No file of the job is in the directory. -/
structure NoLeftovers (d : Dir) : Prop where
  intermediate : ∀ m < job.files.length, ∀ r < job.nReduce, d (reduceName job.jobName m r) = none
  result : ∀ r < job.nReduce, d (mergeName job.jobName r) = none
  output : d (outputName job.jobName) = none

/-- No input file has the name of a file that a task of the job writes. -/
structure Apart : Prop where
  intermediate : ∀ f ∈ job.files, ∀ m < job.files.length, ∀ r < job.nReduce,
    f ≠ reduceName job.jobName m r
  result : ∀ f ∈ job.files, ∀ r < job.nReduce, f ≠ mergeName job.jobName r

variable {J job} {d₀ d d' : Dir} {as : List (Execution job)}

theorem NoLeftovers.apart (h : job.NoLeftovers d₀) (hin : ∀ f ∈ job.files, d₀ f ≠ none) :
    job.Apart where
  intermediate := by
    rintro f hf m hm r hr rfl
    exact hin _ hf (h.intermediate m hm r hr)
  result := by
    rintro f hf r hr rfl
    exact hin _ hf (h.result r hr)

/-! ## What the map tasks leave -/

variable (J job d₀)

/-- The pairs of map task `m`. -/
def emitted (m : ℕ) : List KeyValue :=
  match job.files[m]? with
  | none => []
  | some f => job.mapF f (readBuf ((d₀ f).getD []))

/-- The intermediate file of map task `m` for reduce task `r` once `m` has run. -/
def spill (m r : ℕ) : Option Str :=
  d₀.scatter J (target job.jobName m job.nReduce) (job.emitted d₀ m) (reduceName job.jobName m r)

/-- The pairs of reduce task `r` once every map task has run. -/
def pairs (r : ℕ) : List KeyValue :=
  (List.range job.files.length).flatMap fun m => readFile J (job.spill J d₀ m r)

/-- Map task `m` divides by zero. -/
def Crashes (m : ℕ) : Prop := UInt32.ofNat job.nReduce = 0 ∧ job.emitted d₀ m ≠ []

variable {J job d₀}

theorem uint32_ne_zero {n : ℕ} (hpos : 1 ≤ n) (hlt : n < UInt32.size) : UInt32.ofNat n ≠ 0 := by
  intro h
  have h0 := congrArg UInt32.toNat h
  rw [UInt32.toNat_ofNat_of_lt' hlt, UInt32.toNat_zero] at h0
  omega

theorem partition_lt {n : ℕ} (hn : UInt32.ofNat n ≠ 0) (key : Str) : partition n key < n := by
  have hpos : 0 < (UInt32.ofNat n).toNat := by
    rcases Nat.eq_zero_or_pos (UInt32.ofNat n).toNat with h | h
    · exact absurd (UInt32.toNat_inj.mp h) hn
    · exact h
  have hle : (UInt32.ofNat n).toNat ≤ n := by
    rw [UInt32.toNat_ofNat']
    exact Nat.mod_le _ _
  rw [partition, UInt32.toNat_mod]
  exact lt_of_lt_of_le (Nat.mod_lt _ hpos) hle

theorem emitted_get (m : Fin job.files.length) {contents : Str}
    (h : d₀ (job.files.get m) = some contents) :
    job.emitted d₀ m = job.mapF (job.files.get m) (readBuf contents) := by
  simp only [List.get_eq_getElem] at h ⊢
  simp [emitted, h]

/-! ## A run of tasks -/

variable (as) in
/-- The last execution of `r` is after an execution of every map task. -/
def Settled (r : Fin job.nReduce) : Prop :=
  ∃ as₁ as₂ ord, as = as₁ ++ (.reduce r, ord) :: as₂ ∧ (∀ ord', (.reduce r, ord') ∉ as₂) ∧
    ∀ m, ∃ ord', (.map m, ord') ∈ as₁

theorem settled_concat {a : Execution job} {r : Fin job.nReduce} (h : Settled (as ++ [a]) r) :
    (a.1 = .reduce r ∧ ∀ m, ∃ ord, (.map m, ord) ∈ as) ∨ (a.1 ≠ .reduce r ∧ Settled as r) := by
  obtain ⟨as₁, as₂, ord, heq, hlast, hmaps⟩ := h
  rcases Interleaving.concat_eq_append_cons heq with ⟨rfl, rfl, rfl⟩ | ⟨as₂', rfl, rfl⟩
  · exact .inl ⟨rfl, hmaps⟩
  · refine .inr ⟨fun hr => hlast a.2 ?_, as₁, as₂', ord, rfl, fun ord' hmem => ?_, hmaps⟩
    · rw [← hr]
      simp
    · exact hlast ord' (by simp [hmem])

/-- The directory after the executions `as`. -/
structure Progress (J : Codec) (job : Job) (d₀ : Dir) (as : List (Execution job)) (d : Dir) :
    Prop where
  input : ∀ f ∈ job.files, d f = d₀ f
  either : ∀ (m : Fin job.files.length) (r : ℕ),
    d (reduceName job.jobName m r) = d₀ (reduceName job.jobName m r) ∨
      d (reduceName job.jobName m r) = job.spill J d₀ m r
  spilled : ∀ (m : Fin job.files.length) (r : ℕ), (∃ ord, (.map m, ord) ∈ as) →
    d (reduceName job.jobName m r) = job.spill J d₀ m r
  settled : ∀ r, Settled as r → ∃ ord, d (mergeName job.jobName r) =
    some (J.encodeAll (results ord job.reduceF (job.pairs J d₀ r)))

theorem progress_nil : Progress J job d₀ [] d₀ where
  input _ _ := rfl
  either _ _ := .inl rfl
  spilled := by simp
  settled := by
    rintro r ⟨as₁, as₂, ord, h, -⟩
    simp at h

theorem Progress.intermediate_eq (h : Progress J job d₀ as d)
    (hmaps : ∀ m, ∃ ord, ((.map m, ord) : Execution job) ∈ as) (r : ℕ) :
    intermediate J job.jobName r job.files.length d = job.pairs J d₀ r := by
  unfold intermediate pairs
  refine List.flatMap_congr fun m hm => ?_
  exact congrArg _ (h.spilled ⟨m, List.mem_range.mp hm⟩ r (hmaps _))

/-- A map task runs as it would have at the start. -/
theorem Progress.exec_map (h : Progress J job d₀ as d) (m : Fin job.files.length)
    (hin : d₀ (job.files.get m) ≠ none) :
    (¬ job.Crashes d₀ m → doMap J job.jobName m (job.files.get m) job.nReduce job.mapF d =
        .ok (d.scatter J (target job.jobName m job.nReduce) (job.emitted d₀ m))) ∧
      (job.Crashes d₀ m → doMap J job.jobName m (job.files.get m) job.nReduce job.mapF d =
        .error (.panic "integer divide by zero")) := by
  obtain ⟨contents, hc⟩ := Option.ne_none_iff_exists'.mp hin
  have hd : d (job.files.get m) = some contents := by rw [h.input _ (List.get_mem _ _), hc]
  rw [doMap_eq hd, ← emitted_get m hc]
  exact ⟨fun hcr => if_neg hcr, fun hcr => if_pos hcr⟩

theorem Progress.scatter_self (h : Progress J job d₀ as d) (m : Fin job.files.length) (r : ℕ) :
    d.scatter J (target job.jobName m job.nReduce) (job.emitted d₀ m)
      (reduceName job.jobName m r) = job.spill J d₀ m r := by
  have he := h.either m r
  simp only [spill, scatter_reduceName] at he ⊢
  split_ifs with hb
  · simpa [hb] using he
  · rfl

theorem scatter_other {m m' : Fin job.files.length} (hm : m' ≠ m) (r : ℕ) :
    d.scatter J (target job.jobName m job.nReduce) (job.emitted d₀ m)
      (reduceName job.jobName m' r) = d (reduceName job.jobName m' r) :=
  scatter_of_ne_reduceName fun _ hr => hm (Fin.ext (reduceName_inj hr).1)

theorem Progress.map (hap : job.Apart) (h : Progress J job d₀ as d) {m : Fin job.files.length}
    (hm : ¬ job.Crashes d₀ m) (ord : RangeOrder) :
    Progress J job d₀ (as ++ [(.map m, ord)])
      (d.scatter J (target job.jobName m job.nReduce) (job.emitted d₀ m)) where
  input f hf := by
    rw [← h.input f hf]
    refine scatter_apply_of_ne fun kv hkv => ?_
    have hn : UInt32.ofNat job.nReduce ≠ 0 := fun hn => hm ⟨hn, List.ne_nil_of_mem hkv⟩
    exact (hap.intermediate f hf m m.2 _ (partition_lt hn _)).symm
  either m' r := by
    by_cases hm : m' = m
    · subst hm
      exact .inr (h.scatter_self m' r)
    · rw [scatter_other hm]
      exact h.either m' r
  spilled m' r hmem := by
    by_cases hm : m' = m
    · subst hm
      exact h.scatter_self m' r
    · rw [scatter_other hm]
      obtain ⟨ord', hord'⟩ := hmem
      exact h.spilled m' r ⟨ord', by simpa [hm] using hord'⟩
  settled r hr := by
    rcases settled_concat hr with ⟨heq, -⟩ | ⟨-, hr⟩
    · cases heq
    · rw [scatter_of_ne_reduceName fun r' => reduceName_ne_mergeName.symm]
      exact h.settled r hr

theorem Progress.reduce (hap : job.Apart) (h : Progress J job d₀ as d) (r : Fin job.nReduce)
    (ord : RangeOrder) :
    Progress J job d₀ (as ++ [(.reduce r, ord)])
      (doReduce J ord job.jobName r job.files.length job.reduceF d) where
  input f hf := by
    rw [doReduce_eq, Function.update_of_ne (hap.result f hf r r.2)]
    exact h.input f hf
  either m r' := by
    rw [doReduce_eq, Function.update_of_ne reduceName_ne_mergeName]
    exact h.either m r'
  spilled m r' hmem := by
    rw [doReduce_eq, Function.update_of_ne reduceName_ne_mergeName]
    obtain ⟨ord', hord'⟩ := hmem
    exact h.spilled m r' ⟨ord', by simpa using hord'⟩
  settled r' hr := by
    rcases settled_concat hr with ⟨heq, hmaps⟩ | ⟨hne, hr⟩
    · obtain rfl : r = r' := Task.reduce.inj heq
      refine ⟨ord, ?_⟩
      rw [doReduce_eq, Function.update_self, h.intermediate_eq hmaps]
    · have hname : mergeName job.jobName r' ≠ mergeName job.jobName r := fun hr' =>
        hne (congrArg _ (Fin.ext (mergeName_inj hr').symm))
      rw [doReduce_eq, Function.update_of_ne hname]
      exact h.settled r' hr

theorem execAll_concat (a : Execution job) :
    job.execAll J (as ++ [a]) d₀ = job.execAll J as d₀ >>= job.exec J a := by
  unfold execAll
  rw [foldlM_concat]

theorem execAll_append (as bs : List (Execution job)) :
    job.execAll J (as ++ bs) d₀ = job.execAll J as d₀ >>= job.execAll J bs :=
  List.foldlM_append

/-- Executions none of which crashes. -/
theorem execAll_progress (hap : job.Apart) (hin : ∀ f ∈ job.files, d₀ f ≠ none)
    (as : List (Execution job))
    (hok : ∀ (m : Fin job.files.length) ord, (.map m, ord) ∈ as → ¬ job.Crashes d₀ m) :
    ∃ d, job.execAll J as d₀ = .ok d ∧ Progress J job d₀ as d := by
  induction as using List.reverseRecOn with
  | nil => exact ⟨d₀, rfl, progress_nil⟩
  | append_singleton as a ih =>
    obtain ⟨d, hrun, hd⟩ := ih fun m ord hmem => hok m ord (List.mem_append_left _ hmem)
    rw [execAll_concat, hrun]
    obtain ⟨_ | _, ord⟩ := a
    case map m =>
      have hm : ¬ job.Crashes d₀ m := hok m ord (by simp)
      exact ⟨_, (hd.exec_map m (hin _ (List.get_mem _ _))).1 hm, hd.map hap hm ord⟩
    case reduce r => exact ⟨_, rfl, hd.reduce hap r ord⟩

theorem execAll_crash (hap : job.Apart) (hin : ∀ f ∈ job.files, d₀ f ≠ none)
    (as : List (Execution job))
    (hcr : ∃ (m : Fin job.files.length) (ord : _), (.map m, ord) ∈ as ∧ job.Crashes d₀ m) :
    job.execAll J as d₀ = .error (.panic "integer divide by zero") := by
  induction as using List.reverseRecOn with
  | nil => simp at hcr
  | append_singleton as a ih =>
    rw [execAll_concat]
    by_cases hpre : ∃ (m : Fin job.files.length) (ord : _), (.map m, ord) ∈ as ∧ job.Crashes d₀ m
    · rw [ih hpre]
      rfl
    · obtain ⟨d, hrun, hd⟩ := execAll_progress (J := J) hap hin as
        fun m ord hmem hm => hpre ⟨m, ord, hmem, hm⟩
      obtain ⟨m, ord, hmem, hm⟩ := hcr
      have ha : (.map m, ord) = a := by
        rcases List.mem_append.mp hmem with h | h
        · exact absurd ⟨m, ord, h, hm⟩ hpre
        · exact List.mem_singleton.mp h
      rw [hrun, ← ha]
      exact (hd.exec_map m (hin _ (List.get_mem _ _))).2 hm

/-- An execution that did not crash. -/
theorem Progress.exec_ok (hap : job.Apart) (h : Progress J job d₀ as d) {a : Execution job}
    (hx : job.exec J a d = .ok d') :
    Progress J job d₀ (as ++ [a]) d' ∧ ∀ m ord, a = (.map m, ord) →
      d₀ (job.files.get m) ≠ none ∧ ¬ job.Crashes d₀ m := by
  obtain ⟨_ | _, ord⟩ := a
  case map m =>
    have hin : d₀ (job.files.get m) ≠ none := by
      intro hnone
      rw [← h.input _ (List.get_mem _ _)] at hnone
      simp only [exec, doMap, hnone, reduceCtorEq] at hx
    have hm : ¬ job.Crashes d₀ m := by
      intro hcr
      rw [exec, (h.exec_map m hin).2 hcr] at hx
      cases hx
    rw [exec, (h.exec_map m hin).1 hm] at hx
    obtain rfl := Except.ok.inj hx
    refine ⟨h.map hap hm ord, fun m' ord' heq => ?_⟩
    obtain rfl := Task.map.inj (congrArg Prod.fst heq)
    exact ⟨hin, hm⟩
  case reduce r =>
    obtain rfl := Except.ok.inj hx
    exact ⟨h.reduce hap r ord, fun m' ord' heq => by cases heq⟩

theorem progress_of_ok (hap : job.Apart) (as : List (Execution job)) {d : Dir}
    (hx : job.execAll J as d₀ = .ok d) :
    Progress J job d₀ as d ∧ ∀ m ord, (.map m, ord) ∈ as →
      d₀ (job.files.get m) ≠ none ∧ ¬ job.Crashes d₀ m := by
  induction as using List.reverseRecOn generalizing d with
  | nil =>
    obtain rfl := Except.ok.inj hx
    exact ⟨progress_nil, by simp⟩
  | append_singleton as a ih =>
    rw [execAll_concat, bind_eq_ok] at hx
    obtain ⟨d₁, hrun, hx⟩ := hx
    obtain ⟨hd₁, hmaps⟩ := ih hrun
    obtain ⟨hd, hlast⟩ := hd₁.exec_ok hap hx
    refine ⟨hd, fun m ord hmem => ?_⟩
    rcases List.mem_append.mp hmem with hmem | hmem
    · exact hmaps m ord hmem
    · exact hlast m ord (List.mem_singleton.mp hmem).symm

/-! ## The output -/

variable (J job) in
/-- What `merge` writes when reduce task `r` has read `ps r`. -/
def conclude (ps : ℕ → List KeyValue) : Str :=
  report (latest KeyValue.key KeyValue.value ((List.range job.nReduce).flatMap fun r =>
    (results .stored job.reduceF (ps r)).map J.coercePair))

theorem conclude_congr {ps ps' : ℕ → List KeyValue} (h : ∀ r < job.nReduce, ps r = ps' r) :
    job.conclude J ps = job.conclude J ps' := by
  unfold conclude
  congr 2
  refine List.flatMap_congr fun r hr => ?_
  rw [h r (List.mem_range.mp hr)]

theorem merge_of_settled {ps : ℕ → List KeyValue}
    (hps : ∀ r, ∀ kv ∈ ps r, J.coerce kv.key = kv.key)
    (h : ∀ r < job.nReduce, ∃ ord, d (mergeName job.jobName r) =
      some (J.encodeAll (results ord job.reduceF (ps r)))) :
    job.merge J d =
      .ok (Function.update d (outputName job.jobName) (some (job.conclude J ps))) := by
  choose! ord hord using h
  rw [Job.merge, merge_eq hord, conclude]
  congr 3
  refine report_congr fun k => ?_
  simp only [lookup_latest, valuesOf_flatMap, valuesOf_results _ _ _ (hps _)]

theorem coerced_of_mem_pairs (r : ℕ) {kv : KeyValue} (h : kv ∈ job.pairs J d₀ r) :
    J.coerce kv.key = kv.key := by
  obtain ⟨m, -, hm⟩ := List.mem_flatMap.mp h
  exact coerced_of_mem_readFile hm

variable (J job d₀) in
/-- The output once every reduce task is settled. -/
def final : Str := job.conclude J (job.pairs J d₀)

theorem Progress.outcome_eq (h : Progress J job d₀ as d) (hrun : job.execAll J as d₀ = .ok d)
    (has : ∀ r, Settled as r) : job.outcome J as d₀ = .ok (some (job.final J d₀)) := by
  have hmerge := merge_of_settled (fun r _ => coerced_of_mem_pairs r)
    fun r hr => h.settled ⟨r, hr⟩ (has _)
  simp [outcome, hrun, hmerge, bind, Except.bind, pure, Except.pure, output, final]

theorem settled_inOrder {bs : List (Execution job)} (hbs : bs.map Prod.fst = job.inOrder)
    (r : Fin job.nReduce) : Settled bs r := by
  obtain ⟨ms, rs, rfl, hms, hrs⟩ := List.map_eq_append_iff.mp hbs
  have hmem : Task.reduce r ∈ rs.map Prod.fst := by simp [hrs]
  obtain ⟨⟨_, ord⟩, hr, rfl⟩ := List.mem_map.mp hmem
  obtain ⟨rs₁, rs₂, rfl⟩ := List.append_of_mem hr
  refine ⟨ms ++ rs₁, rs₂, ord, by simp, fun ord' h => ?_, fun m => ?_⟩
  · have hnodup : ((rs₁ ++ (.reduce r, ord) :: rs₂).map Prod.fst).Nodup := by
      rw [hrs]
      exact (List.nodup_finRange _).map fun _ _ => Task.reduce.inj
    rw [List.map_append, List.map_cons, List.nodup_append] at hnodup
    exact (List.nodup_cons.mp hnodup.2.1).1 (List.mem_map.mpr ⟨_, h, rfl⟩)
  · have hm : Task.map m ∈ ms.map Prod.fst := by simp [hms]
    obtain ⟨⟨_, ord'⟩, hm, rfl⟩ := List.mem_map.mp hm
    exact ⟨ord', List.mem_append_left _ hm⟩

theorem mem_inOrder {bs : List (Execution job)} (hbs : bs.map Prod.fst = job.inOrder)
    (m : Fin job.files.length) : ∃ ord, (.map m, ord) ∈ bs := by
  have hm : Task.map m ∈ bs.map Prod.fst := by simp [hbs, inOrder]
  obtain ⟨⟨_, ord⟩, hm, rfl⟩ := List.mem_map.mp hm
  exact ⟨ord, hm⟩

/-- Whatever order the tasks were carried out in and however often, the output is the one of the
tasks in order. -/
theorem outcome_eq_inOrder (J : Codec) (job : Job) {d₀ : Dir} (hin : ∀ f ∈ job.files, d₀ f ≠ none)
    (hfresh : job.NoLeftovers d₀) {as bs : List (Execution job)} (has : ∀ r, Settled as r)
    (hbs : bs.map Prod.fst = job.inOrder) :
    (∀ o, job.outcome J bs d₀ = .ok o → job.outcome J as d₀ = .ok o) ∧
      (0 < job.nReduce → job.outcome J as d₀ = job.outcome J bs d₀) := by
  have hap := hfresh.apart hin
  by_cases hcr : ∃ m : Fin job.files.length, job.Crashes d₀ m
  · obtain ⟨m, hm⟩ := hcr
    have hfail : ∀ cs : List (Execution job), (∃ ord, (.map m, ord) ∈ cs) →
        job.outcome J cs d₀ = .error (.panic "integer divide by zero") := by
      rintro cs ⟨ord, hmem⟩
      simp [outcome, execAll_crash hap hin cs ⟨m, ord, hmem, hm⟩, bind, Except.bind]
    have hbs' := hfail bs (mem_inOrder hbs m)
    refine ⟨fun o ho => by simp [hbs'] at ho, fun hn => ?_⟩
    obtain ⟨as₁, as₂, ord, rfl, -, hmaps⟩ := has ⟨0, hn⟩
    obtain ⟨ord', hord'⟩ := hmaps m
    rw [hbs', hfail _ ⟨ord', List.mem_append_left _ hord'⟩]
  · have hok : ∀ cs : List (Execution job), (∀ r, Settled cs r) →
        job.outcome J cs d₀ = .ok (some (job.final J d₀)) := by
      intro cs hcs
      obtain ⟨d, hrun, hd⟩ := execAll_progress (J := J) hap hin cs
        fun m _ _ hm => hcr ⟨m, hm⟩
      exact hd.outcome_eq hrun hcs
    rw [hok as has, hok bs (settled_inOrder hbs)]
    exact ⟨fun _ h => h, fun _ => rfl⟩

end Job

/-! ## A job -/

/-- Counts the small letters of its files. -/
def letterCount (files : List Str) (nReduce : ℕ) : Job where
  jobName := ascii "letters"
  files := files
  nReduce := nReduce
  mapF _ contents := (contents.filter fun b => 97 ≤ b ∧ b ≤ 122).map fun b => ⟨[b], ascii "1"⟩
  reduceF _ values := itoa values.length

/-- A directory with two files. -/
def shelf : Dir := fun name =>
  if name = ascii "a.txt" then some (ascii "banana")
  else if name = ascii "b.txt" then some (ascii "nab") else none

def letters : Job := letterCount [ascii "a.txt", ascii "b.txt"] 1

/-- One file and two reduce tasks; `a` belongs to the first and `b` to the second. -/
def oneLetter : Job := letterCount [ascii "a.txt"] 2

theorem shelf_input : ∀ f ∈ letters.files, shelf f ≠ none := by decide +kernel

theorem shelf_noLeftovers : letters.NoLeftovers shelf where
  intermediate := by decide +kernel
  result := by decide +kernel
  output := by decide +kernel

/-- The reduce task too early, a map task twice, the reduce task again. -/
def detour : List (Execution letters) :=
  [(.reduce ⟨0, Nat.zero_lt_one⟩, .stored), (.map ⟨1, Nat.one_lt_two⟩, .stored),
    (.map ⟨0, Nat.zero_lt_two⟩, .stored), (.map ⟨1, Nat.one_lt_two⟩, .stored),
    (.reduce ⟨0, Nat.zero_lt_one⟩, .stored)]

theorem detour_settled (r : Fin letters.nReduce) : Job.Settled detour r := by
  obtain rfl : r = ⟨0, Nat.zero_lt_one⟩ := Fin.ext (Nat.lt_one_iff.mp r.2)
  refine ⟨detour.take 4, [], .stored, rfl, by simp, fun m => ?_⟩
  obtain ⟨m, hm⟩ := m
  have hm : m = 0 ∨ m = 1 := by
    have : m < 2 := hm
    omega
  rcases hm with rfl | rfl <;> exact ⟨.stored, by simp [detour]⟩

theorem outcome_detour :
    letters.outcome printable detour shelf = .ok (some (ascii "a: 4\nb: 2\nn: 3\n")) := by
  have hbs : (letters.inOrder.map fun t => ((t, .stored) : Execution letters)).map Prod.fst =
      letters.inOrder := by simp [Function.comp_def]
  refine (letters.outcome_eq_inOrder printable shelf_input shelf_noLeftovers detour_settled
    hbs).1 _ ?_
  decide +kernel

end DistSystem.MapReduce
