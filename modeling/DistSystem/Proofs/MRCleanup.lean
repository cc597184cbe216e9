import DistSystem.Proofs.MRLeftover

/-!
# Removing the files of a job

`CleanupFiles` removes a file for every map task and every partition and ends the process over one
that is not there, while a map task creates a file only for a partition it has a key for. So the
files of a run are complete, and can be removed, exactly if each map task has a key for every
partition, or finds an empty file there.
-/

namespace DistSystem.MapReduce

open Grouping

theorem foldlM_removeFile {names : List Str} (hnd : names.Nodup) {d d' : Dir} :
    names.foldlM removeFile d = .ok d' ↔
      (∀ n ∈ names, d n ≠ none) ∧ d' = fun n => if n ∈ names then none else d n := by
  induction names generalizing d with
  | nil => simp [pure, Except.pure, eq_comm]
  | cons name names ih =>
    obtain ⟨hnot, hnd⟩ := List.nodup_cons.mp hnd
    rw [List.foldlM_cons, bind_eq_ok]
    constructor
    · rintro ⟨d₁, hd₁, hrest⟩
      unfold removeFile at hd₁
      split at hd₁
      · cases hd₁
      · rename_i bytes hbytes
        obtain rfl := Except.ok.inj hd₁
        obtain ⟨hall, rfl⟩ := (ih hnd).mp hrest
        refine ⟨fun n hn => ?_, funext fun n => ?_⟩
        · rcases List.mem_cons.mp hn with rfl | hn
          · simp [hbytes]
          · have := hall n hn
            rwa [Function.update_of_ne (ne_of_mem_of_not_mem hn hnot)] at this
        · by_cases hn : n = name
          · simp [hn]
          · simp [hn]
    · rintro ⟨hall, rfl⟩
      obtain ⟨bytes, hbytes⟩ := Option.ne_none_iff_exists'.mp (hall name List.mem_cons_self)
      refine ⟨Function.update d name none, by simp [removeFile, hbytes], (ih hnd).mpr ⟨?_, ?_⟩⟩
      · intro n hn
        rw [Function.update_of_ne (ne_of_mem_of_not_mem hn hnot)]
        exact hall n (List.mem_cons_of_mem _ hn)
      · funext n
        by_cases hn : n = name
        · simp [hn]
        · simp [hn]

namespace Job

variable (J : Codec) (job : Job)

/-- The files that `CleanupFiles` removes, in its order. -/
def ownFiles : List Str :=
  ((List.range job.files.length).flatMap fun i =>
      (List.range job.nReduce).map (reduceName job.jobName i)) ++
    ((List.range job.nReduce).map (mergeName job.jobName) ++ [outputName job.jobName])

variable {J job} {d d₀ e : Dir}

theorem foldlM_rows {α : Type} (f : ℕ → List α) (g : Dir → α → Except Crash Dir) (l : List ℕ)
    (d : Dir) :
    l.foldlM (fun d i => (f i).foldlM g d) d = (l.flatMap f).foldlM g d := by
  induction l generalizing d with
  | nil => rfl
  | cons i l ih =>
    rw [List.foldlM_cons, List.flatMap_cons, List.foldlM_append]
    congr 1
    funext d'
    exact ih d'

theorem cleanupFiles_eq : job.cleanupFiles d = job.ownFiles.foldlM removeFile d := by
  unfold cleanupFiles ownFiles
  rw [List.foldlM_append, ← foldlM_rows]
  simp only [List.foldlM_map, List.foldlM_append, List.foldlM_cons, List.foldlM_nil, bind_pure]

theorem mem_ownFiles {name : Str} : name ∈ job.ownFiles ↔
    (∃ m < job.files.length, ∃ r < job.nReduce, name = reduceName job.jobName m r) ∨
      (∃ r < job.nReduce, name = mergeName job.jobName r) ∨ name = outputName job.jobName := by
  simp [ownFiles, eq_comm]

theorem nodup_ownFiles : job.ownFiles.Nodup := by
  refine List.nodup_append.mpr ⟨List.nodup_flatMap.mpr ⟨fun m _ => ?_, ?_⟩,
    List.nodup_append.mpr ⟨?_, List.nodup_singleton _, ?_⟩, ?_⟩
  · exact List.nodup_range.map fun _ _ h => (reduceName_inj h).2
  · refine List.nodup_range.imp fun hne => ?_
    simp only [Function.onFun, List.disjoint_left, List.mem_map]
    rintro _ ⟨r, -, rfl⟩ ⟨r', -, h⟩
    exact hne (reduceName_inj h).1.symm
  · exact List.nodup_range.map fun _ _ h => mergeName_inj h
  · rintro a ha b hb rfl
    obtain ⟨r, -, rfl⟩ := List.mem_map.mp ha
    exact mergeName_ne_outputName (List.mem_singleton.mp hb)
  · rintro a ha b hb rfl
    obtain ⟨m, -, ha⟩ := List.mem_flatMap.mp ha
    obtain ⟨r, -, rfl⟩ := List.mem_map.mp ha
    rcases List.mem_append.mp hb with hb | hb
    · obtain ⟨r', -, h⟩ := List.mem_map.mp hb
      exact reduceName_ne_mergeName h.symm
    · exact reduceName_ne_outputName (List.mem_singleton.mp hb)

/-- With the result files and the output there, the files can be removed just when every
intermediate file is there. -/
theorem cleanupFiles_iff (hres : ∀ r < job.nReduce, d (mergeName job.jobName r) ≠ none)
    (hout : d (outputName job.jobName) ≠ none) :
    (∃ e, job.cleanupFiles d = .ok e ∧ job.NoLeftovers e) ↔
      ∀ m < job.files.length, ∀ r < job.nReduce, d (reduceName job.jobName m r) ≠ none := by
  simp only [cleanupFiles_eq, foldlM_removeFile nodup_ownFiles]
  constructor
  · rintro ⟨e, ⟨hall, -⟩, -⟩ m hm r hr
    exact hall _ (mem_ownFiles.mpr (.inl ⟨m, hm, r, hr, rfl⟩))
  · refine fun hint => ⟨_, ⟨fun name hname => ?_, rfl⟩, ?_, ?_, ?_⟩
    · rcases mem_ownFiles.mp hname with ⟨m, hm, r, hr, rfl⟩ | ⟨r, hr, rfl⟩ | rfl
      · exact hint m hm r hr
      · exact hres r hr
      · exact hout
    · exact fun m hm r hr => if_pos (mem_ownFiles.mpr (.inl ⟨m, hm, r, hr, rfl⟩))
    · exact fun r hr => if_pos (mem_ownFiles.mpr (.inr (.inl ⟨r, hr, rfl⟩)))
    · exact if_pos (mem_ownFiles.mpr (.inr (.inr rfl)))

/-! ## After a run -/

variable (J job) in
/-- Every intermediate file is there, with the pairs of its map task for its reduce task. -/
def Filed (emitted : ℕ → List KeyValue) (d : Dir) : Prop :=
  ∀ m < job.files.length, ∀ r < job.nReduce, d (reduceName job.jobName m r) =
    some (J.encodeAll (bucket job.nReduce r (emitted m)))

variable (J job) in
/-- The pairs of map task `m` in a sequential run. -/
def emittedInTurn (d : Dir) (m : ℕ) : List KeyValue :=
  match job.beforeMap J d m, job.files[m]? with
  | .ok D, some f => job.mapF f (readBuf ((D f).getD []))
  | _, _ => []

variable (job) in
/-- Each map task has a key for every partition, or finds an empty file there. -/
def Covered (emitted : ℕ → List KeyValue) (d : Dir) : Prop :=
  ∀ m < job.files.length, ∀ r < job.nReduce,
    bucket job.nReduce r (emitted m) ≠ [] ∨ d (reduceName job.jobName m r) = some []

/-- `d` and `e` are the directories after the map phase and after the run. -/
theorem filed_and_removed_iff {emitted : ℕ → List KeyValue}
    (hd : ∀ m < job.files.length, ∀ r, d (reduceName job.jobName m r) =
      if bucket job.nReduce r (emitted m) = [] then d₀ (reduceName job.jobName m r)
      else some (J.encodeAll (bucket job.nReduce r (emitted m))))
    (hint : ∀ m r, e (reduceName job.jobName m r) = d (reduceName job.jobName m r))
    (hres : ∀ r < job.nReduce, e (mergeName job.jobName r) ≠ none)
    (hout : e (outputName job.jobName) ≠ none) :
    (job.Filed J emitted d ∧ ∃ e', job.cleanupFiles e = .ok e' ∧ job.NoLeftovers e') ↔
      job.Covered emitted d₀ := by
  have hfiled : job.Filed J emitted d ↔ job.Covered emitted d₀ := by
    refine forall₂_congr fun m hm => forall₂_congr fun r _ => ?_
    rw [hd m hm r]
    by_cases hb : bucket job.nReduce r (emitted m) = []
    · rw [if_pos hb, hb]
      exact ⟨.inr, fun h => h.resolve_left (· rfl)⟩
    · rw [if_neg hb]
      exact ⟨fun _ => .inl hb, fun _ => rfl⟩
  rw [cleanupFiles_iff hres hout]
  refine ⟨fun h => hfiled.mp h.1, fun h => ⟨hfiled.mpr h, fun m hm r hr => ?_⟩⟩
  rw [hint, hfiled.mpr h m hm r hr]
  exact Option.some_ne_none _

/-- What a sequential map phase makes of an intermediate file. -/
theorem beforeMap_reduceName : ∀ {m : ℕ} {D : Dir}, m ≤ job.files.length →
    job.beforeMap J d m = .ok D → ∀ m' r, D (reduceName job.jobName m' r) =
      if m' < m ∧ bucket job.nReduce r (job.emittedInTurn J d m') ≠ []
      then some (J.encodeAll (bucket job.nReduce r (job.emittedInTurn J d m')))
      else d (reduceName job.jobName m' r)
  | 0, D, _, hD, m', r => by
    obtain rfl : d = D := by simpa [beforeMap, pure, Except.pure] using hD
    simp
  | m + 1, D₁, hm, hD₁, m', r => by
    obtain ⟨f, hf⟩ : ∃ f, job.files[m]? = some f := ⟨job.files[m], by simp⟩
    rw [beforeMap_succ hf, bind_eq_ok] at hD₁
    obtain ⟨D, hD, hD₁⟩ := hD₁
    have ih := beforeMap_reduceName (by omega) hD m' r
    cases hc : D f with
    | none => simp [doMap, hc] at hD₁
    | some contents =>
      have hem : job.emittedInTurn J d m = job.mapF f (readBuf contents) := by
        simp [emittedInTurn, hD, hf, hc]
      rw [doMap_eq hc] at hD₁
      split_ifs at hD₁
      rw [← Except.ok.inj hD₁]
      by_cases hmm : m' = m
      · subst hmm
        rw [scatter_reduceName, ih, hem]
        simp
      · rw [scatter_of_ne_reduceName fun _ hr => hmm (reduceName_inj hr).1, ih]
        simp only [show m' < m + 1 ↔ m' < m by omega]

/-- After a run the intermediate files are complete, and can be removed with the others, exactly if
each map task has a key for every partition or finds an empty file there. This is so for a
sequential run, and for tasks carried out in any order and any number of times if no input file has
the name of a file of the job. -/
theorem files_complete_iff (J : Codec) (job : Job) (hn : 0 < job.nReduce) :
    (∀ {ord : ℕ → RangeOrder} {d D e : Dir}, job.inTurn J ord .map d = .ok D →
      job.sequential J ord d = .ok e →
        ((job.Filed J (job.emittedInTurn J d) D ∧
            ∃ e', job.cleanupFiles e = .ok e' ∧ job.NoLeftovers e') ↔
          job.Covered (job.emittedInTurn J d) d)) ∧
    (∀ {as : List (Execution job)} {d D e : Dir}, job.Apart → (∀ r, Settled as r) →
      job.execAll J as d = .ok D → job.merge J D = .ok e →
        ((job.Filed J (job.emitted d) D ∧
            ∃ e', job.cleanupFiles e = .ok e' ∧ job.NoLeftovers e') ↔
          job.Covered (job.emitted d) d)) := by
  constructor
  · intro ord d D e hD he
    rw [← beforeMap_length] at hD
    rw [sequential_of_maps ord hD] at he
    obtain rfl := Except.ok.inj he
    refine filed_and_removed_iff (fun m hm r => ?_) (fun m r => ?_) (fun r hr => ?_) ?_
    · rw [beforeMap_reduceName le_rfl hD]
      by_cases hb : bucket job.nReduce r (job.emittedInTurn J d m) = [] <;> simp [hb, hm]
    · rw [Function.update_of_ne reduceName_ne_outputName, reduced_reduceName]
    · rw [Function.update_of_ne mergeName_ne_outputName, reduced_mergeName ord D hr]
      exact Option.some_ne_none _
    · simp
  · intro as d D e hap has hD he
    obtain ⟨hprog, -⟩ := progress_of_ok hap as hD
    obtain ⟨as₁, as₂, ord, heq, -, hmaps⟩ := has ⟨0, hn⟩
    rw [merge_of_settled (fun r _ => coerced_of_mem_pairs r)
      fun r hr => hprog.settled ⟨r, hr⟩ (has _)] at he
    obtain rfl := Except.ok.inj he
    refine filed_and_removed_iff (fun m hm r => ?_) (fun m r => ?_) (fun r hr => ?_) ?_
    · obtain ⟨ord', hmem⟩ := hmaps ⟨m, hm⟩
      rw [hprog.spilled ⟨m, hm⟩ r ⟨ord', heq ▸ List.mem_append_left _ hmem⟩]
      exact scatter_reduceName _
    · exact Function.update_of_ne reduceName_ne_outputName _ _
    · obtain ⟨ord', hfile⟩ := hprog.settled ⟨r, hr⟩ (has _)
      rw [Function.update_of_ne mergeName_ne_outputName, hfile]
      exact Option.some_ne_none _
    · simp

end Job

/-- With one partition and a letter in every file, nothing stays. -/
theorem letters_files_complete :
    ∃ D e e', letters.inTurn printable (fun _ => .stored) .map shelf = .ok D ∧
      letters.sequential printable (fun _ => .stored) shelf = .ok e ∧
      letters.Filed printable (letters.emittedInTurn printable shelf) D ∧
      letters.cleanupFiles e = .ok e' ∧ letters.NoLeftovers e' := by
  have hrun : (letters.sequential printable (fun _ => .stored) shelf).map letters.output =
      .ok (some (ascii "a: 4\nb: 2\nn: 3\n")) := by decide +kernel
  obtain ⟨e, he, -⟩ := map_eq_ok hrun
  obtain ⟨D, hD⟩ := Job.maps_of_sequential he
  rw [Job.beforeMap_length fun _ => .stored] at hD
  have hcov : letters.Covered (letters.emittedInTurn printable shelf) shelf := by
    intro m hm r hr
    obtain rfl : r = 0 := Nat.lt_one_iff.mp hr
    have hm : m = 0 ∨ m = 1 := by
      have : m < 2 := hm
      omega
    rcases hm with rfl | rfl <;> exact .inl (by decide +kernel)
  obtain ⟨hfiled, e', he', hnone⟩ :=
    ((letters.files_complete_iff printable Nat.zero_lt_one).1 hD he).mpr hcov
  exact ⟨D, e, e', hD, he, hfiled, he', hnone⟩

/-- The only letter belongs to the first of two partitions; there is no file for the other, and
`CleanupFiles` ends the process over it. -/
theorem oneLetter_not_removed :
    (oneLetter.sequential printable (fun _ => .stored) (note "a")).map
        (fun e => e (reduceName (ascii "letters") 0 1)) = .ok none ∧
      (oneLetter.sequential printable (fun _ => .stored) (note "a") >>= oneLetter.cleanupFiles).map
          (fun e => e (outputName (ascii "letters"))) =
        .error (.fatal "CleanupFiles " (reduceName (ascii "letters") 0 1)) := by
  decide +kernel

end DistSystem.MapReduce
