import DistSystem.Proofs.MRSequential

/-!
# Files left behind by an earlier run

A map task creates a file only for a partition it has a key for, while a reduce task reads every
file that is there. An old file of a partition that gets no key is read as if it were new, and a run
forgets what was in the directory exactly if each map task has a key for every partition.
-/

namespace DistSystem.MapReduce

open Grouping

namespace Job

variable (J : Codec) (job : Job)

/-- The directory that map task `m` of a sequential run finds. -/
def beforeMap (d : Dir) (m : ℕ) : Except Crash Dir :=
  (job.files.zipIdx.take m).foldlM
    (fun d fi => doMap J job.jobName fi.2 fi.1 job.nReduce job.mapF d) d

/-- Map task `m` has a key for reduce task `r`. -/
def Overwrites (d : Dir) (m r : ℕ) : Prop :=
  ∃ D f contents, job.beforeMap J d m = .ok D ∧ job.files[m]? = some f ∧ D f = some contents ∧
    bucket job.nReduce r (job.mapF f (readBuf contents)) ≠ []

variable {J job} {d d' D D' : Dir} {A : Set Str}

theorem beforeMap_succ {m : ℕ} {f : Str} (hf : job.files[m]? = some f) :
    job.beforeMap J d (m + 1) = job.beforeMap J d m >>=
      doMap J job.jobName m f job.nReduce job.mapF := by
  have hz : job.files.zipIdx[m]? = some (f, m) := by simp [hf]
  unfold beforeMap
  rw [List.take_add_one, hz, Option.toList_some, foldlM_concat]

theorem beforeMap_length (ord : ℕ → RangeOrder) :
    job.beforeMap J d job.files.length = job.inTurn J ord .map d := by
  rw [beforeMap, inTurn, List.take_of_length_le (by simp)]

/-- Two runs whose directories were the same on `A` at the start, before map task `m`. -/
structure Alike (J : Codec) (job : Job) (A : Set Str) (d d' : Dir) (m : ℕ) (D D' : Dir) : Prop where
  same : A.EqOn D D'
  written : ∀ m' < m, ∀ r, job.Overwrites J d m' r →
    D (reduceName job.jobName m' r) = D' (reduceName job.jobName m' r)
  kept : ∀ m' r, (m' < m → ¬ job.Overwrites J d m' r) →
    D' (reduceName job.jobName m' r) = d' (reduceName job.jobName m' r)

theorem Alike.succ {m : ℕ} {f contents : Str} (h : Alike J job A d d' m D D')
    (hD : job.beforeMap J d m = .ok D) (hf : job.files[m]? = some f) (hc : D f = some contents) :
    Alike J job A d d' (m + 1)
      (D.scatter J (target job.jobName m job.nReduce) (job.mapF f (readBuf contents)))
      (D'.scatter J (target job.jobName m job.nReduce) (job.mapF f (readBuf contents))) := by
  have hover : ∀ r, job.Overwrites J d m r ↔
      bucket job.nReduce r (job.mapF f (readBuf contents)) ≠ [] := by
    intro r
    constructor
    · rintro ⟨D₁, f₁, c₁, hD₁, hf₁, hc₁, hb⟩
      rw [hD, Except.ok.injEq] at hD₁
      rw [hf, Option.some.injEq] at hf₁
      subst hD₁ hf₁
      rw [hc, Option.some.injEq] at hc₁
      subst hc₁
      exact hb
    · exact fun hb => ⟨D, f, contents, hD, hf, hc, hb⟩
  have hother : ∀ {D : Dir} {m' : ℕ} (r : ℕ), m' ≠ m →
      D.scatter J (target job.jobName m job.nReduce) (job.mapF f (readBuf contents))
        (reduceName job.jobName m' r) = D (reduceName job.jobName m' r) := fun r hm =>
    scatter_of_ne_reduceName fun _ hr => hm (reduceName_inj hr).1
  refine ⟨fun name hname => ?_, fun m' hm' r ho => ?_, fun m' r ho => ?_⟩
  · simp only [Dir.scatter, h.same hname]
  · by_cases hm : m' = m
    · subst hm
      rw [scatter_reduceName, scatter_reduceName, if_neg ((hover r).mp ho),
        if_neg ((hover r).mp ho)]
    · rw [hother r hm, hother r hm]
      exact h.written m' (by omega) r ho
  · by_cases hm : m' = m
    · subst hm
      have hnil := not_not.mp (mt (hover r).mpr (ho (by omega)))
      rw [scatter_reduceName, if_pos hnil]
      exact h.kept m' r fun hlt => absurd hlt (lt_irrefl _)
    · rw [hother r hm]
      exact h.kept m' r fun hlt => ho (by omega)

/-- The map phase does the same in both runs. -/
theorem beforeMap_alike (hA : ∀ f ∈ job.files, f ∈ A) (h : A.EqOn d d') :
    ∀ {m : ℕ} {D : Dir}, m ≤ job.files.length → job.beforeMap J d m = .ok D →
      ∃ D', job.beforeMap J d' m = .ok D' ∧ Alike J job A d d' m D D'
  | 0, D, _, hD => by
    obtain rfl : d = D := by simpa [beforeMap, pure, Except.pure] using hD
    exact ⟨d', rfl, h, fun m' hm' => absurd hm' (Nat.not_lt_zero _), fun _ _ _ => rfl⟩
  | m + 1, D₁, hm, hD₁ => by
    obtain ⟨f, hf⟩ : ∃ f, job.files[m]? = some f := ⟨job.files[m], by simp⟩
    rw [beforeMap_succ hf, bind_eq_ok] at hD₁
    obtain ⟨D, hD, hD₁⟩ := hD₁
    obtain ⟨D', hD', hal⟩ := beforeMap_alike hA h (by omega) hD
    cases hc : D f with
    | none => simp [doMap, hc] at hD₁
    | some contents =>
      have hc' : D' f = some contents := by
        rw [← hal.same (hA f (List.mem_of_getElem? hf)), hc]
      rw [doMap_eq hc] at hD₁
      split_ifs at hD₁ with hz
      rw [Except.ok.injEq] at hD₁
      subst hD₁
      refine ⟨_, ?_, hal.succ hD hf hc⟩
      rw [beforeMap_succ hf, hD']
      exact (doMap_eq hc').trans (if_neg hz)

/-! ## After the map phase -/

variable (J job) in
/-- The directory after the first `n` reduce tasks. -/
def reduced (ord : ℕ → RangeOrder) (D : Dir) (n : ℕ) : Dir :=
  (List.range n).foldl
    (fun d i => doReduce J (ord i) job.jobName i job.files.length job.reduceF d) D

theorem reduced_succ (ord : ℕ → RangeOrder) (D : Dir) (n : ℕ) :
    job.reduced J ord D (n + 1) =
      doReduce J (ord n) job.jobName n job.files.length job.reduceF (job.reduced J ord D n) := by
  simp [reduced, List.range_succ]

theorem reduced_reduceName (ord : ℕ → RangeOrder) (D : Dir) (n m r : ℕ) :
    job.reduced J ord D n (reduceName job.jobName m r) = D (reduceName job.jobName m r) := by
  induction n with
  | zero => rfl
  | succ n ih =>
    rw [reduced_succ, doReduce_eq, Function.update_of_ne reduceName_ne_mergeName, ih]

theorem reduced_mergeName (ord : ℕ → RangeOrder) (D : Dir) {n r : ℕ} (hr : r < n) :
    job.reduced J ord D n (mergeName job.jobName r) = some (J.encodeAll
      (results (ord r) job.reduceF (intermediate J job.jobName r job.files.length D))) := by
  induction n with
  | zero => omega
  | succ n ih =>
    rw [reduced_succ, doReduce_eq]
    by_cases h : r = n
    · subst h
      rw [Function.update_self]
      simp only [intermediate, reduced_reduceName]
    · rw [Function.update_of_ne fun hne => h (mergeName_inj hne), ih (by omega)]

/-- A sequential run ends well if its map phase does, and its output is what `merge` makes of the
intermediate files. -/
theorem sequential_of_maps (ord : ℕ → RangeOrder)
    (hD : job.beforeMap J d job.files.length = .ok D) :
    job.sequential J ord d = .ok (Function.update (job.reduced J ord D job.nReduce)
      (outputName job.jobName)
      (some (job.conclude J fun r => intermediate J job.jobName r job.files.length D))) := by
  have hresult : ∀ r < job.nReduce, ∃ ord', job.reduced J ord D job.nReduce
      (mergeName job.jobName r) = some (J.encodeAll (results ord' job.reduceF
        (intermediate J job.jobName r job.files.length D))) :=
    fun r hr => ⟨ord r, reduced_mergeName ord D hr⟩
  rw [sequential, run, ← beforeMap_length, hD]
  exact merge_of_settled (fun _ _ => coerced_of_mem_intermediate) hresult

theorem output_of_maps (ord : ℕ → RangeOrder) (hD : job.beforeMap J d job.files.length = .ok D) :
    ∃ e, job.sequential J ord d = .ok e ∧ job.output e =
      some (job.conclude J fun r => intermediate J job.jobName r job.files.length D) :=
  ⟨_, sequential_of_maps ord hD, Function.update_self ..⟩

theorem maps_of_sequential {ord : ℕ → RangeOrder} {e : Dir} (h : job.sequential J ord d = .ok e) :
    ∃ D, job.beforeMap J d job.files.length = .ok D := by
  rw [sequential, run, ← beforeMap_length, bind_eq_ok] at h
  obtain ⟨D, hD, -⟩ := h
  exact ⟨D, hD⟩

/-- A key that some reduce task has read shows in the output. -/
theorem length_le_conclude (J : Codec) (job : Job) (ps : ℕ → List KeyValue) {r : ℕ}
    (hr : r < job.nReduce) (hps : ∀ kv ∈ ps r, J.coerce kv.key = kv.key) {kv : KeyValue}
    (hkv : kv ∈ ps r) : kv.key.length ≤ (job.conclude J ps).length := by
  have hvalues : valuesOf KeyValue.key KeyValue.value kv.key (ps r) ≠ [] := by
    rw [ne_eq, valuesOf_eq_nil_iff, not_not]
    exact List.mem_map_of_mem hkv
  have hmem : kv.key ∈ sortedKeys (latest KeyValue.key KeyValue.value
      ((List.range job.nReduce).flatMap fun r =>
        (results .stored job.reduceF (ps r)).map J.coercePair)) := by
    rw [mem_sortedKeys, ← AList.lookup_isSome, lookup_latest, valuesOf_flatMap,
      List.getLast?_isSome, ne_eq, List.flatMap_eq_nil_iff]
    intro hnil
    have := hnil r (List.mem_range.mpr hr)
    rw [valuesOf_results _ _ _ hps, if_neg hvalues] at this
    exact absurd this (List.cons_ne_nil _ _)
  obtain ⟨ks, ks', hks⟩ := List.append_of_mem hmem
  rw [conclude, report, hks]
  simp only [List.flatMap_append, List.flatMap_cons, List.length_append, line]
  omega

/-- A pair with a key of `n` letters. -/
def longPair (n : ℕ) : KeyValue := ⟨List.replicate n 97, []⟩

theorem coercePair_longPair (J : Codec) (n : ℕ) : J.coercePair (longPair n) = longPair n := by
  have hkey : ValidUtf8 (longPair n).key := validUtf8_of_ascii fun b hb => by
    rw [List.eq_of_mem_replicate hb]
    decide
  have hvalue : ValidUtf8 (longPair n).value := ⟨[], rfl⟩
  simp [Codec.coercePair, J.coerce_of_valid hkey, J.coerce_of_valid hvalue]

/-- A file that is not written again may hold a key that is longer than the output without it. -/
theorem exists_leftover (hD : job.beforeMap J d job.files.length = .ok D) {m r : ℕ}
    (hm : m < job.files.length) (hr : r < job.nReduce)
    (hinput : reduceName job.jobName m r ∉ job.files) (hover : ¬ job.Overwrites J d m r)
    (ord : ℕ → RangeOrder) :
    ∃ d' e', (∀ f ∈ job.files, d' f = d f) ∧ job.sequential J ord d' = .ok e' ∧
      job.output e' ≠
        some (job.conclude J fun r => intermediate J job.jobName r job.files.length D) := by
  set out := job.conclude J fun r => intermediate J job.jobName r job.files.length D
  set d' := Function.update d (reduceName job.jobName m r)
    (some (J.encodeAll [longPair (out.length + 1)])) with hd'
  have hoff : ({reduceName job.jobName m r}ᶜ : Set Str).EqOn d d' := fun name hname =>
    (Function.update_of_ne hname _ _).symm
  have hfiles : ∀ f ∈ job.files, f ∈ ({reduceName job.jobName m r}ᶜ : Set Str) := by
    rintro f hf rfl
    exact hinput hf
  obtain ⟨D', hD', hal⟩ := beforeMap_alike hfiles hoff le_rfl hD
  obtain ⟨e', he', hout'⟩ := output_of_maps ord hD'
  refine ⟨d', e', fun f hf => (hoff (hfiles f hf)).symm, he', fun heq => ?_⟩
  have hread : longPair (out.length + 1) ∈ intermediate J job.jobName r job.files.length D' := by
    refine List.mem_flatMap.mpr ⟨m, List.mem_range.mpr hm, ?_⟩
    rw [hal.kept m r fun _ => hover, hd', Function.update_self, readFile,
      Codec.decodeInto_encodeAll, List.map_singleton, coercePair_longPair]
    exact List.mem_singleton_self _
  have hlen := length_le_conclude J job
    (fun r => intermediate J job.jobName r job.files.length D') hr
    (fun _ => coerced_of_mem_intermediate) hread
  rw [hout', Option.some.injEq] at heq
  rw [heq, longPair, List.length_replicate] at hlen
  omega

/-- A run from any directory with the same input files has the same output if and only if every map
task has a key for every reduce task; a file that is itself an input needs none. -/
theorem output_of_inputs_iff (J : Codec) (job : Job) {ord : ℕ → RangeOrder} {d e : Dir}
    (hrun : job.sequential J ord d = .ok e) :
    (∀ d' ord', (∀ f ∈ job.files, d' f = d f) →
        ∃ e', job.sequential J ord' d' = .ok e' ∧ job.output e' = job.output e) ↔
      ∀ m < job.files.length, ∀ r < job.nReduce,
        reduceName job.jobName m r ∈ job.files ∨ job.Overwrites J d m r := by
  obtain ⟨D, hD⟩ := maps_of_sequential hrun
  obtain ⟨e₁, he₁, hout⟩ := output_of_maps ord hD
  obtain rfl : e₁ = e := by simpa [he₁] using hrun
  constructor
  · intro hsame m hm r hr
    by_contra hnot
    obtain ⟨hinput, hover⟩ := not_or.mp hnot
    obtain ⟨d', e', hfiles, he', hne⟩ := exists_leftover hD hm hr hinput hover ord
    obtain ⟨e₂, he₂, hout₂⟩ := hsame d' ord hfiles
    obtain rfl : e₂ = e' := by simpa [he₂] using he'
    exact hne (hout₂.trans hout)
  · intro hall d' ord' hinput
    obtain ⟨D', hD', hal⟩ := beforeMap_alike (A := {f | f ∈ job.files}) (fun f hf => hf)
      (fun f hf => (hinput f hf).symm) le_rfl hD
    obtain ⟨e', he', hout'⟩ := output_of_maps ord' hD'
    refine ⟨e', he', ?_⟩
    rw [hout, hout']
    congr 1
    refine conclude_congr fun r hr => List.flatMap_congr fun m hm => congrArg _ ?_
    rcases hall m (List.mem_range.mp hm) r hr with hf | ho
    · exact (hal.same hf).symm
    · exact (hal.written m (List.mem_range.mp hm) r ho).symm

end Job

/-! ## Two runs on the same input -/

def note (contents : String) : Dir := fun name =>
  if name = ascii "a.txt" then some (ascii contents) else none

/-- The directory after a run on the letter `b`, with another input now. -/
def reused : Dir :=
  match oneLetter.sequential printable (fun _ => .stored) (note "b") with
  | .ok d => Function.update d (ascii "a.txt") (some (ascii "a"))
  | .error _ => note "a"

/-- The count of the earlier run is in the output again. -/
theorem reused_output :
    (∀ f ∈ oneLetter.files, reused f = note "a" f) ∧
      (oneLetter.sequential printable (fun _ => .stored) (note "a")).map oneLetter.output =
        .ok (some (ascii "a: 1\n")) ∧
      (oneLetter.sequential printable (fun _ => .stored) reused).map oneLetter.output =
        .ok (some (ascii "a: 1\nb: 1\n")) := by
  decide +kernel

/-- With one reduce task and a letter in every file nothing old is read. -/
theorem letters_output_of_inputs :
    (letters.sequential printable (fun _ => .stored) shelf).map letters.output =
        .ok (some (ascii "a: 4\nb: 2\nn: 3\n")) ∧
      ∀ d ord, (∀ f ∈ letters.files, d f = shelf f) → ∃ e,
        letters.sequential printable ord d = .ok e ∧
          letters.output e = some (ascii "a: 4\nb: 2\nn: 3\n") := by
  have hrun : (letters.sequential printable (fun _ => .stored) shelf).map letters.output =
      .ok (some (ascii "a: 4\nb: 2\nn: 3\n")) := by decide +kernel
  refine ⟨hrun, ?_⟩
  obtain ⟨e, he, hout⟩ := map_eq_ok hrun
  rw [← hout]
  refine (letters.output_of_inputs_iff printable he).mpr fun m hm r hr => .inr ?_
  obtain rfl : r = 0 := Nat.lt_one_iff.mp hr
  have hm : m = 0 ∨ m = 1 := by
    have : m < 2 := hm
    omega
  rcases hm with rfl | rfl
  · exact ⟨shelf, ascii "a.txt", ascii "banana", rfl, rfl, by decide +kernel, by decide +kernel⟩
  · have hD : (letters.beforeMap printable shelf 1).map (· (ascii "b.txt")) =
        .ok (some (ascii "nab")) := by decide +kernel
    obtain ⟨D, hD, hb⟩ := map_eq_ok hD
    exact ⟨D, ascii "b.txt", ascii "nab", hD, rfl, hb, by decide +kernel⟩

end DistSystem.MapReduce
