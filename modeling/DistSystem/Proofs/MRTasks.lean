import DistSystem.Lib.Fallible
import DistSystem.Proofs.MRNames

/-!
# What a task does to the directory

A map task replaces the files of the partitions it has pairs for and leaves every other file alone
(`doMap_eq`). A reduce task replaces its result file (`doReduce_eq`), in which the keys are
distinct, so the order of `range` shows in no lookup of `merge` (`valuesOf_results`).
-/

namespace DistSystem.MapReduce

open Grouping

variable {J : Codec} {jobName : Str} {m r nReduce nMap : ℕ} {d : Dir}

/-! ## Map -/

/-- Every pair written to the file `nameOf` gives it, in order; a file with no pair stays. -/
def Dir.scatter (J : Codec) (nameOf : KeyValue → Str) (kvs : List KeyValue) (d : Dir) : Dir :=
  fun name =>
    if kvs.filter (fun kv => nameOf kv = name) = [] then d name
    else some (J.encodeAll (kvs.filter fun kv => nameOf kv = name))

/-- Where map task `m` writes a pair. -/
def target (jobName : Str) (m nReduce : ℕ) (kv : KeyValue) : Str :=
  reduceName jobName m (partition nReduce kv.key)

theorem emit_eq (hn : UInt32.ofNat nReduce ≠ 0) (opened : List Str) (kv : KeyValue) :
    emit J jobName m nReduce (opened, d) kv =
      .ok (if target jobName m nReduce kv ∈ opened then
          (opened, d.write (target jobName m nReduce kv) (J.encode kv))
        else (target jobName m nReduce kv :: opened,
          (d.create (target jobName m nReduce kv)).write (target jobName m nReduce kv)
            (J.encode kv))) := by
  simp only [emit, if_neg hn, target]
  by_cases h : reduceName jobName m (partition nReduce kv.key) ∈ opened <;> simp only [h, if_true,
    if_false]

theorem scatter_concat {nameOf : KeyValue → Str} {kvs : List KeyValue} {kv : KeyValue}
    {d' : Dir} (hd' : d' (nameOf kv) = some (J.encodeAll
      (kvs.filter fun kv' => nameOf kv' = nameOf kv)))
    (hne : ∀ name, name ≠ nameOf kv → d' name = d.scatter J nameOf kvs name) :
    d'.write (nameOf kv) (J.encode kv) = d.scatter J nameOf (kvs ++ [kv]) := by
  funext name
  by_cases h : name = nameOf kv
  · subst h
    simp [Dir.write, Dir.scatter, hd', Codec.encodeAll_concat]
  · rw [Dir.write, Function.update_of_ne h, hne name h]
    simp [Dir.scatter, Ne.symm h]

/-- The loop of `doMap`, with the names that have an encoder after it. -/
theorem foldlM_emit (J : Codec) (jobName : Str) (m : ℕ) (d : Dir)
    (hn : UInt32.ofNat nReduce ≠ 0) (kvs : List KeyValue) :
    ∃ opened, kvs.foldlM (emit J jobName m nReduce) ([], d) =
        .ok (opened, d.scatter J (target jobName m nReduce) kvs) ∧
      ∀ name, name ∈ opened ↔ kvs.filter (fun kv => target jobName m nReduce kv = name) ≠ [] := by
  induction kvs using List.reverseRecOn with
  | nil => exact ⟨[], rfl, by simp⟩
  | append_singleton kvs kv ih =>
    obtain ⟨opened, hrun, hopened⟩ := ih
    have hlast : (kvs ++ [kv]).foldlM (emit J jobName m nReduce) ([], d) =
        emit J jobName m nReduce (opened, d.scatter J (target jobName m nReduce) kvs) kv := by
      rw [foldlM_concat, hrun]
      rfl
    rw [hlast, emit_eq hn]
    split_ifs with h
    · refine ⟨opened, ?_, fun name => ?_⟩
      · have hne := (hopened _).mp h
        rw [scatter_concat (by simp [Dir.scatter, hne]) fun _ _ => rfl]
      · rw [hopened, List.filter_append]
        by_cases hname : target jobName m nReduce kv = name
        · subst hname
          simp [(hopened _).mp h]
        · simp [hname]
    · have hnil : kvs.filter (fun kv' => target jobName m nReduce kv' =
          target jobName m nReduce kv) = [] := by
        by_contra hne
        exact h ((hopened _).mpr hne)
      refine ⟨target jobName m nReduce kv :: opened, ?_, fun name => ?_⟩
      · have hd' : (d.scatter J (target jobName m nReduce) kvs).create (target jobName m nReduce kv)
            (target jobName m nReduce kv) = some (J.encodeAll (kvs.filter fun kv' =>
              target jobName m nReduce kv' = target jobName m nReduce kv)) := by
          simp [Dir.create, hnil]
        rw [scatter_concat hd' fun name hname => Function.update_of_ne hname _ _]
      · rw [List.mem_cons, hopened, List.filter_append]
        by_cases hname : target jobName m nReduce kv = name
        · simp [hname]
        · simp [hname, Ne.symm hname]

/-- A map task: the first key panics when `uint32(nReduce)` is zero. -/
theorem doMap_eq {inFile contents : Str} {mapF : Str → Str → List KeyValue}
    (hin : d inFile = some contents) :
    doMap J jobName m inFile nReduce mapF d =
      if UInt32.ofNat nReduce = 0 ∧ mapF inFile (readBuf contents) ≠ [] then
        .error (.panic "integer divide by zero")
      else .ok (d.scatter J (target jobName m nReduce) (mapF inFile (readBuf contents))) := by
  simp only [doMap, hin]
  by_cases hn : UInt32.ofNat nReduce = 0
  · cases hkvs : mapF inFile (readBuf contents) with
    | nil =>
      simp only [ne_eq, not_true_eq_false, and_false, if_false]
      rfl
    | cons kv kvs => simp [hn, emit, List.foldlM_cons, bind, Except.bind, Except.map]
  · obtain ⟨opened, hrun, -⟩ := foldlM_emit J jobName m d hn (mapF inFile (readBuf contents))
    simp [hn, hrun, Except.map]

theorem scatter_apply_of_ne {kvs : List KeyValue} {name : Str}
    (h : ∀ kv ∈ kvs, target jobName m nReduce kv ≠ name) :
    d.scatter J (target jobName m nReduce) kvs name = d name := by
  have hnil : kvs.filter (fun kv => target jobName m nReduce kv = name) = [] := by
    simpa [List.filter_eq_nil_iff] using h
  simp [Dir.scatter, hnil]

/-- The pairs for reduce task `r`. -/
def bucket (nReduce r : ℕ) (kvs : List KeyValue) : List KeyValue :=
  kvs.filter fun kv => partition nReduce kv.key = r

theorem scatter_reduceName (kvs : List KeyValue) :
    d.scatter J (target jobName m nReduce) kvs (reduceName jobName m r) =
      if bucket nReduce r kvs = [] then d (reduceName jobName m r)
      else some (J.encodeAll (bucket nReduce r kvs)) := by
  have hb : kvs.filter (fun kv => target jobName m nReduce kv = reduceName jobName m r) =
      bucket nReduce r kvs := by
    refine List.filter_congr fun kv _ => ?_
    rw [decide_eq_decide]
    exact ⟨fun h => (reduceName_inj h).2, fun h => by rw [target, h]⟩
  simp only [Dir.scatter, hb]

theorem scatter_of_ne_reduceName {kvs : List KeyValue} {name : Str}
    (h : ∀ r, name ≠ reduceName jobName m r) :
    d.scatter J (target jobName m nReduce) kvs name = d name :=
  scatter_apply_of_ne fun _ _ => (h _).symm

/-! ## Reduce -/

/-- The order of the entries as they are. -/
def RangeOrder.stored : RangeOrder := ⟨id, List.Perm.refl⟩

instance : Nonempty RangeOrder := ⟨.stored⟩

/-- The pairs a reduce task writes. -/
def results (ord : RangeOrder) (reduceF : Str → List Str → Str) (kvs : List KeyValue) :
    List KeyValue :=
  (ord.order (group KeyValue.key KeyValue.value kvs).entries).map fun e => ⟨e.1, reduceF e.1 e.2⟩

theorem foldl_write {α : Type} (name : Str) (f : α → Str) (as : List α) (d : Dir) :
    as.foldl (fun d a => d.write name (f a)) (d.create name) =
      Function.update d name (some (as.flatMap f)) := by
  induction as using List.reverseRecOn with
  | nil => rfl
  | append_singleton as a ih =>
    rw [List.foldl_append, ih]
    simp [Dir.write]

theorem doReduce_eq (ord : RangeOrder) (reduceF : Str → List Str → Str) :
    doReduce J ord jobName r nMap reduceF d = Function.update d (mergeName jobName r)
      (some (J.encodeAll (results ord reduceF (intermediate J jobName r nMap d)))) := by
  simp only [doReduce, results, Codec.encodeAll, List.flatMap_map]
  exact foldl_write _ _ _ _

theorem coerced_of_mem_readFile {s : Option Str} {kv : KeyValue} (h : kv ∈ readFile J s) :
    J.coerce kv.key = kv.key := by
  cases s with
  | none => simp [readFile] at h
  | some s => exact Codec.coerced_of_mem_decodeInto h

theorem coerced_of_mem_intermediate {kv : KeyValue} (h : kv ∈ intermediate J jobName r nMap d) :
    J.coerce kv.key = kv.key := by
  obtain ⟨m, -, hm⟩ := List.mem_flatMap.mp h
  exact coerced_of_mem_readFile hm

/-- `merge` sees one value of each key of the partition, whatever the order of `range` was. -/
theorem valuesOf_results (ord : RangeOrder) (reduceF : Str → List Str → Str) (k : Str)
    {kvs : List KeyValue} (hkvs : ∀ kv ∈ kvs, J.coerce kv.key = kv.key) :
    valuesOf KeyValue.key KeyValue.value k ((results ord reduceF kvs).map J.coercePair) =
      if valuesOf KeyValue.key KeyValue.value k kvs = [] then []
      else [J.coerce (reduceF k (valuesOf KeyValue.key KeyValue.value k kvs))] := by
  set g := group KeyValue.key KeyValue.value kvs with hg
  have hkey : ∀ e ∈ g.entries, J.coerce e.1 = e.1 := by
    intro e he
    have hmem : e.1 ∈ g := List.mem_keys_of_mem he
    rw [hg, mem_group] at hmem
    obtain ⟨kv, hkv, hk⟩ := List.mem_map.mp hmem
    rw [← hk]
    exact hkvs kv hkv
  have hperm : ((results ord reduceF kvs).map J.coercePair).Perm
      (g.entries.map fun e => ⟨e.1, J.coerce (reduceF e.1 e.2)⟩) := by
    rw [results, List.map_map]
    refine ((ord.perm _).map _).trans (List.Perm.of_eq (List.map_congr_left fun e he => ?_))
    simp [Codec.coercePair, hkey e he]
  have hnodup : ((g.entries.map fun e => (⟨e.1, J.coerce (reduceF e.1 e.2)⟩ : KeyValue)).map
      KeyValue.key).Nodup := by
    rw [List.map_map]
    exact g.keys_nodup
  rw [← valuesOf_perm hperm.symm hnodup, valuesOf_map]
  have hent := valuesOf_entries g (fun e => J.coerce (reduceF e.1 e.2)) k
  rw [hg, lookup_group] at hent
  refine hent.trans ?_
  split_ifs <;> rfl

/-! ## Merge -/

def report (kvs : AList fun _ : Str => Str) : Str :=
  (sortedKeys kvs).flatMap fun k => line k ((kvs.lookup k).getD [])

theorem report_congr {kvs kvs' : AList fun _ : Str => Str}
    (h : ∀ k, kvs.lookup k = kvs'.lookup k) : report kvs = report kvs' := by
  have hmem : ∀ k, k ∈ kvs ↔ k ∈ kvs' := fun k => by
    rw [← AList.lookup_isSome, ← AList.lookup_isSome, h]
  rw [report, report, sortedKeys_congr hmem]
  simp only [h]

theorem readResults_succ (n : ℕ) :
    readResults J jobName (n + 1) d = readResults J jobName n d >>= fun kvs =>
      match d (mergeName jobName n) with
      | none => .error (.fatal "Merge: " (mergeName jobName n))
      | some s => .ok ((J.decodeFresh s).foldl (fun m kv => m.insert kv.key kv.value) kvs) := by
  unfold readResults
  rw [List.range_succ]
  exact foldlM_concat ..

theorem readResults_eq {rs : ℕ → List KeyValue}
    (h : ∀ i < nReduce, d (mergeName jobName i) = some (J.encodeAll (rs i))) :
    readResults J jobName nReduce d = .ok (latest KeyValue.key KeyValue.value
      ((List.range nReduce).flatMap fun i => (rs i).map J.coercePair)) := by
  induction nReduce with
  | zero => rfl
  | succ n ih =>
    rw [readResults_succ, ih fun i hi => h i (by omega), List.range_succ]
    simp only [bind, Except.bind, h n (by omega), Codec.decodeFresh_encodeAll, List.flatMap_append,
      List.flatMap_cons, List.flatMap_nil, List.append_nil, latest, List.foldl_append]

theorem readResults_error {c : Crash} (h : readResults J jobName nReduce d = .error c) :
    ∃ file, c = .fatal "Merge: " file := by
  induction nReduce with
  | zero => cases h
  | succ n ih =>
    rw [readResults_succ] at h
    cases hn : readResults J jobName n d with
    | error c' =>
      rw [hn] at h
      obtain rfl : c' = c := Except.error.inj h
      exact ih hn
    | ok kvs =>
      rw [hn] at h
      cases hm : d (mergeName jobName n) with
      | none => exact ⟨mergeName jobName n, by simpa [hm, bind, Except.bind, eq_comm] using h⟩
      | some s => simp [hm, bind, Except.bind] at h

theorem merge_error {c : Crash} (h : merge J jobName nReduce d = .error c) :
    ∃ file, c = .fatal "Merge: " file := by
  unfold merge at h
  cases hr : readResults J jobName nReduce d with
  | error c' =>
    rw [hr] at h
    obtain rfl : c' = c := Except.error.inj h
    exact readResults_error hr
  | ok kvs =>
    rw [hr] at h
    cases h

theorem merge_eq {rs : ℕ → List KeyValue}
    (h : ∀ i < nReduce, d (mergeName jobName i) = some (J.encodeAll (rs i))) :
    merge J jobName nReduce d = .ok (Function.update d (outputName jobName)
      (some (report (latest KeyValue.key KeyValue.value
        ((List.range nReduce).flatMap fun i => (rs i).map J.coercePair))))) := by
  simp only [merge, readResults_eq h, bind, Except.bind, pure, Except.pure, foldl_write, report]

end DistSystem.MapReduce
