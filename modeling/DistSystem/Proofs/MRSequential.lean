import DistSystem.Proofs.MRRepeat
import Mathlib.Data.List.Dedup

/-!
# The output of a sequential run

Without leftovers every intermediate file has the pairs of its map task for its reduce task, so each
key reaches exactly one reduce task, with all its values in the order of the input.
-/

namespace DistSystem.MapReduce

open Grouping

/-! ## Text -/

theorem validUtf8_of_ascii {s : Str} (hs : ∀ b ∈ s, b.toNat < 128) : ValidUtf8 s := by
  have hbyte : ∀ n < 128, String.utf8EncodeChar (Char.ofNat n) = [UInt8.ofNat n] := by
    decide +kernel
  refine ⟨s.map fun b => Char.ofNat b.toNat, ?_⟩
  rw [List.flatMap_map]
  conv_rhs => rw [← List.flatMap_singleton' s]
  refine List.flatMap_congr fun b hb => ?_
  rw [hbyte _ (hs b hb), UInt8.ofNat_toNat]

theorem validUtf8_itoa (n : ℕ) : ValidUtf8 (itoa n) :=
  validUtf8_of_ascii fun _ hb => lt_of_le_of_lt (digit_of_mem_itoa hb).2 (by decide)

/-! ## The one `Read` -/

theorem readBuf_eq_self_iff {contents : Str} :
    readBuf contents = contents ↔ ∀ b ∈ contents.drop maxRW, b = 0 := by
  rw [readBuf, ← List.length_drop]
  conv_lhs => rhs; rw [← List.take_append_drop maxRW contents]
  rw [List.append_cancel_left_eq, eq_comm, List.eq_replicate_iff]
  simp

/-- The directory as `doMap` reads it. -/
def Dir.readBuf (d : Dir) : Dir := fun name => (d name).map MapReduce.readBuf

/-- The files are read as they are: what is past the end of the `Read` is zero there too. -/
def Dir.ReadWhole (d : Dir) (files : List Str) : Prop :=
  ∀ f ∈ files, ∀ contents, d f = some contents → ∀ b ∈ contents.drop maxRW, b = 0

theorem Dir.ReadWhole.readBuf_eq {d : Dir} {files : List Str} (h : d.ReadWhole files) :
    ∀ f ∈ files, d.readBuf f = d f := by
  intro f hf
  cases hc : d f with
  | none => simp [Dir.readBuf, hc]
  | some contents => simp [Dir.readBuf, hc, readBuf_eq_self_iff.mpr (h f hf contents hc)]

theorem Dir.readWhole_of_length {d : Dir} {files : List Str}
    (h : ∀ f ∈ files, ∀ contents, d f = some contents → contents.length ≤ maxRW) :
    d.ReadWhole files := by
  intro f hf contents hc
  rw [List.drop_of_length_le (h f hf contents hc)]
  simp

namespace Job

variable {J : Codec} {job : Job} {d₀ d : Dir}

/-! ## One task after the other -/

/-- The executions of a sequential run. -/
def turns (job : Job) (ord : ℕ → RangeOrder) : List (Execution job) :=
  (List.finRange job.files.length).map (fun m : Fin _ => (.map m, ord m)) ++
    (List.finRange job.nReduce).map fun r : Fin _ => (.reduce r, ord r)

theorem map_fst_turns (ord : ℕ → RangeOrder) : (job.turns ord).map Prod.fst = job.inOrder := by
  simp [turns, inOrder, Function.comp_def]

theorem inTurn_map (ord : ℕ → RangeOrder) :
    job.inTurn J ord .map d = job.execAll J
      ((List.finRange job.files.length).map fun m : Fin _ => (.map m, ord m)) d := by
  have hzip : job.files.zipIdx = (List.finRange job.files.length).map
      fun m => (job.files.get m, m.1) := by
    refine List.ext_getElem (by simp) fun i h₁ h₂ => ?_
    simp
  rw [inTurn, execAll, hzip, List.foldlM_map, List.foldlM_map]
  rfl

theorem inTurn_reduce (ord : ℕ → RangeOrder) :
    job.inTurn J ord .reduce d = job.execAll J
      ((List.finRange job.nReduce).map fun r : Fin _ => (.reduce r, ord r)) d := by
  rw [inTurn, execAll, List.foldlM_map, ← List.map_coe_finRange_eq_range, List.foldl_map]
  generalize List.finRange job.nReduce = rs
  induction rs generalizing d with
  | nil => rfl
  | cons r rs ih => exact ih

theorem sequential_eq (ord : ℕ → RangeOrder) :
    job.sequential J ord d = job.execAll J (job.turns ord) d >>= job.merge J := by
  rw [sequential, run, turns, execAll_append, ← inTurn_map, bind_assoc]
  congr 1
  funext d'
  rw [inTurn_reduce]

theorem sequential_final (hap : job.Apart) (hin : ∀ f ∈ job.files, d₀ f ≠ none)
    (hok : ∀ m : Fin job.files.length, ¬ job.Crashes d₀ m) (ord : ℕ → RangeOrder) :
    ∃ d, job.sequential J ord d₀ = .ok d ∧ job.output d = some (job.final J d₀) := by
  obtain ⟨d₁, hrun, hd₁⟩ := execAll_progress (J := J) hap hin (job.turns ord)
    fun m _ _ => hok m
  have hmerge := merge_of_settled (fun r _ => coerced_of_mem_pairs r) fun r hr =>
    hd₁.settled ⟨r, hr⟩ (settled_inOrder (map_fst_turns ord) _)
  refine ⟨_, by rw [sequential_eq, hrun]; exact hmerge, ?_⟩
  rw [output, Function.update_self, final]

/-! ## What the job asks for -/

variable (job d₀)

/-- All pairs, in the order of the files and of the pairs of each file. -/
def emissions : List KeyValue := job.files.flatMap fun f => job.mapF f ((d₀ f).getD [])

/-- The keys of some pairs, each once and in ascending order. -/
def keysInOrder (kvs : List KeyValue) : List Str :=
  (kvs.map KeyValue.key).dedup.insertionSort (· ≤ ·)

/-- One line for each key, with what `reduceF` makes of all its values. -/
def expected : Str :=
  (keysInOrder (job.emissions d₀)).flatMap fun k =>
    line k (job.reduceF k (valuesOf KeyValue.key KeyValue.value k (job.emissions d₀)))

variable {job d₀}

theorem emissions_eq :
    job.emissions d₀.readBuf =
      (List.range job.files.length).flatMap fun m => job.emitted d₀ m := by
  have hfiles : job.files =
      (List.range job.files.length).flatMap fun m => job.files[m]?.toList := by
    conv_lhs => rw [← List.map_get_finRange job.files]
    rw [← List.map_coe_finRange_eq_range, List.flatMap_map, List.map_eq_flatMap]
    refine List.flatMap_congr fun m _ => ?_
    simp
  unfold emissions
  conv_lhs => rw [hfiles]
  rw [List.flatMap_assoc]
  refine List.flatMap_congr fun m _ => ?_
  cases h : job.files[m]? with
  | none => simp [emitted, h]
  | some f => cases hf : d₀ f <;> simp [emitted, Dir.readBuf, h, hf, readBuf]

theorem valuesOf_bucket (k : Str) (n r : ℕ) (kvs : List KeyValue) :
    valuesOf KeyValue.key KeyValue.value k (bucket n r kvs) =
      if partition n k = r then valuesOf KeyValue.key KeyValue.value k kvs else [] := by
  unfold valuesOf bucket
  rw [List.filter_filter]
  split_ifs with h
  · congr 1
    refine List.filter_congr fun kv _ => ?_
    by_cases hk : kv.key = k
    · simp [hk, h]
    · simp [hk]
  · have hnil : kvs.filter (fun kv => decide (kv.key = k) && decide (partition n kv.key = r)) =
        [] := by
      rw [List.filter_eq_nil_iff]
      rintro kv - hkv
      simp only [Bool.and_eq_true, decide_eq_true_eq] at hkv
      exact h (hkv.1 ▸ hkv.2)
    simp [hnil]

section Fresh

theorem mem_emissions {kv : KeyValue} : kv ∈ job.emissions d₀.readBuf ↔
    ∃ m : Fin job.files.length, kv ∈ job.emitted d₀ m := by
  rw [emissions_eq, List.mem_flatMap]
  exact ⟨fun ⟨m, hm, h⟩ => ⟨⟨m, List.mem_range.mp hm⟩, h⟩,
    fun ⟨m, h⟩ => ⟨m, List.mem_range.mpr m.2, h⟩⟩

/-- With no reduce task to give a pair to, the first map task that has one panics. -/
theorem sequential_crash (hap : job.Apart) (hin : ∀ f ∈ job.files, d₀ f ≠ none)
    (hn : UInt32.ofNat job.nReduce = 0) (hne : job.emissions d₀.readBuf ≠ [])
    (ord : ℕ → RangeOrder) :
    job.sequential J ord d₀ = .error (.panic "integer divide by zero") := by
  obtain ⟨kv, hkv⟩ := List.exists_mem_of_ne_nil _ hne
  obtain ⟨m, hm⟩ := mem_emissions.mp hkv
  rw [sequential_eq, execAll_crash hap hin (job.turns ord)
    ⟨m, ord m, by simp [turns], hn, List.ne_nil_of_mem hm⟩]
  rfl

variable (hfresh : job.NoLeftovers d₀)
  (hmapF : ∀ kv ∈ job.emissions d₀.readBuf, J.coercePair kv = kv)

include hfresh hmapF in
/-- A reduce task reads from a map task exactly the pairs for it. -/
theorem readFile_spill {m r : ℕ} (hm : m < job.files.length) (hr : r < job.nReduce) :
    readFile J (job.spill J d₀ m r) = bucket job.nReduce r (job.emitted d₀ m) := by
  have hb : (bucket job.nReduce r (job.emitted d₀ m)).map J.coercePair =
      bucket job.nReduce r (job.emitted d₀ m) := by
    conv_rhs => rw [← List.map_id (bucket _ _ _)]
    exact List.map_congr_left fun kv hkv =>
      hmapF kv (mem_emissions.mpr ⟨⟨m, hm⟩, List.mem_of_mem_filter hkv⟩)
  rw [spill, scatter_reduceName, hfresh.intermediate m hm r hr]
  split_ifs with h
  · rw [h]
    rfl
  · rw [readFile, Codec.decodeInto_encodeAll, hb]

include hfresh hmapF in
/-- All values of a key are in its partition. -/
theorem valuesOf_pairs (k : Str) {r : ℕ} (hr : r < job.nReduce) :
    valuesOf KeyValue.key KeyValue.value k (job.pairs J d₀ r) =
      if partition job.nReduce k = r then
        valuesOf KeyValue.key KeyValue.value k (job.emissions d₀.readBuf) else [] := by
  have hpairs : job.pairs J d₀ r = bucket job.nReduce r (job.emissions d₀.readBuf) := by
    have hread : ∀ m ∈ List.range job.files.length, readFile J (job.spill J d₀ m r) =
        bucket job.nReduce r (job.emitted d₀ m) := fun m hm =>
      readFile_spill hfresh hmapF (List.mem_range.mp hm) hr
    rw [pairs, List.flatMap_congr hread, emissions_eq]
    simp only [bucket, List.filter_flatMap]
  rw [hpairs, valuesOf_bucket]

theorem flatMap_range_single {α : Type} {n p : ℕ} (hp : p < n) (l : List α) :
    ((List.range n).flatMap fun r => if p = r then l else []) = l := by
  induction n with
  | zero => omega
  | succ n ih =>
    rw [List.range_succ, List.flatMap_append]
    by_cases h : p = n
    · subst h
      have hnil : ((List.range p).flatMap fun r => if p = r then l else []) = [] := by
        rw [List.flatMap_eq_nil_iff]
        intro r hr
        simp [(List.mem_range.mp hr).ne']
      simp [hnil]
    · simp [ih (by omega), h]

include hfresh hmapF in
theorem final_eq_expected (hn : UInt32.ofNat job.nReduce ≠ 0 ∨ job.emissions d₀.readBuf = [])
    (hreduceF : ∀ k, valuesOf KeyValue.key KeyValue.value k (job.emissions d₀.readBuf) ≠ [] →
      J.coerce (job.reduceF k (valuesOf KeyValue.key KeyValue.value k (job.emissions d₀.readBuf))) =
        job.reduceF k (valuesOf KeyValue.key KeyValue.value k (job.emissions d₀.readBuf))) :
    job.final J d₀ = job.expected d₀.readBuf := by
  set m := latest KeyValue.key KeyValue.value ((List.range job.nReduce).flatMap fun r =>
    (results .stored job.reduceF (job.pairs J d₀ r)).map J.coercePair) with hm
  have hlookup : ∀ k, m.lookup k =
      if valuesOf KeyValue.key KeyValue.value k (job.emissions d₀.readBuf) = [] then none
      else some (job.reduceF k
        (valuesOf KeyValue.key KeyValue.value k (job.emissions d₀.readBuf))) := by
    intro k
    have hone : ∀ r ∈ List.range job.nReduce, valuesOf KeyValue.key KeyValue.value k
        ((results .stored job.reduceF (job.pairs J d₀ r)).map J.coercePair) =
          if partition job.nReduce k = r then
            if valuesOf KeyValue.key KeyValue.value k (job.emissions d₀.readBuf) = [] then []
            else [job.reduceF k (valuesOf KeyValue.key KeyValue.value k (job.emissions d₀.readBuf))]
          else [] := by
      intro r hr
      rw [valuesOf_results _ _ _ fun _ => coerced_of_mem_pairs r,
        valuesOf_pairs hfresh hmapF k (List.mem_range.mp hr)]
      by_cases hp : partition job.nReduce k = r
      · simp only [hp, if_true]
        split_ifs with hnil
        · rfl
        · rw [hreduceF k hnil]
      · simp [hp]
    rw [hm, lookup_latest, valuesOf_flatMap, List.flatMap_congr hone]
    rcases hn with hn | hnil
    · rw [flatMap_range_single (partition_lt hn k)]
      split_ifs <;> rfl
    · simp [hnil, valuesOf]
  have hmem : ∀ k, k ∈ keysInOrder (job.emissions d₀.readBuf) ↔
      valuesOf KeyValue.key KeyValue.value k (job.emissions d₀.readBuf) ≠ [] := by
    intro k
    rw [keysInOrder, List.mem_insertionSort, List.mem_dedup, ne_eq, valuesOf_eq_nil_iff, not_not]
  have hkeys : sortedKeys m = keysInOrder (job.emissions d₀.readBuf) := by
    refine sortedKeys_eq (pairwise_lt_insertionSort (List.nodup_dedup _)) fun k => ?_
    rw [hmem, ← AList.lookup_isSome, hlookup]
    split_ifs with h <;> simp [h]
  rw [final, conclude, report, expected, ← hm, hkeys]
  refine List.flatMap_congr fun k hk => ?_
  rw [hlookup, if_neg ((hmem k).mp hk)]
  rfl

end Fresh

theorem sequential_readBuf (J : Codec) (job : Job) (ord : ℕ → RangeOrder) {d : Dir}
    (hin : ∀ f ∈ job.files, d f ≠ none) (hfresh : job.NoLeftovers d)
    (hmapF : ∀ f c, ∀ kv ∈ job.mapF f c, ValidUtf8 kv.key ∧ ValidUtf8 kv.value)
    (hreduceF : ∀ k vs, ValidUtf8 (job.reduceF k vs)) (hn : UInt32.ofNat job.nReduce ≠ 0) :
    ∃ d', job.sequential J ord d = .ok d' ∧ job.output d' = some (job.expected d.readBuf) := by
  have hmapF' : ∀ kv ∈ job.emissions d.readBuf, J.coercePair kv = kv := by
    intro kv hkv
    obtain ⟨f, -, hkv⟩ := List.mem_flatMap.mp hkv
    obtain ⟨hk, hv⟩ := hmapF _ _ kv hkv
    simp [Codec.coercePair, J.coerce_of_valid hk, J.coerce_of_valid hv]
  rw [← final_eq_expected hfresh hmapF' (.inl hn) fun k _ => J.coerce_of_valid (hreduceF _ _)]
  exact sequential_final (hfresh.apart hin) hin (fun m hm => hn hm.1) ord

theorem emissions_congr {d d' : Dir} (h : ∀ f ∈ job.files, d f = d' f) :
    job.emissions d = job.emissions d' :=
  List.flatMap_congr fun f hf => by rw [h f hf]

theorem expected_congr {d d' : Dir} (h : ∀ f ∈ job.files, d f = d' f) :
    job.expected d = job.expected d' := by
  rw [expected, expected, emissions_congr h]

/-- A job that has a pair for the file `f` if it has the contents `c`. -/
def noticing (job : Job) (f c : Str) : Job :=
  { job with
    mapF := fun f' c' => if f' = f ∧ c' = c then [⟨ascii "k", ascii "v"⟩] else []
    reduceF := fun _ _ => ascii "v" }

theorem noticing_expected {f c : Str} (hf : f ∈ job.files) {d : Dir} :
    (job.noticing f c).expected d = [] ↔ (d f).getD [] ≠ c := by
  have hmem : ∀ k, k ∈ keysInOrder ((job.noticing f c).emissions d) ↔
      k = ascii "k" ∧ (d f).getD [] = c := by
    intro k
    simp only [keysInOrder, List.mem_insertionSort, List.mem_dedup, List.mem_map, emissions,
      List.mem_flatMap, noticing]
    constructor
    · rintro ⟨kv, ⟨f', -, hkv⟩, rfl⟩
      split_ifs at hkv with h
      · obtain rfl := List.mem_singleton.mp hkv
        exact ⟨rfl, h.1 ▸ h.2⟩
      · simp at hkv
    · rintro ⟨rfl, h⟩
      exact ⟨_, ⟨f, hf, by rw [if_pos ⟨rfl, h⟩]; exact List.mem_singleton_self _⟩, rfl⟩
  rw [expected, List.flatMap_eq_nil_iff]
  constructor
  · intro h hc
    have hline := h _ ((hmem _).mpr ⟨rfl, hc⟩)
    simp [line, ascii] at hline
  · exact fun h k hk => absurd ((hmem k).mp hk).2 h

/-- For every `mapF` and `reduceF` the output of `Sequential` has the line of each key, in order,
with all its values in the order in which they were emitted: just if no input file has a byte other
than zero that the one `Read` does not get to. -/
theorem sequential_output_iff (J : Codec) (job : Job) (ord : ℕ → RangeOrder) {d : Dir}
    (hin : ∀ f ∈ job.files, d f ≠ none) (hfresh : job.NoLeftovers d)
    (hpos : 1 ≤ job.nReduce) (hlt : job.nReduce < UInt32.size) :
    (∀ mapF reduceF, (∀ f c, ∀ kv ∈ mapF f c, ValidUtf8 kv.key ∧ ValidUtf8 kv.value) →
        (∀ k vs, ValidUtf8 (reduceF k vs)) →
        ∃ d', { job with mapF := mapF, reduceF := reduceF }.sequential J ord d = .ok d' ∧
          job.output d' = some ({ job with mapF := mapF, reduceF := reduceF }.expected d)) ↔
      d.ReadWhole job.files := by
  have hn := uint32_ne_zero hpos hlt
  have hrun : ∀ mapF reduceF, (∀ f c, ∀ kv ∈ mapF f c, ValidUtf8 kv.key ∧ ValidUtf8 kv.value) →
      (∀ k vs, ValidUtf8 (reduceF k vs)) →
      ∃ d', { job with mapF := mapF, reduceF := reduceF }.sequential J ord d = .ok d' ∧
        job.output d' = some ({ job with mapF := mapF, reduceF := reduceF }.expected d.readBuf) :=
    fun mapF reduceF hmapF hreduceF => sequential_readBuf J { job with mapF, reduceF } ord hin
      ⟨hfresh.intermediate, hfresh.result, hfresh.output⟩ hmapF hreduceF hn
  constructor
  · intro h f hf contents hc
    by_contra hb
    have hcut : readBuf contents ≠ contents := fun heq => hb (readBuf_eq_self_iff.mp heq)
    -- the job that tells the two contents apart has a line for one and none for the other
    have hascii : ∀ s ∈ [ascii "k", ascii "v"], ValidUtf8 s := by
      have hlow : ∀ s ∈ [ascii "k", ascii "v"], ∀ b ∈ s, b.toNat < 128 := by decide +kernel
      exact fun s hs => validUtf8_of_ascii (hlow s hs)
    have hmapF : ∀ f' c', ∀ kv ∈ (job.noticing f contents).mapF f' c',
        ValidUtf8 kv.key ∧ ValidUtf8 kv.value := by
      intro f' c' kv hkv
      simp only [noticing] at hkv
      split_ifs at hkv
      · obtain rfl := List.mem_singleton.mp hkv
        exact ⟨hascii _ (by simp), hascii _ (by simp)⟩
      · simp at hkv
    have hreduceF : ∀ k vs, ValidUtf8 ((job.noticing f contents).reduceF k vs) :=
      fun _ _ => hascii _ (List.mem_cons_of_mem _ (List.mem_singleton_self _))
    obtain ⟨d₁, hd₁, hout₁⟩ := h _ _ hmapF hreduceF
    obtain ⟨d₂, hd₂, hout₂⟩ := hrun _ _ hmapF hreduceF
    obtain rfl := Except.ok.inj (hd₁.symm.trans hd₂)
    have heq : (job.noticing f contents).expected d =
        (job.noticing f contents).expected d.readBuf := Option.some.inj (hout₁.symm.trans hout₂)
    have hnil : (job.noticing f contents).expected d.readBuf = [] :=
      (noticing_expected hf).mpr (by simpa [Dir.readBuf, hc] using hcut)
    exact (noticing_expected hf).mp (heq.trans hnil) (by simp [hc])
  · intro h mapF reduceF hmapF hreduceF
    obtain ⟨d', hd', hout⟩ := hrun mapF reduceF hmapF hreduceF
    exact ⟨d', hd', hout.trans (congrArg some (expected_congr h.readBuf_eq))⟩

end Job

theorem letters_validUtf8 : ∀ f c, ∀ kv ∈ letters.mapF f c,
    ValidUtf8 kv.key ∧ ValidUtf8 kv.value := by
  intro f c kv hkv
  obtain ⟨b, hb, rfl⟩ := List.mem_map.mp hkv
  obtain ⟨-, -, hb⟩ := by simpa using List.mem_filter.mp hb
  have hone : ∀ b ∈ ascii "1", b.toNat < 128 := by decide +kernel
  refine ⟨validUtf8_of_ascii ?_, validUtf8_of_ascii hone⟩
  simpa using lt_of_le_of_lt (UInt8.le_iff_toNat_le.mp hb) (by decide)

theorem sequential_letters : ∃ d, letters.sequential printable (fun _ => .stored) shelf = .ok d ∧
    letters.output d = some (ascii "a: 4\nb: 2\nn: 3\n") := by
  have h := (letters.sequential_output_iff printable (fun _ => .stored) shelf_input
    shelf_noLeftovers (by decide) (by decide)).mpr (Dir.readWhole_of_length (by decide +kernel))
    letters.mapF letters.reduceF letters_validUtf8 fun _ _ => validUtf8_itoa _
  have hexp : letters.expected shelf = ascii "a: 4\nb: 2\nn: 3\n" := by decide +kernel
  exact hexp ▸ h

/-! ## A file that is too long -/

/-- As many blanks as a `Read` takes, and a letter after them. -/
def padded : Dir := fun name =>
  if name = ascii "a.txt" then some (List.replicate maxRW 32 ++ [122]) else none

def paddedCount : Job := letterCount [ascii "a.txt"] 1

/-- The letter is in the file and not in the output. -/
theorem padded_output :
    (paddedCount.NoLeftovers padded ∧ ∀ f ∈ paddedCount.files, padded f ≠ none) ∧
    paddedCount.expected padded = ascii "z: 1\n" ∧
    ∃ d, paddedCount.sequential printable (fun _ => .stored) padded = .ok d ∧
      paddedCount.output d = some [] := by
  have hfile : padded (ascii "a.txt") = some (List.replicate maxRW 32 ++ [122]) := rfl
  have hbuf : readBuf (List.replicate maxRW 32 ++ [122]) = List.replicate maxRW 32 ++ [0] := by
    simp [readBuf]
  have hem : ∀ (d : Dir) (b : UInt8), d (ascii "a.txt") = some (List.replicate maxRW 32 ++ [b]) →
      paddedCount.emissions d = paddedCount.mapF (ascii "a.txt") [b] := by
    intro d b hd
    simp [Job.emissions, paddedCount, letterCount, hd]
  have hfresh : paddedCount.NoLeftovers padded :=
    ⟨by decide +kernel, by decide +kernel, by decide +kernel⟩
  have hin : ∀ f ∈ paddedCount.files, padded f ≠ none := by
    intro f hf
    obtain rfl := List.mem_singleton.mp hf
    rw [hfile]
    exact Option.some_ne_none _
  refine ⟨⟨hfresh, hin⟩, ?_, ?_⟩
  · rw [Job.expected, hem _ _ hfile]
    decide +kernel
  · obtain ⟨d, hd, hout⟩ := paddedCount.sequential_readBuf printable (fun _ => .stored) hin hfresh
      letters_validUtf8 (fun _ _ => validUtf8_itoa _) (by decide)
    refine ⟨d, hd, hout.trans ?_⟩
    rw [Job.expected, hem _ 0 (by rw [Dir.readBuf, hfile, Option.map_some, hbuf])]
    decide +kernel

end DistSystem.MapReduce
