import DistSystem.MapReduce.WordCount
import DistSystem.Proofs.MRDistributed
import DistSystem.Proofs.MRIndex

/-!
# The output of the word count

The values of a word are as many ones as there are occurrences of it, so the output is the table of
the words with their numbers, whether the job is run by `Sequential` or by a master that waits for
its tasks, and whatever the order of the files.
-/

namespace DistSystem.MapReduce.WordCount

open Fields Grouping Interleaving

/-! ## The words of a text -/

section Words

variable {isLetter : Char → Bool} {s : Str} {ws : List Str}

/-- The words of `s` from left to right: the maximal runs of letters. -/
def Spells (isLetter : Char → Bool) (s : Str) (ws : List Str) : Prop :=
  ∃ runs, Split (fun r => isLetter r.1) (runes s) runs ∧ ws = runs.map (·.flatMap Prod.snd)

theorem spells_iff : Spells isLetter s ws ↔ fieldsFunc (fun r => !isLetter r) s = ws := by
  simp only [Spells, split_iff, fieldsFunc, Bool.not_not, exists_eq_left']
  exact eq_comm

end Words

/-! ## The table -/

/-- `out` has a line for each word that is in some of the files, in ascending order, with the
number of times it is there. -/
def IsCount (isLetter : Char → Bool) (d : Dir) (files : List Str) (out : Str) : Prop :=
  ∃ (text : Str → List Str) (words : List Str),
    (∀ f ∈ files, ∃ s, d f = some s ∧ Spells isLetter s (text f)) ∧
    words.Pairwise (· < ·) ∧ (∀ w, w ∈ words ↔ ∃ f ∈ files, w ∈ text f) ∧
    out = words.flatMap fun w => line w (itoa ((files.flatMap text).count w))

section Count

variable {isLetter : Char → Bool} {d : Dir} {files files' : List Str} {jobName : Str} {nReduce : ℕ}

/-- There is one table, whatever the order of the files. -/
theorem IsCount.unique {out out' : Str} (hperm : files.Perm files')
    (h : IsCount isLetter d files out) (h' : IsCount isLetter d files' out') : out = out' := by
  obtain ⟨text, words, htext, hwords, hmem, rfl⟩ := h
  obtain ⟨text', words', htext', hwords', hmem', rfl⟩ := h'
  have heq : ∀ f ∈ files, text f = text' f := by
    intro f hf
    obtain ⟨s, hs, hw⟩ := htext f hf
    obtain ⟨s', hs', hw'⟩ := htext' f (hperm.mem_iff.mp hf)
    obtain rfl : s = s' := Option.some.inj (hs.symm.trans hs')
    exact (spells_iff.mp hw).symm.trans (spells_iff.mp hw')
  have hw : words = words' := hwords.eq_of_mem_iff hwords' fun w => by
    rw [hmem, hmem']
    constructor
    · rintro ⟨f, hf, hw⟩
      exact ⟨f, hperm.mem_iff.mp hf, heq f hf ▸ hw⟩
    · rintro ⟨f, hf, hw⟩
      have hf' := hperm.mem_iff.mpr hf
      exact ⟨f, hf', (heq f hf').symm ▸ hw⟩
  have hall : (files.flatMap text).Perm (files'.flatMap text') := by
    rw [List.flatMap_congr heq]
    exact hperm.flatMap_right _
  rw [hw]
  exact List.flatMap_congr fun w _ => by rw [hall.count_eq]

theorem atoi_one : atoi (ascii "1") = (1, none) := by decide

/-- As long as an `int` can hold it, `reduceF` has the number of the ones. -/
theorem reduceF_replicate (key : Str) {n : ℕ} (hn : n < 2 ^ 63) :
    reduceF key (List.replicate n (ascii "1")) = itoa n := by
  have hloop : ∀ n < 2 ^ 63, (List.replicate n (ascii "1")).foldl
      (fun (cnt : ℤ) value => (cnt + (atoi value).1).bmod (2 ^ 64)) 0 = n := by
    intro n
    induction n with
    | zero => intro _; rfl
    | succ n ih =>
      intro hn
      rw [List.replicate_succ', List.foldl_concat, ih (by omega), atoi_one]
      rw [Int.bmod_eq_of_le] <;> push_cast <;> omega
  rw [reduceF, hloop n hn]
  rfl

/-- All the words of the files, one after another. -/
def wordsOf (isLetter : Char → Bool) (d : Dir) (files : List Str) : List Str :=
  files.flatMap fun f => fieldsFunc (fun r => !isLetter r) ((d f).getD [])

theorem emissions_eq_map : (wordCount isLetter jobName files nReduce).emissions d =
    (wordsOf isLetter d files).map fun w => ⟨w, ascii "1"⟩ := by
  rw [Job.emissions, wordsOf, List.map_flatMap]
  rfl

theorem valuesOf_wordCount (w : Str) : valuesOf KeyValue.key KeyValue.value w
    ((wordCount isLetter jobName files nReduce).emissions d) =
      List.replicate ((wordsOf isLetter d files).count w) (ascii "1") := by
  rw [emissions_eq_map, valuesOf_map, valuesOf]
  simp only [Function.comp_def]
  rw [List.filter_eq, List.map_replicate]

theorem isCount_expected (hin : ∀ f ∈ files, d f ≠ none)
    (hwords : (wordsOf isLetter d files).length < 2 ^ 63) :
    IsCount isLetter d files ((wordCount isLetter jobName files nReduce).expected d) := by
  refine ⟨fun f => fieldsFunc (fun r => !isLetter r) ((d f).getD []),
    Job.keysInOrder ((wordCount isLetter jobName files nReduce).emissions d), fun f hf => ?_,
    pairwise_lt_insertionSort (List.nodup_dedup _), fun w => ?_, ?_⟩
  · obtain ⟨s, hs⟩ := Option.ne_none_iff_exists'.mp (hin f hf)
    exact ⟨s, hs, spells_iff.mpr (by simp [hs])⟩
  · rw [Job.keysInOrder, List.mem_insertionSort, List.mem_dedup, emissions_eq_map, List.map_map]
    simp [Function.comp_def, wordsOf]
  · unfold Job.expected
    refine List.flatMap_congr fun w _ => congrArg (line w) ?_
    rw [valuesOf_wordCount]
    exact reduceF_replicate w (lt_of_le_of_lt List.count_le_length hwords)

/-- What comes out of the files that the tasks write is what was put in. -/
theorem sequential_expected (J : Codec) (hl : isLetter runeError = false)
    (hn : UInt32.ofNat nReduce ≠ 0) (hin : ∀ f ∈ files, d f ≠ none) (hread : d.ReadWhole files)
    (hfresh : (wordCount isLetter jobName files nReduce).NoLeftovers d)
    (hwords : (wordsOf isLetter d files).length < 2 ^ 63) (ord : ℕ → RangeOrder) :
    ∃ d', (wordCount isLetter jobName files nReduce).sequential J ord d = .ok d' ∧
      (wordCount isLetter jobName files nReduce).output d' =
        some ((wordCount isLetter jobName files nReduce).expected d) := by
  set job := wordCount isLetter jobName files nReduce with hjob
  have hone : ∀ b ∈ ascii "1", b.toNat < 128 := by decide +kernel
  have hem : job.emissions d.readBuf = job.emissions d := Job.emissions_congr hread.readBuf_eq
  have hmapF : ∀ kv ∈ job.emissions d.readBuf, J.coercePair kv = kv := by
    intro kv hkv
    rw [hem, hjob, emissions_eq_map] at hkv
    obtain ⟨w, hw, rfl⟩ := List.mem_map.mp hkv
    obtain ⟨f, -, hw⟩ := List.mem_flatMap.mp hw
    simp [Codec.coercePair, J.coerce_of_valid ((mem_fieldsFunc.mp hw).validUtf8 hl),
      J.coerce_of_valid (validUtf8_of_ascii hone)]
  rw [← Job.expected_congr hread.readBuf_eq,
    ← Job.final_eq_expected hfresh hmapF (.inl hn) fun k _ => ?_]
  · exact Job.sequential_final (hfresh.apart hin) hin (fun m hm => hn hm.1) ord
  · rw [hem, hjob, valuesOf_wordCount]
    refine J.coerce_of_valid ?_
    show ValidUtf8 (reduceF k _)
    rw [reduceF_replicate k (lt_of_le_of_lt List.count_le_length hwords)]
    exact validUtf8_itoa _

/-- There is one table of the words of the files. If one `Read` gets all of each file, `Sequential`
writes it, and a master whose goroutines have all called `wg.Add(1)` when `wg.Wait()` returns writes
no other, whatever its workers do. Neither the order of the files nor that of any loop over a map
makes a difference. -/
theorem counts_words (J : Codec) {isLetter : Char → Bool} (hl : isLetter runeError = false)
    (jobName : Str) {files : List Str} {nReduce : ℕ} {d : Dir} (hpos : 1 ≤ nReduce)
    (hlt : nReduce < UInt32.size) (hin : ∀ f ∈ files, d f ≠ none) (hread : d.ReadWhole files)
    (hfresh : (wordCount isLetter jobName files nReduce).NoLeftovers d)
    (hwords : (wordsOf isLetter d files).length < 2 ^ 63) :
    ∃ out, IsCount isLetter d files out ∧ ∀ files', files'.Perm files →
      (∀ ord, ∃ d', (wordCount isLetter jobName files' nReduce).sequential J ord d = .ok d' ∧
        (wordCount isLetter jobName files' nReduce).output d' = some out) ∧
      ∀ t s, runs (Master.step J (wordCount isLetter jobName files' nReduce)) (Master.start d) t =
          some s → Master.AddedFirst (wordCount isLetter jobName files' nReduce) t →
        s.main = .done → (wordCount isLetter jobName files' nReduce).output s.dir = some out := by
  have hn := Job.uint32_ne_zero hpos hlt
  have hcount : IsCount isLetter d files ((wordCount isLetter jobName files nReduce).expected d) :=
    isCount_expected hin hwords
  refine ⟨_, hcount, fun files' hperm => ?_⟩
  have hin' : ∀ f ∈ files', d f ≠ none := fun f hf => hin f (hperm.mem_iff.mp hf)
  have hfresh' : (wordCount isLetter jobName files' nReduce).NoLeftovers d :=
    ⟨fun m hm => hfresh.intermediate m (hperm.length_eq ▸ hm), hfresh.result, hfresh.output⟩
  have hwords' : (wordsOf isLetter d files').length < 2 ^ 63 := by
    rwa [wordsOf, (hperm.flatMap_right _).length_eq]
  have hread' : d.ReadWhole files' := fun f hf => hread f (hperm.mem_iff.mp hf)
  have hseq := sequential_expected J hl hn hin' hread' hfresh' hwords'
  rw [(isCount_expected hin' hwords').unique hperm hcount] at hseq
  refine ⟨hseq, fun t s hrun hadd hdone => ?_⟩
  obtain ⟨e, he, hout⟩ := Master.output_eq_sequential (hfresh'.apart hin') (hadd.barrier hrun)
    hrun hdone fun _ => .stored
  obtain ⟨e', he', hout'⟩ := hseq fun _ => .stored
  obtain rfl := Except.ok.inj (he.symm.trans he')
  rw [hout, hout']

end Count

/-! ## Two memos -/

theorem counts_words_memos : ∃ out,
    IsCount Char.isAlpha memos [ascii "b.txt", ascii "a.txt"] out ∧
      out = ascii "do: 2\nto: 2\n" := by
  have hwords : (wordsOf Char.isAlpha memos [ascii "b.txt", ascii "a.txt"]).length < 2 ^ 63 := by
    decide +kernel
  have hin : ∀ f ∈ [ascii "b.txt", ascii "a.txt"], memos f ≠ none := by decide
  obtain ⟨out, hcount, hall⟩ := counts_words printable (by decide) (ascii "wcseq") (by decide)
    (by decide) hin (Dir.readWhole_of_length (by decide +kernel)) (memos_noLeftovers (wordCount
      Char.isAlpha (ascii "wcseq") [ascii "b.txt", ascii "a.txt"] 3)) hwords
  refine ⟨out, hcount, ?_⟩
  obtain ⟨d, hrun, hout⟩ := (hall _ (List.Perm.refl _)).1 fun _ => .stored
  have hcomputed : ((wordCount Char.isAlpha (ascii "wcseq")
      [ascii "b.txt", ascii "a.txt"] 3).sequential printable (fun _ => .stored) memos).map
      (wordCount Char.isAlpha (ascii "wcseq") [ascii "b.txt", ascii "a.txt"] 3).output =
        .ok (some (ascii "do: 2\nto: 2\n")) := by
    decide +kernel
  rw [hrun] at hcomputed
  exact Option.some.inj (hout.symm.trans (Except.ok.inj hcomputed))

end DistSystem.MapReduce.WordCount
