import DistSystem.MapReduce.InvertedIndex
import DistSystem.Proofs.MRSequential

/-!
# The output of the inverted index

A word is a maximal run of letters, whatever bytes are between the words, and a file has a pair for
each of its words once. So the values of a word are the files it is in, and the output is the index
of what `doMap` reads of them, unless a map task divides by zero. From an index of files with plain
names the words of each file can be read back (`IsIndex.contains_iff`).
-/

namespace DistSystem.MapReduce

open Fields Grouping

/-! ## Runes -/

/-- A rune that is decoded is there in UTF-8. -/
theorem eq_encode_append {s : Str} {r : Char} (h : s.toByteArray.utf8DecodeChar? 0 = some r) :
    s = String.utf8EncodeChar r ++ s.drop r.utf8Size := by
  obtain ⟨l, hl⟩ := ByteArray.exists_of_utf8DecodeChar?_eq_some h
  have hs : s = String.utf8EncodeChar r ++ l.data.toList := by
    have := congrArg (fun b : ByteArray => b.data.toList) hl
    simpa using this
  conv_rhs => rw [hs]
  rw [← String.length_utf8EncodeChar, List.drop_left]
  exact hs

theorem decode_encode_append (r : Char) (s : Str) :
    (String.utf8EncodeChar r ++ s).toByteArray.utf8DecodeChar? 0 = some r := by
  rw [List.toByteArray_append]
  exact ByteArray.utf8DecodeChar?_utf8EncodeChar_append

theorem take_of_decode {s : Str} {r : Char} (h : s.toByteArray.utf8DecodeChar? 0 = some r) :
    s.take r.utf8Size = String.utf8EncodeChar r := by
  conv_lhs => rw [eq_encode_append h]
  rw [← String.length_utf8EncodeChar, List.take_left]

/-- The runes are all of the string. -/
theorem runesLoop_bytes : ∀ {fuel : ℕ} {s : Str}, s.length ≤ fuel →
    (runesLoop fuel s).flatMap Prod.snd = s
  | 0, s, h => (List.length_eq_zero_iff.mp (Nat.le_zero.mp h)).symm
  | _ + 1, [], _ => rfl
  | fuel + 1, b :: s, h => by
    unfold runesLoop
    cases hd : (b :: s).toByteArray.utf8DecodeChar? 0 with
    | none =>
      simp only [List.flatMap_cons, runesLoop_bytes (Nat.le_of_succ_le_succ h),
        List.singleton_append]
    | some r =>
      have hlen : ((b :: s).drop r.utf8Size).length ≤ fuel := by
        have := r.utf8Size_pos
        simp only [List.length_drop, List.length_cons] at h ⊢
        omega
      simp only [List.flatMap_cons, runesLoop_bytes hlen, List.take_append_drop]

theorem runes_bytes (s : Str) : (runes s).flatMap Prod.snd = s := runesLoop_bytes le_rfl

theorem mem_runesLoop : ∀ {fuel : ℕ} {s : Str} {r : Char × Str}, r ∈ runesLoop fuel s →
    r.1 = runeError ∨ r.2 = String.utf8EncodeChar r.1
  | 0, s, r, h => by cases h
  | _ + 1, [], r, h => by cases h
  | fuel + 1, b :: s, r, h => by
    unfold runesLoop at h
    cases hd : (b :: s).toByteArray.utf8DecodeChar? 0 with
    | none =>
      simp only [hd, List.mem_cons] at h
      rcases h with rfl | h
      · exact .inl rfl
      · exact mem_runesLoop h
    | some r' =>
      simp only [hd, List.mem_cons] at h
      rcases h with rfl | h
      · exact .inr (take_of_decode hd)
      · exact mem_runesLoop h

theorem runesLoop_encode : ∀ {fuel : ℕ} {text : List Char},
    (text.flatMap String.utf8EncodeChar).length ≤ fuel →
      runesLoop fuel (text.flatMap String.utf8EncodeChar) =
        text.map fun r => (r, String.utf8EncodeChar r)
  | 0, [], _ => rfl
  | _ + 1, [], _ => rfl
  | fuel, r :: text, h => by
    have hpos := r.utf8Size_pos
    rw [← String.length_utf8EncodeChar] at hpos
    have hd := decode_encode_append r (text.flatMap String.utf8EncodeChar)
    have htake := take_of_decode hd
    have hdrop : (String.utf8EncodeChar r ++ text.flatMap String.utf8EncodeChar).drop r.utf8Size =
        text.flatMap String.utf8EncodeChar := by
      rw [← String.length_utf8EncodeChar, List.drop_left]
    rw [List.flatMap_cons, List.length_append] at h
    rw [List.flatMap_cons, List.map_cons]
    cases fuel with
    | zero => omega
    | succ fuel =>
      cases hs : String.utf8EncodeChar r ++ text.flatMap String.utf8EncodeChar with
      | nil => simp [List.append_eq_nil_iff.mp hs] at hpos
      | cons b s =>
        rw [hs] at hd htake hdrop
        unfold runesLoop
        simp only [hd, htake, hdrop]
        rw [runesLoop_encode (by omega)]

/-- The runes of a text in UTF-8 are its characters. -/
theorem runes_encode (text : List Char) : runes (text.flatMap String.utf8EncodeChar) =
    text.map fun r => (r, String.utf8EncodeChar r) := runesLoop_encode le_rfl

/-! ## Words -/

section Words

variable {isLetter : Char → Bool} {w s : Str}

/-- `w` is a maximal run of letters in `s`. -/
def Occurs (isLetter : Char → Bool) (w s : Str) : Prop :=
  ∃ run, MaximalRun (fun r => isLetter r.1) (runes s) run ∧ w = run.flatMap Prod.snd

/-- In a text the words are runs of its characters. -/
theorem occurs_encode {text : List Char} :
    Occurs isLetter w (text.flatMap String.utf8EncodeChar) ↔
      ∃ run, MaximalRun isLetter text run ∧ w = run.flatMap String.utf8EncodeChar := by
  simp only [Occurs, runes_encode, maximalRun_map]
  constructor
  · rintro ⟨_, ⟨run, hrun, rfl⟩, rfl⟩
    exact ⟨run, hrun, by simp [List.flatMap_map]⟩
  · rintro ⟨run, hrun, rfl⟩
    exact ⟨_, ⟨run, hrun, rfl⟩, by simp [List.flatMap_map]⟩

theorem Occurs.validUtf8 (hl : isLetter runeError = false) (h : Occurs isLetter w s) :
    ValidUtf8 w := by
  obtain ⟨run, ⟨l₁, l₂, hs, -, hall, -, -⟩, rfl⟩ := h
  refine ⟨run.map Prod.fst, ?_⟩
  rw [List.flatMap_map]
  refine List.flatMap_congr fun r hr => ?_
  have hmem : r ∈ runes s := by
    rw [hs]
    simp [hr]
  rcases mem_runesLoop hmem with herr | hr'
  · have := hall r hr
    simp [herr, hl] at this
  · exact hr'.symm

theorem eq_of_mem_encode {c : Char} {b : UInt8} (hb : b ∈ String.utf8EncodeChar c)
    (hlow : b.toNat < 128) : c.toNat = b.toNat := by
  have hof : ∀ v < 256, (UInt8.ofNat v).toNat = v := fun v hv => UInt8.toNat_ofNat_of_lt' hv
  simp only [String.utf8EncodeChar] at hb
  split_ifs at hb with h₁ h₂ h₃
  · obtain rfl := List.mem_singleton.mp hb
    rw [hof _ (by omega)]
    rfl
  -- a rune of several bytes has none below 128
  all_goals
    simp only [List.mem_cons, List.not_mem_nil, or_false] at hb
  · rcases hb with rfl | rfl <;> rw [hof _ (by omega)] at hlow <;> omega
  · rcases hb with rfl | rfl | rfl <;> rw [hof _ (by omega)] at hlow <;> omega
  · rcases hb with rfl | rfl | rfl | rfl <;> rw [hof _ (by omega)] at hlow <;> omega

theorem Occurs.colon_notMem (hl : isLetter runeError = false) (hc : isLetter ':' = false)
    (h : Occurs isLetter w s) : (58 : UInt8) ∉ w := by
  obtain ⟨run, ⟨l₁, l₂, hs, -, hall, -, -⟩, rfl⟩ := h
  intro hmem
  obtain ⟨r, hr, hb⟩ := List.mem_flatMap.mp hmem
  have hletter := hall r hr
  have hrune : r ∈ runes s := by
    rw [hs]
    simp [hr]
  rcases mem_runesLoop hrune with herr | henc
  · simp [herr, hl] at hletter
  · rw [henc] at hb
    have hcolon : r.1 = ':' := Char.toNat_inj.mp (eq_of_mem_encode hb (by decide))
    simp [hcolon, hc] at hletter

/-- The first of each is kept, in order. -/
theorem sliceUnique_eq (slice : List Str) : sliceUnique slice = slice.reverse.dedup.reverse := by
  suffices h : slice.foldl (fun (s : List Str × List Str) item =>
      if item ∈ s.1 then s else (item :: s.1, s.2 ++ [item])) ([], []) =
        (slice.reverse.dedup, slice.reverse.dedup.reverse) by
    rw [sliceUnique, h]
  induction slice using List.reverseRecOn with
  | nil => rfl
  | append_singleton slice item ih =>
    rw [List.foldl_append, ih, List.foldl_cons, List.foldl_nil, List.reverse_append,
      List.reverse_singleton, List.singleton_append, List.dedup_cons]
    by_cases h : item ∈ slice <;> simp [h]

theorem mem_fieldsFunc :
    w ∈ fieldsFunc (fun r => !isLetter r) s ↔ Occurs isLetter w s := by
  simp only [fieldsFunc, Bool.not_not, List.mem_map, mem_fields, Occurs, eq_comm]

/-- A file has one pair for each of its words. -/
theorem valuesOf_mapF (isLetter : Char → Bool) (document value w : Str) [Decidable
    (Occurs isLetter w value)] :
    valuesOf KeyValue.key KeyValue.value w (mapF isLetter document value) =
      if Occurs isLetter w value then [document] else [] := by
  have hmem : w ∈ sliceUnique (fieldsFunc (fun r => !isLetter r) value) ↔
      Occurs isLetter w value := by
    rw [sliceUnique_eq, List.mem_reverse, List.mem_dedup, List.mem_reverse, mem_fieldsFunc]
  have hnd : (sliceUnique (fieldsFunc (fun r => !isLetter r) value)).Nodup := by
    rw [sliceUnique_eq, List.nodup_reverse]
    exact List.nodup_dedup _
  rw [mapF, valuesOf_map, valuesOf]
  split_ifs with h
  · have hone : (sliceUnique (fieldsFunc (fun r => !isLetter r) value)).filter (fun v => v = w) =
        [w] := by
      rw [List.filter_eq, List.count_eq_one_of_mem hnd (hmem.mpr h), List.replicate_one]
    simp [Function.comp_def, hone]
  · have hnil : (sliceUnique (fieldsFunc (fun r => !isLetter r) value)).filter (fun v => v = w) =
        [] := by
      rw [List.filter_eq, List.count_eq_zero_of_not_mem fun hw => h (hmem.mp hw)]
      rfl
    simp [Function.comp_def, hnil]

end Words

/-! ## Lines -/

/-- What stands after a word of the index. -/
def listing (docs : List Str) : Str :=
  itoa docs.length ++ ascii " " ++ (ascii ",").intercalate docs

/-- `reduceF` counts the values and lists them in order. -/
theorem reduceF_eq (key : Str) (values : List Str) :
    reduceF key values = listing (values.insertionSort (· ≤ ·)) := by
  have hloop : ∀ (l : List Str) (i length : ℕ) (buffer : Str), i + l.length = length →
      (l.zipIdx i).foldl (fun buffer (v : Str × ℕ) =>
        if v.2 + 1 ≠ length then buffer ++ v.1 ++ ascii "," else buffer ++ v.1) buffer =
        buffer ++ (ascii ",").intercalate l := by
    intro l
    induction l with
    | nil => simp
    | cons v l ih =>
      rintro i length buffer rfl
      rw [List.zipIdx_cons, List.foldl_cons, ih (i + 1) _ _ (by simp; omega)]
      cases l with
      | nil => simp [List.intercalate]
      | cons v' l => simp [List.intercalate]
  rw [reduceF, hloop _ 0 _ [] (by simp)]
  simp [listing]

theorem append_cons_inj {α : Type} {a : α} : ∀ {x x' t t' : List α}, a ∉ x → a ∉ x' →
    x ++ a :: t = x' ++ a :: t' → x = x' ∧ t = t'
  | [], [], _, _, _, _, h => ⟨rfl, (List.cons.inj h).2⟩
  | [], b :: _, _, _, _, h', h => absurd (List.cons.inj h).1 fun hb => h' (by simp [hb])
  | b :: _, [], _, _, h', _, h => absurd (List.cons.inj h).1 fun hb => h' (by simp [hb])
  | b :: x, b' :: x', _, _, hx, hx', h => by
    rw [List.cons_append, List.cons_append, List.cons.injEq] at h
    obtain ⟨rfl, h⟩ := h
    obtain ⟨rfl, ht⟩ := append_cons_inj (fun hm => hx (List.mem_cons_of_mem _ hm))
      (fun hm => hx' (List.mem_cons_of_mem _ hm)) h
    exact ⟨rfl, ht⟩

theorem intercalate_inj {a : UInt8} : ∀ {l l' : List Str}, (∀ s ∈ l, a ∉ s) → (∀ s ∈ l', a ∉ s) →
    l.length = l'.length → [a].intercalate l = [a].intercalate l' → l = l'
  | [], [], _, _, _, _ => rfl
  | [s], [s'], _, _, _, h => by simpa [List.intercalate] using h
  | s :: s₁ :: l, s' :: s₁' :: l', hl, hl', hlen, h => by
    have hsplit : ∀ (s s₁ : Str) (l : List Str), [a].intercalate (s :: s₁ :: l) =
        s ++ a :: [a].intercalate (s₁ :: l) := fun _ _ _ => by simp [List.intercalate]
    rw [hsplit, hsplit] at h
    obtain ⟨rfl, hrest⟩ := append_cons_inj (hl s (by simp)) (hl' s' (by simp)) h
    rw [intercalate_inj (fun s hs => hl s (List.mem_cons_of_mem _ hs))
      (fun s hs => hl' s (List.mem_cons_of_mem _ hs)) (by simpa using hlen) hrest]

/-- A file name without the signs that separate names and lines. -/
def Plain (f : Str) : Prop := (44 : UInt8) ∉ f ∧ (10 : UInt8) ∉ f

theorem newline_notMem_listing {docs : List Str} (h : ∀ f ∈ docs, Plain f) :
    (10 : UInt8) ∉ listing docs := by
  have hspace : (10 : UInt8) ∉ ascii " " := by decide
  have hcomma : (10 : UInt8) ∉ ascii "," := by decide
  have hdocs : (10 : UInt8) ∉ (ascii ",").intercalate docs := by
    induction docs with
    | nil => simp [List.intercalate]
    | cons f docs ih =>
      have hrest := ih fun f hf => h f (List.mem_cons_of_mem _ hf)
      cases docs with
      | nil => simpa [List.intercalate] using (h f (by simp)).2
      | cons f' docs =>
        have hsplit : (ascii ",").intercalate (f :: f' :: docs) =
            f ++ (ascii "," ++ (ascii ",").intercalate (f' :: docs)) := by simp [List.intercalate]
        rw [hsplit]
        simp only [List.mem_append, not_or]
        exact ⟨(h f (by simp)).2, hcomma, hrest⟩
  simp only [listing, List.mem_append, not_or]
  exact ⟨⟨fun hmem => absurd (digit_of_mem_itoa hmem).1 (by decide), hspace⟩, hdocs⟩

theorem listing_inj {docs docs' : List Str} (h : ∀ f ∈ docs, Plain f) (h' : ∀ f ∈ docs', Plain f)
    (heq : listing docs = listing docs') : docs = docs' := by
  have hspace : ∀ n, (32 : UInt8) ∉ itoa n := fun n hmem =>
    absurd (digit_of_mem_itoa hmem).1 (by decide)
  have hform : ∀ docs, listing docs = itoa docs.length ++ 32 :: [44].intercalate docs := by
    intro docs
    have hsep : ascii " " = [32] ∧ ascii "," = [44] := by decide
    simp [listing, hsep]
  rw [hform, hform] at heq
  obtain ⟨hlen, hnames⟩ := append_cons_inj (hspace _) (hspace _) heq
  exact intercalate_inj (fun f hf => (h f hf).1) (fun f hf => (h' f hf).1) (itoa_injective hlen)
    hnames

/-- The lines of an index with plain names, and words without a colon, can be read back. -/
theorem lines_inj {docs docs' : Str → List Str} (hd : ∀ w, ∀ f ∈ docs w, Plain f)
    (hd' : ∀ w, ∀ f ∈ docs' w, Plain f) : ∀ {words words' : List Str},
    (∀ w ∈ words, (58 : UInt8) ∉ w) → (∀ w ∈ words', (58 : UInt8) ∉ w) →
    (words.flatMap fun w => line w (listing (docs w))) =
      (words'.flatMap fun w => line w (listing (docs' w))) →
    words = words' ∧ ∀ w ∈ words, docs w = docs' w
  | [], [], _, _, _ => ⟨rfl, by simp⟩
  | [], w :: _, _, _, h => by simp [line, ascii] at h
  | w :: _, [], _, _, h => by simp [line, ascii] at h
  | w :: words, w' :: words', hw, hw', h => by
    have hform : ∀ (w v t : Str), line w v ++ t = w ++ 58 :: 32 :: (v ++ 10 :: t) := by
      intro w v t
      have hsep : ascii ": " = [58, 32] ∧ ascii "\n" = [10] := by decide
      simp [line, hsep]
    rw [List.flatMap_cons, List.flatMap_cons, hform, hform] at h
    obtain ⟨rfl, h⟩ := append_cons_inj (hw w (by simp)) (hw' w' (by simp)) h
    obtain ⟨hv, h⟩ := append_cons_inj (newline_notMem_listing (hd w))
      (newline_notMem_listing (hd' w)) (List.cons.inj h).2
    obtain ⟨rfl, hrest⟩ := lines_inj hd hd' (fun w hmem => hw w (List.mem_cons_of_mem _ hmem))
      (fun w hmem => hw' w (List.mem_cons_of_mem _ hmem)) h
    refine ⟨rfl, fun v hmem => ?_⟩
    rcases List.mem_cons.mp hmem with rfl | hmem
    · exact listing_inj (hd _) (hd' _) hv
    · exact hrest v hmem

/-! ## The index -/

/-- The word is in the file. -/
def Contains (isLetter : Char → Bool) (d : Dir) (w f : Str) : Prop :=
  ∃ s, d f = some s ∧ Occurs isLetter w s

/-- `out` has a line for each word that is in some of the files: how many files it is in and which
they are, in ascending order. -/
def IsIndex (isLetter : Char → Bool) (d : Dir) (files : List Str) (out : Str) : Prop :=
  ∃ (words : List Str) (docs : Str → List Str),
    words.Pairwise (· < ·) ∧ (∀ w, w ∈ words ↔ ∃ f ∈ files, Contains isLetter d w f) ∧
    (∀ w, (docs w).Pairwise (· < ·) ∧
      ∀ f, f ∈ docs w ↔ f ∈ files ∧ Contains isLetter d w f) ∧
    out = words.flatMap fun w => line w (listing (docs w))

section Index

variable {isLetter : Char → Bool} {d : Dir} {files files' : List Str} {jobName : Str} {nReduce : ℕ}

/-- There is one index of a set of files. -/
theorem IsIndex.unique {out out' : Str} (hfiles : ∀ f, f ∈ files ↔ f ∈ files')
    (h : IsIndex isLetter d files out) (h' : IsIndex isLetter d files' out') : out = out' := by
  obtain ⟨words, docs, hwords, hmem, hdocs, rfl⟩ := h
  obtain ⟨words', docs', hwords', hmem', hdocs', rfl⟩ := h'
  have hw : words = words' := hwords.eq_of_mem_iff hwords' fun w => by
    simp only [hmem, hmem', hfiles]
  have hd : docs = docs' := funext fun w => (hdocs w).1.eq_of_mem_iff (hdocs' w).1 fun f => by
    rw [(hdocs w).2, (hdocs' w).2, hfiles]
  rw [hw, hd]

/-- Two directories whose files have the same index have the same words in each file. -/
theorem IsIndex.contains_iff {d' : Dir} {out : Str} (hl : isLetter runeError = false)
    (hc : isLetter ':' = false) (hplain : ∀ f ∈ files, Plain f)
    (h : IsIndex isLetter d files out) (h' : IsIndex isLetter d' files out) :
    ∀ f ∈ files, ∀ w, Contains isLetter d w f ↔ Contains isLetter d' w f := by
  obtain ⟨words, docs, -, hmem, hdocs, rfl⟩ := h
  obtain ⟨words', docs', -, hmem', hdocs', heq⟩ := h'
  have hcolon : ∀ {d : Dir} {w f : Str}, Contains isLetter d w f → (58 : UInt8) ∉ w := by
    rintro d w f ⟨s, -, hw⟩
    exact hw.colon_notMem hl hc
  obtain ⟨rfl, hsame⟩ := lines_inj (fun w f hf => hplain f (((hdocs w).2 f).mp hf).1)
    (fun w f hf => hplain f (((hdocs' w).2 f).mp hf).1)
    (fun w hw => by obtain ⟨f, -, hf⟩ := (hmem w).mp hw; exact hcolon hf)
    (fun w hw => by obtain ⟨f, -, hf⟩ := (hmem' w).mp hw; exact hcolon hf) heq
  intro f hf w
  constructor
  · intro hw
    have hdoc := ((hdocs w).2 f).mpr ⟨hf, hw⟩
    rw [hsame w ((hmem w).mpr ⟨f, hf, hw⟩)] at hdoc
    exact (((hdocs' w).2 f).mp hdoc).2
  · intro hw
    have hdoc := ((hdocs' w).2 f).mpr ⟨hf, hw⟩
    rw [← hsame w ((hmem' w).mpr ⟨f, hf, hw⟩)] at hdoc
    exact (((hdocs w).2 f).mp hdoc).2

open scoped Classical in
/-- The values of a word are the files it is in. -/
theorem valuesOf_emissions (hin : ∀ f ∈ files, d f ≠ none) (w : Str) :
    valuesOf KeyValue.key KeyValue.value w
      ((invertedIndex isLetter jobName files nReduce).emissions d) =
      files.filter fun f => Contains isLetter d w f := by
  have hone : ∀ f ∈ files, valuesOf KeyValue.key KeyValue.value w
      (mapF isLetter f ((d f).getD [])) = if Contains isLetter d w f then [f] else [] := by
    intro f hf
    obtain ⟨s, hs⟩ := Option.ne_none_iff_exists'.mp (hin f hf)
    rw [valuesOf_mapF]
    simp [hs, Contains]
  rw [Job.emissions, valuesOf_flatMap]
  refine (List.flatMap_congr hone).trans ?_
  clear hin hone
  induction files with
  | nil => rfl
  | cons f files ih =>
    rw [List.flatMap_cons, ih]
    by_cases hf : Contains isLetter d w f <;> simp [hf]

theorem isIndex_expected (hnodup : files.Nodup) (hin : ∀ f ∈ files, d f ≠ none) :
    IsIndex isLetter d files ((invertedIndex isLetter jobName files nReduce).expected d) := by
  classical
  set job := invertedIndex isLetter jobName files nReduce with hjob
  refine ⟨Job.keysInOrder (job.emissions d),
    fun w => (files.filter fun f => Contains isLetter d w f).insertionSort (· ≤ ·),
    pairwise_lt_insertionSort (List.nodup_dedup _), fun w => ?_, fun w => ⟨?_, fun f => ?_⟩, ?_⟩
  · have hnil : valuesOf KeyValue.key KeyValue.value w (job.emissions d) = [] ↔
        w ∉ (job.emissions d).map KeyValue.key := valuesOf_eq_nil_iff
    rw [hjob, valuesOf_emissions hin, List.filter_eq_nil_iff] at hnil
    rw [Job.keysInOrder, List.mem_insertionSort, List.mem_dedup, ← not_iff_not, ← hnil]
    simp
  · exact pairwise_lt_insertionSort (hnodup.filter _)
  · simp [List.mem_insertionSort]
  · unfold Job.expected
    refine List.flatMap_congr fun w _ => ?_
    rw [hjob, valuesOf_emissions hin]
    exact congrArg _ (reduceF_eq w _)

theorem mem_emissions_iff (hin : ∀ f ∈ files, d f ≠ none) {kv : KeyValue} :
    kv ∈ (invertedIndex isLetter jobName files nReduce).emissions d ↔
      kv.value ∈ files ∧ Contains isLetter d kv.key kv.value := by
  have hmapF : ∀ f ∈ files, kv ∈ mapF isLetter f ((d f).getD []) ↔
      kv.value = f ∧ Contains isLetter d kv.key f := by
    intro f hf
    obtain ⟨s, hs⟩ := Option.ne_none_iff_exists'.mp (hin f hf)
    obtain ⟨w, v⟩ := kv
    simp [mapF, sliceUnique_eq, mem_fieldsFunc, hs, Contains, eq_comm, and_comm]
  rw [Job.emissions, List.mem_flatMap]
  constructor
  · rintro ⟨f, hf, hkv⟩
    obtain ⟨rfl, hw⟩ := (hmapF f hf).mp hkv
    exact ⟨hf, hw⟩
  · rintro ⟨hf, hw⟩
    exact ⟨kv.value, hf, (hmapF _ hf).mpr ⟨rfl, hw⟩⟩

end Index

theorem ValidUtf8.append {s s' : Str} (h : ValidUtf8 s) (h' : ValidUtf8 s') :
    ValidUtf8 (s ++ s') := by
  obtain ⟨text, rfl⟩ := h
  obtain ⟨text', rfl⟩ := h'
  exact ⟨text ++ text', by simp⟩

theorem validUtf8_intercalate {sep : Str} (hsep : ValidUtf8 sep) :
    ∀ {l : List Str}, (∀ s ∈ l, ValidUtf8 s) → ValidUtf8 (sep.intercalate l)
  | [], _ => ⟨[], rfl⟩
  | [s], h => by simpa [List.intercalate] using h s (by simp)
  | s :: s' :: l, h => by
    have hrest := validUtf8_intercalate hsep fun x hx => h x (List.mem_cons_of_mem _ hx)
    have hsplit : sep.intercalate (s :: s' :: l) = s ++ (sep ++ sep.intercalate (s' :: l)) := by
      simp [List.intercalate]
    rw [hsplit]
    exact (h s (by simp)).append (hsep.append hrest)

theorem validUtf8_reduceF (key : Str) {values : List Str} (h : ∀ v ∈ values, ValidUtf8 v) :
    ValidUtf8 (reduceF key values) := by
  have hspace : ∀ b ∈ ascii " ", b.toNat < 128 := by decide +kernel
  have hcomma : ∀ b ∈ ascii ",", b.toNat < 128 := by decide +kernel
  rw [reduceF_eq]
  refine ((validUtf8_itoa _).append (validUtf8_of_ascii hspace)).append
    (validUtf8_intercalate (validUtf8_of_ascii hcomma) fun v hv => ?_)
  exact h v ((List.mem_insertionSort _).mp hv)

section Sequential

variable {isLetter : Char → Bool} {d : Dir} {files : List Str} {jobName : Str} {nReduce : ℕ}

theorem readBuf_ne_none (hin : ∀ f ∈ files, d f ≠ none) : ∀ f ∈ files, d.readBuf f ≠ none := by
  intro f hf
  simpa [Dir.readBuf] using hin f hf

/-- `Sequential` writes the index of what is read of the files. -/
theorem sequential_isIndex (J : Codec) (ord : ℕ → RangeOrder) (hl : isLetter runeError = false)
    (hnodup : files.Nodup) (hutf8 : ∀ f ∈ files, ValidUtf8 f) (hin : ∀ f ∈ files, d f ≠ none)
    (hfresh : (invertedIndex isLetter jobName files nReduce).NoLeftovers d)
    (hn : UInt32.ofNat nReduce ≠ 0 ∨ ∀ f ∈ files, ∀ w, ¬ Contains isLetter d.readBuf w f) :
    ∃ d' out, (invertedIndex isLetter jobName files nReduce).sequential J ord d = .ok d' ∧
      (invertedIndex isLetter jobName files nReduce).output d' = some out ∧
      IsIndex isLetter d.readBuf files out := by
  set job := invertedIndex isLetter jobName files nReduce with hjob
  have hbuf := readBuf_ne_none hin
  have hn' : UInt32.ofNat job.nReduce ≠ 0 ∨ job.emissions d.readBuf = [] := by
    refine hn.imp id fun hnone => List.eq_nil_iff_forall_not_mem.mpr fun kv hkv => ?_
    obtain ⟨hf, hw⟩ := (mem_emissions_iff hbuf).mp hkv
    exact hnone _ hf _ hw
  have hmapF : ∀ kv ∈ job.emissions d.readBuf, J.coercePair kv = kv := by
    intro kv hkv
    obtain ⟨hf, s, -, hw⟩ := (mem_emissions_iff hbuf).mp hkv
    simp [Codec.coercePair, J.coerce_of_valid (hw.validUtf8 hl), J.coerce_of_valid (hutf8 _ hf)]
  have hreduceF : ∀ k, valuesOf KeyValue.key KeyValue.value k (job.emissions d.readBuf) ≠ [] →
      J.coerce (job.reduceF k (valuesOf KeyValue.key KeyValue.value k (job.emissions d.readBuf))) =
        job.reduceF k (valuesOf KeyValue.key KeyValue.value k (job.emissions d.readBuf)) := by
    intro k _
    refine J.coerce_of_valid (validUtf8_reduceF k fun v hv => ?_)
    obtain ⟨kv, hkv, rfl⟩ := List.mem_map.mp hv
    exact hutf8 _ ((mem_emissions_iff hbuf).mp (List.mem_of_mem_filter hkv)).1
  have hok : ∀ m : Fin job.files.length, ¬ job.Crashes d m := by
    rintro m ⟨h0, hne⟩
    obtain ⟨kv, hkv⟩ := List.exists_mem_of_ne_nil _ hne
    have hmem := Job.mem_emissions.mpr ⟨m, hkv⟩
    rcases hn' with hn' | hnil
    · exact hn' h0
    · simp [hnil] at hmem
  obtain ⟨d', hrun, hout⟩ := Job.sequential_final (J := J) (hfresh.apart hin) hin hok ord
  refine ⟨d', _, hrun, hout, ?_⟩
  rw [Job.final_eq_expected hfresh hmapF hn' hreduceF]
  exact isIndex_expected hnodup hbuf

theorem IsIndex.congr {d' : Dir} {out : Str}
    (h : ∀ f ∈ files, ∀ w, Contains isLetter d w f ↔ Contains isLetter d' w f)
    (hindex : IsIndex isLetter d files out) : IsIndex isLetter d' files out := by
  obtain ⟨words, docs, hwords, hmem, hdocs, rfl⟩ := hindex
  refine ⟨words, docs, hwords, fun w => (hmem w).trans ?_, fun w => ⟨(hdocs w).1, fun f => ?_⟩, rfl⟩
  · exact exists_congr fun f => and_congr_right fun hf => h f hf w
  · exact ((hdocs w).2 f).trans (and_congr_right fun hf => h f hf w)

variable (isLetter d files nReduce) in
/-- No map task divides by zero, and what the one `Read` does not get to makes no difference to the
words of a file. -/
def Indexable : Prop :=
  (UInt32.ofNat nReduce ≠ 0 ∨ ∀ f ∈ files, ∀ w, ¬ Contains isLetter d.readBuf w f) ∧
    ∀ f ∈ files, ∀ w, Contains isLetter d.readBuf w f ↔ Contains isLetter d w f

/-- `Sequential` writes the index, and for every order of the files the same one. -/
def Indexed (J : Codec) (isLetter : Char → Bool) (jobName : Str) (files : List Str) (nReduce : ℕ)
    (ord : ℕ → RangeOrder) (d : Dir) : Prop :=
  ∃ d' out, (invertedIndex isLetter jobName files nReduce).sequential J ord d = .ok d' ∧
    (invertedIndex isLetter jobName files nReduce).output d' = some out ∧
    IsIndex isLetter d files out ∧
    ∀ files' ord', files'.Perm files →
      ∃ d'', (invertedIndex isLetter jobName files' nReduce).sequential J ord' d = .ok d'' ∧
        (invertedIndex isLetter jobName files' nReduce).output d'' = some out

/-- The files have their index written if they are `Indexable`, and only then if their names have no
comma and no newline in them. -/
theorem sequential_isIndex_iff (J : Codec) {isLetter : Char → Bool}
    (hl : isLetter runeError = false) (hc : isLetter ':' = false) (jobName : Str)
    {files : List Str} (nReduce : ℕ) {d : Dir} (ord : ℕ → RangeOrder) (hnodup : files.Nodup)
    (hutf8 : ∀ f ∈ files, ValidUtf8 f) (hin : ∀ f ∈ files, d f ≠ none)
    (hfresh : (invertedIndex isLetter jobName files nReduce).NoLeftovers d) :
    (Indexable isLetter d files nReduce → Indexed J isLetter jobName files nReduce ord d) ∧
      ((∀ f ∈ files, Plain f) → Indexed J isLetter jobName files nReduce ord d →
        Indexable isLetter d files nReduce) := by
  constructor
  · rintro ⟨hn, hsame⟩
    obtain ⟨d', out, hrun, hout, hindex⟩ :=
      sequential_isIndex J ord hl hnodup hutf8 hin hfresh hn
    refine ⟨d', out, hrun, hout, hindex.congr hsame, fun files' ord' hperm => ?_⟩
    have hfresh' : (invertedIndex isLetter jobName files' nReduce).NoLeftovers d :=
      ⟨fun m hm => hfresh.intermediate m (hperm.length_eq ▸ hm), hfresh.result, hfresh.output⟩
    obtain ⟨d'', out', hrun', hout', hindex'⟩ := sequential_isIndex J ord' hl
      (hperm.nodup_iff.mpr hnodup) (fun f hf => hutf8 f (hperm.mem_iff.mp hf))
      (fun f hf => hin f (hperm.mem_iff.mp hf)) hfresh'
      (hn.imp id fun h f hf => h f (hperm.mem_iff.mp hf))
    exact ⟨d'', hrun', hindex'.unique (fun f => hperm.mem_iff) hindex ▸ hout'⟩
  · rintro hplain ⟨d', out, hrun, hout, hindex, -⟩
    have hn : UInt32.ofNat nReduce ≠ 0 ∨
        ∀ f ∈ files, ∀ w, ¬ Contains isLetter d.readBuf w f := by
      by_contra hcon
      push Not at hcon
      obtain ⟨h0, f, hf, w, hw⟩ := hcon
      -- a file with a word has a pair
      have hkv : (⟨w, f⟩ : KeyValue) ∈
          (invertedIndex isLetter jobName files nReduce).emissions d.readBuf :=
        (mem_emissions_iff (readBuf_ne_none hin)).mpr ⟨hf, hw⟩
      rw [Job.sequential_crash (hfresh.apart hin) hin h0 (List.ne_nil_of_mem hkv)] at hrun
      cases hrun
    obtain ⟨d'', out', hrun', hout', hindex'⟩ :=
      sequential_isIndex J ord hl hnodup hutf8 hin hfresh hn
    obtain rfl := Except.ok.inj (hrun.symm.trans hrun')
    obtain rfl := Option.some.inj (hout.symm.trans hout')
    exact ⟨hn, hindex'.contains_iff hl hc hplain hindex⟩

end Sequential

/-! ## Two files -/

/-- A directory with two files that have a word in common. -/
def memos : Dir := fun name =>
  if name = ascii "a.txt" then some (ascii "to do: to")
  else if name = ascii "b.txt" then some (ascii "do") else none

/-- `ii.go` on the two files. -/
def memoIndex (nReduce : ℕ) : Job :=
  invertedIndex Char.isAlpha (ascii "iiseq") [ascii "b.txt", ascii "a.txt"] nReduce

theorem memos_eq_none {jobName name rest : Str} (h : name = outputName jobName ++ rest) :
    memos name = none := by
  have hhead : name.head? = some 109 := by
    rw [h]
    rfl
  have ha : name ≠ ascii "a.txt" := by
    rintro rfl
    exact absurd hhead (by decide)
  have hb : name ≠ ascii "b.txt" := by
    rintro rfl
    exact absurd hhead (by decide)
  simp only [memos, if_neg ha, if_neg hb]

/-- No job has a file there. -/
theorem memos_noLeftovers (job : Job) : job.NoLeftovers memos where
  intermediate m _ r _ := memos_eq_none (reduceName_eq _ m r)
  result r _ := memos_eq_none (mergeName_eq _ r)
  output := memos_eq_none (List.append_nil _).symm

theorem memos_files : [ascii "b.txt", ascii "a.txt"].Nodup ∧
    (∀ f ∈ [ascii "b.txt", ascii "a.txt"], ValidUtf8 f) ∧
    ∀ f ∈ [ascii "b.txt", ascii "a.txt"], memos f ≠ none := by
  have hascii : ∀ f ∈ [ascii "b.txt", ascii "a.txt"], ∀ b ∈ f, b.toNat < 128 := by decide +kernel
  exact ⟨by decide, fun f hf => validUtf8_of_ascii (hascii f hf), by decide⟩

theorem memos_index : ∃ d out, (memoIndex 3).sequential printable (fun _ => .stored) memos = .ok d ∧
    (memoIndex 3).output d = some out ∧
    IsIndex Char.isAlpha memos [ascii "b.txt", ascii "a.txt"] out ∧
    out = ascii "do: 2 a.txt,b.txt\nto: 1 a.txt\n" := by
  obtain ⟨hnodup, hutf8, hin⟩ := memos_files
  have hbuf : ∀ f ∈ [ascii "b.txt", ascii "a.txt"], memos.readBuf f = memos f :=
    (Dir.readWhole_of_length (by decide +kernel)).readBuf_eq
  have hindexable : Indexable Char.isAlpha memos [ascii "b.txt", ascii "a.txt"] 3 :=
    ⟨.inl (by decide), fun f hf w => by rw [Contains, Contains, hbuf f hf]⟩
  have hletter : Char.isAlpha runeError = false ∧ Char.isAlpha ':' = false := by decide
  obtain ⟨d, out, hrun, hout, hindex, -⟩ := (sequential_isIndex_iff printable hletter.1 hletter.2
    (ascii "iiseq") 3 (fun _ => .stored) hnodup hutf8 hin (memos_noLeftovers _)).1 hindexable
  refine ⟨d, out, hrun, hout, hindex, ?_⟩
  have hcomputed : ((memoIndex 3).sequential printable (fun _ => .stored) memos).map
      (memoIndex 3).output = .ok (some (ascii "do: 2 a.txt,b.txt\nto: 1 a.txt\n")) := by
    decide +kernel
  have hrun' : (memoIndex 3).sequential printable (fun _ => .stored) memos = .ok d := hrun
  have hout' : (memoIndex 3).output d = some out := hout
  rw [hrun'] at hcomputed
  exact Option.some.inj (hout'.symm.trans (Except.ok.inj hcomputed))

/-- As many reduce tasks as a `uint32` has values. -/
theorem memos_panic : (1 ≤ UInt32.size ∧ (memoIndex UInt32.size).NoLeftovers memos) ∧
    (memoIndex UInt32.size).sequential printable (fun _ => .stored) memos =
      .error (.panic "integer divide by zero") := by
  obtain ⟨-, -, hin⟩ := memos_files
  have hkv : (memoIndex UInt32.size).emissions memos.readBuf ≠ [] := by decide +kernel
  refine ⟨⟨by decide, memos_noLeftovers _⟩, ?_⟩
  exact Job.sequential_crash ((memos_noLeftovers _).apart hin) hin (by decide) hkv _

end DistSystem.MapReduce
