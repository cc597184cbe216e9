import DistSystem.MapReduce.Tasks

/-!
# The files of a job

The names of a job's files differ whenever the file does: a decimal number has no dash in it, and
`res` is no number.
-/

namespace DistSystem.MapReduce

theorem digit_toUInt8 {c : Char} (hc : c.isDigit) :
    48 ≤ c.toUInt8.toNat ∧ c.toUInt8.toNat ≤ 57 ∧ Char.ofNat c.toUInt8.toNat = c := by
  have hlo : 48 ≤ c.toNat := (Char.isDigit_iff_toNat.mp hc).1
  have hhi : c.toNat ≤ 57 := (Char.isDigit_iff_toNat.mp hc).2
  have htoNat : c.toUInt8.toNat = c.toNat := by
    have : c.toUInt8.toNat = c.toNat % 2 ^ 8 := rfl
    omega
  rw [htoNat]
  exact ⟨hlo, hhi, Char.ofNat_toNat c⟩

theorem isDigit_of_mem_toDigits {n : ℕ} {c : Char} (hc : c ∈ Nat.toDigits 10 n) : c.isDigit :=
  Nat.isDigit_of_mem_toDigits (by decide) (by decide) hc

theorem itoa_injective {m n : ℕ} (h : itoa m = itoa n) : m = n := by
  have hback : ∀ k, (itoa k).map (fun b => Char.ofNat b.toNat) = Nat.toDigits 10 k := by
    intro k
    rw [itoa, List.map_map]
    conv_rhs => rw [← List.map_id (Nat.toDigits 10 k)]
    exact List.map_congr_left fun c hc => (digit_toUInt8 (isDigit_of_mem_toDigits hc)).2.2
  have hd : Nat.toDigits 10 m = Nat.toDigits 10 n := by rw [← hback m, ← hback n, h]
  rw [← Nat.ofDigitChars_ten_toDigits (n := m), hd, Nat.ofDigitChars_ten_toDigits]

theorem digit_of_mem_itoa {n : ℕ} {b : UInt8} (hb : b ∈ itoa n) :
    48 ≤ b.toNat ∧ b.toNat ≤ 57 := by
  obtain ⟨c, hc, rfl⟩ := List.mem_map.mp hb
  obtain ⟨hlo, hhi, -⟩ := digit_toUInt8 (isDigit_of_mem_toDigits hc)
  exact ⟨hlo, hhi⟩

theorem dash_notMem_itoa (n : ℕ) : (45 : UInt8) ∉ itoa n :=
  fun h => absurd (digit_of_mem_itoa h).1 (by decide)

/-- What comes after the name of the job. -/
theorem reduceName_eq (jobName : Str) (m r : ℕ) :
    reduceName jobName m r = outputName jobName ++ 45 :: (itoa m ++ 45 :: itoa r) := by
  have hdash : ascii "-" = [45] := by decide
  simp [reduceName, outputName, hdash]

theorem mergeName_eq (jobName : Str) (r : ℕ) :
    mergeName jobName r = outputName jobName ++ 45 :: (ascii "res" ++ 45 :: itoa r) := by
  have hres : ascii "-res-" = 45 :: (ascii "res" ++ [45]) := by decide
  simp [mergeName, outputName, hres]

variable {jobName : Str} {m m' r r' : ℕ}

theorem reduceName_inj (h : reduceName jobName m r = reduceName jobName m' r') :
    m = m' ∧ r = r' := by
  rw [reduceName_eq, reduceName_eq, List.append_cancel_left_eq, List.cons.injEq] at h
  obtain ⟨hm, -, hr⟩ :=
    (List.append_cons_inj_of_notMem (dash_notMem_itoa m) (dash_notMem_itoa r)).mp h.2
  exact ⟨itoa_injective hm, itoa_injective hr⟩

theorem mergeName_inj (h : mergeName jobName r = mergeName jobName r') : r = r' := by
  rw [mergeName_eq, mergeName_eq, List.append_cancel_left_eq, List.cons.injEq,
    List.append_cancel_left_eq, List.cons.injEq] at h
  exact itoa_injective h.2.2

theorem reduceName_ne_mergeName : reduceName jobName m r ≠ mergeName jobName r' := by
  intro h
  rw [reduceName_eq, mergeName_eq, List.append_cancel_left_eq, List.cons.injEq] at h
  obtain ⟨hm, -, -⟩ :=
    (List.append_cons_inj_of_notMem (dash_notMem_itoa m) (dash_notMem_itoa r)).mp h.2
  have hres : (114 : UInt8) ∈ itoa m := by rw [hm]; decide
  exact absurd (digit_of_mem_itoa hres).2 (by decide)

theorem reduceName_ne_outputName : reduceName jobName m r ≠ outputName jobName := by
  rw [reduceName_eq]
  simp

theorem mergeName_ne_outputName : mergeName jobName r ≠ outputName jobName := by
  rw [mergeName_eq]
  simp

end DistSystem.MapReduce
