import DistSystem.MapReduce.Common

/-!
# Files of key/value pairs

Intermediate and result files are streams of `KeyValue`s in the format of `encoding/json`, which is
a parameter here: `Codec` holds an encoder, a decoder and what the package documents of the two.
-/

namespace DistSystem.MapReduce

/-- `json.Encoder` and `json.Decoder` on `KeyValue`. -/
structure Codec where
  /-- What `Encode` writes, the newline at the end included. -/
  encode : KeyValue → Str
  /-- `Decode` into a variable: from its value before and what is left of the stream, its value
  after and what is left then; `none` is an error, `io.EOF` included. -/
  decode : KeyValue → Str → Option (KeyValue × Str)
  /-- A string in which the bytes that are not UTF-8 have been replaced. -/
  coerce : Str → Str
  decode_lt : ∀ {cur kv : KeyValue} {s rest : Str},
    decode cur s = some (kv, rest) → rest.length < s.length
  decode_encode : ∀ (cur kv : KeyValue) (rest : Str),
    decode cur (encode kv ++ rest) = some (⟨coerce kv.key, coerce kv.value⟩, rest)
  decode_coerced : ∀ {cur kv : KeyValue} {s rest : Str}, coerce cur.key = cur.key →
    decode cur s = some (kv, rest) → coerce kv.key = kv.key
  coerce_of_valid : ∀ {s}, ValidUtf8 s → coerce s = s

namespace Codec

variable (J : Codec)

/-- The pair that comes back when `kv` is written and read. -/
def coercePair (kv : KeyValue) : KeyValue := ⟨J.coerce kv.key, J.coerce kv.value⟩

def encodeAll (kvs : List KeyValue) : Str := kvs.flatMap J.encode

/-- `Decode` until an error. Each call takes at least a byte, so `fuel` bytes are enough. The
variable of a call is made by `next` from the pair of the call before. -/
def decodeLoop (next : KeyValue → KeyValue) : ℕ → KeyValue → Str → List KeyValue
  | 0, _, _ => []
  | fuel + 1, cur, s =>
    match J.decode cur s with
    | none => []
    | some (kv, rest) => kv :: decodeLoop next fuel (next kv) rest

/-- The loop with one variable for the whole file. -/
def decodeInto (s : Str) : List KeyValue := J.decodeLoop id s.length default s

/-- The loop with a new variable for every pair. -/
def decodeFresh (s : Str) : List KeyValue := J.decodeLoop (fun _ => default) s.length default s

variable {J}

@[simp] theorem encodeAll_nil : J.encodeAll [] = [] := rfl

theorem encodeAll_concat (kvs : List KeyValue) (kv : KeyValue) :
    J.encodeAll (kvs ++ [kv]) = J.encodeAll kvs ++ J.encode kv := by
  simp [encodeAll]

theorem decode_nil (cur : KeyValue) : J.decode cur [] = none := by
  cases h : J.decode cur [] with
  | none => rfl
  | some p => exact absurd (J.decode_lt h) (Nat.not_lt_zero _)

/-- More fuel than bytes changes nothing. -/
theorem decodeLoop_fuel (next : KeyValue → KeyValue) :
    ∀ (fuel fuel' : ℕ) (cur : KeyValue) (s : Str), s.length ≤ fuel → s.length ≤ fuel' →
      J.decodeLoop next fuel cur s = J.decodeLoop next fuel' cur s
  | 0, 0, _, _, _, _ => rfl
  | 0, fuel' + 1, cur, s, h, _ => by
    obtain rfl : s = [] := List.length_eq_zero_iff.mp (Nat.le_zero.mp h)
    simp only [decodeLoop, decode_nil]
  | fuel + 1, 0, cur, s, _, h => by
    obtain rfl : s = [] := List.length_eq_zero_iff.mp (Nat.le_zero.mp h)
    simp only [decodeLoop, decode_nil]
  | fuel + 1, fuel' + 1, cur, s, h, h' => by
    simp only [decodeLoop]
    cases hd : J.decode cur s with
    | none => rfl
    | some p =>
      have hlt := J.decode_lt hd
      exact congrArg _ (decodeLoop_fuel next fuel fuel' _ _ (by omega) (by omega))

theorem decodeLoop_encodeAll (next : KeyValue → KeyValue) (kvs : List KeyValue) :
    ∀ (fuel : ℕ) (cur : KeyValue), (J.encodeAll kvs).length ≤ fuel →
      J.decodeLoop next fuel cur (J.encodeAll kvs) = kvs.map J.coercePair := by
  induction kvs with
  | nil =>
    intro fuel cur _
    cases fuel with
    | zero => rfl
    | succ fuel => simp only [decodeLoop, encodeAll_nil, decode_nil, List.map_nil]
  | cons kv kvs ih =>
    intro fuel cur hfuel
    have hsplit : J.encodeAll (kv :: kvs) = J.encode kv ++ J.encodeAll kvs := rfl
    have hd := J.decode_encode cur kv (J.encodeAll kvs)
    have hlt := J.decode_lt hd
    rw [hsplit] at hfuel ⊢
    cases fuel with
    | zero => omega
    | succ fuel =>
      simp only [decodeLoop, hd, List.map_cons]
      exact congrArg _ (ih fuel _ (by omega))

/-- A file reads back as it was written, up to bytes that are not UTF-8. -/
theorem decodeInto_encodeAll (kvs : List KeyValue) :
    J.decodeInto (J.encodeAll kvs) = kvs.map J.coercePair :=
  decodeLoop_encodeAll id kvs _ _ le_rfl

theorem decodeFresh_encodeAll (kvs : List KeyValue) :
    J.decodeFresh (J.encodeAll kvs) = kvs.map J.coercePair :=
  decodeLoop_encodeAll _ kvs _ _ le_rfl

theorem coerced_of_mem_decodeLoop : ∀ (fuel : ℕ) (cur : KeyValue) (s : Str),
    J.coerce cur.key = cur.key →
      ∀ kv ∈ J.decodeLoop id fuel cur s, J.coerce kv.key = kv.key
  | 0, _, _, _, kv, hkv => by simp [decodeLoop] at hkv
  | fuel + 1, cur, s, hcur, kv, hkv => by
    simp only [decodeLoop] at hkv
    cases hd : J.decode cur s with
    | none => simp [hd] at hkv
    | some p =>
      have hp := J.decode_coerced hcur hd
      simp only [hd, List.mem_cons] at hkv
      rcases hkv with rfl | hkv
      · exact hp
      · exact coerced_of_mem_decodeLoop fuel _ _ hp kv hkv

/-- Keys that were read are UTF-8, so writing them again keeps them. -/
theorem coerced_of_mem_decodeInto {s : Str} {kv : KeyValue} (hkv : kv ∈ J.decodeInto s) :
    J.coerce kv.key = kv.key :=
  coerced_of_mem_decodeLoop _ _ _ (J.coerce_of_valid ⟨[], rfl⟩) kv hkv

end Codec

/-! ## The format on printable text -/

/-- The inside of a JSON string: quotes and backslashes are escaped. -/
def quote (s : Str) : Str := s.flatMap fun c => if c = 34 ∨ c = 92 then [92, c] else [c]

/-- Reads the inside of a JSON string and its closing quote. -/
def unquote : Str → Option (Str × Str)
  | [] => none
  | c :: rest =>
    if c = 34 then some ([], rest)
    else if c = 92 then
      match rest with
      | [] => none
      | c' :: rest' => (unquote rest').map fun p => (c' :: p.1, p.2)
    else (unquote rest).map fun p => (c :: p.1, p.2)

theorem unquote_quote (s rest : Str) : unquote (quote s ++ 34 :: rest) = some (s, rest) := by
  induction s with
  | nil =>
    unfold unquote
    rfl
  | cons c s ih =>
    have hq : quote (c :: s) = (if c = 34 ∨ c = 92 then [92, c] else [c]) ++ quote s := rfl
    rw [hq]
    by_cases hc : c = 34 ∨ c = 92
    · simp [hc, unquote, ih]
    · obtain ⟨h₁, h₂⟩ := not_or.mp hc
      rw [if_neg hc, List.append_assoc, List.singleton_append, unquote.eq_def]
      simp only [h₁, h₂, if_false, ih, Option.map_some]

theorem unquote_le : ∀ (s : Str) {t rest : Str}, unquote s = some (t, rest) →
    rest.length < s.length
  | [], t, rest, h => by simp [unquote] at h
  | c :: s, t, rest, h => by
    unfold unquote at h
    split_ifs at h
    · simp only [Option.some.injEq, Prod.mk.injEq] at h
      simp [h.2]
    · cases s with
      | nil => simp at h
      | cons c' s =>
        simp only [Option.map_eq_some_iff, Prod.exists, Prod.mk.injEq] at h
        obtain ⟨t', rest', hu, -, rfl⟩ := h
        have := unquote_le s hu
        simp only [List.length_cons]
        omega
    · simp only [Option.map_eq_some_iff, Prod.exists, Prod.mk.injEq] at h
      obtain ⟨t', rest', hu, -, rfl⟩ := h
      have := unquote_le s hu
      simp only [List.length_cons]
      omega

/-- Takes `lit` off the front. -/
def expect (lit s : Str) : Option Str := if lit <+: s then some (s.drop lit.length) else none

@[simp] theorem expect_append (lit s : Str) : expect lit (lit ++ s) = some s := by
  simp [expect]

theorem expect_le {lit s rest : Str} (h : expect lit s = some rest) : rest.length ≤ s.length := by
  unfold expect at h
  split_ifs at h
  simp only [Option.some.injEq] at h
  simp [← h]

def printable : Codec where
  encode kv := ascii "\x7b\"Key\":\"" ++ (quote kv.key ++ 34 :: (ascii ",\"Value\":\"" ++
    (quote kv.value ++ 34 :: ascii "\x7d\n")))
  decode _ s := do
    let s ← expect (ascii "\x7b\"Key\":\"") s
    let (key, s) ← unquote s
    let s ← expect (ascii ",\"Value\":\"") s
    let (value, s) ← unquote s
    let s ← expect (ascii "\x7d\n") s
    some (⟨key, value⟩, s)
  coerce := id
  decode_lt {cur kv s rest} h := by
    simp only [Option.bind_eq_bind, Option.bind_eq_some_iff, Prod.exists, Option.some.injEq,
      Prod.mk.injEq] at h
    obtain ⟨s₁, h₁, key, s₂, h₂, s₃, h₃, value, s₄, h₄, s₅, h₅, -, rfl⟩ := h
    have l₁ := expect_le h₁
    have l₂ := unquote_le _ h₂
    have l₃ := expect_le h₃
    have l₄ := unquote_le _ h₄
    have l₅ := expect_le h₅
    omega
  decode_encode cur kv rest := by
    simp [unquote_quote]
  decode_coerced _ _ := rfl
  coerce_of_valid _ := rfl

end DistSystem.MapReduce
