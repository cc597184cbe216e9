import DistSystem.Etcd.Storage
import DistSystem.MapReduce.Json
import Mathlib.Data.Finmap
import Mathlib.Data.Finset.Sort

/-!
# The formats of the key-value store

Entries are pairs in the format of `encoding/gob`; a snapshot is the map as a JSON object.
-/

namespace DistSystem.Etcd

open MapReduce (Str ascii quote unquote expect unquote_quote expect_append)

/-- A `map[string]string`. -/
abbrev Store := Finmap fun _ : Str => Str

structure Kv where
  key : Str
  val : Str
  deriving DecidableEq

structure Codec where
  /-- `Decode` of `encoding/gob`. -/
  decode : Str → Option Kv
  /-- `json.Marshal` of a map. -/
  marshal : Store → Str
  /-- `json.Unmarshal` into a map. -/
  unmarshal : Str → Option Store
  unmarshal_marshal : ∀ m, unmarshal (marshal m) = some m

theorem Codec.marshal_injective (C : Codec) : Function.Injective C.marshal := fun m m' h => by
  have := C.unmarshal_marshal m
  rw [h, C.unmarshal_marshal] at this
  exact (Option.some.inj this).symm

/-! ## The formats on printable text -/

/-- What a gob stream says first: the type `kv`, a struct of two strings. -/
def gobType : Str :=
  [32, 255, 129, 3, 1, 1, 2, 107, 118, 1, 255, 130, 0, 1, 2, 1, 3, 75, 101, 121, 1, 12, 0, 1, 3,
    86, 97, 108, 1, 12, 0, 0, 0]

/-- The gob stream of one pair of strings, neither empty, of less than 58 bytes. -/
def gob (key val : Str) : Str :=
  gobType ++ [UInt8.ofNat (key.length + val.length + 7), 255, 130, 1, UInt8.ofNat key.length] ++
    key ++ [1, UInt8.ofNat val.length] ++ val ++ [0]

def ungob (s : Str) : Option Kv := do
  let s ← expect gobType s
  match s with
  | _ :: 255 :: 130 :: 1 :: n :: s =>
    match s.drop n.toNat with
    | 1 :: m :: s' => some ⟨s.take n.toNat, s'.take m.toNat⟩
    | _ => none
  | _ => none

/-- The members of an object with its closing brace. -/
def printMembers : List (Str × Str) → Str
  | [] => ascii "\x7d"
  | [p] => 34 :: (quote p.1 ++ 34 :: 58 :: 34 :: (quote p.2 ++ 34 :: ascii "\x7d"))
  | p :: q :: l =>
    34 :: (quote p.1 ++ 34 :: 58 :: 34 :: (quote p.2 ++ 34 :: 44 :: printMembers (q :: l)))

def readMembers : ℕ → Str → Option (List (Str × Str))
  | 0, _ => none
  | n + 1, s => do
    let s ← expect [34] s
    let (key, s) ← unquote s
    let s ← expect [58, 34] s
    let (val, s) ← unquote s
    if s = ascii "\x7d" then some [(key, val)]
    else
      let s ← expect [44] s
      let l ← readMembers n s
      some ((key, val) :: l)

def readObject (s : Str) : Option (List (Str × Str)) :=
  if s = ascii "\x7b\x7d" then some []
  else do
    let s ← expect (ascii "\x7b") s
    readMembers s.length s

/-- The members of a map in the order of their keys. -/
def members (m : Store) : List (Str × Str) :=
  (m.keys.sort (· ≤ ·)).map fun key => (key, (m.lookup key).getD [])

def ofMembers (l : List (Str × Str)) : Store := l.foldl (fun m p => m.insert p.1 p.2) ∅

theorem readMembers_printMembers : ∀ (l : List (Str × Str)) (n : ℕ), l ≠ [] → l.length ≤ n →
    readMembers n (printMembers l) = some l
  | [], n, h, hn => absurd rfl h
  | [p], 0, h, hn => by simp at hn
  | [p], n + 1, h, hn => by
    simp [readMembers, printMembers, expect, unquote_quote]
  | p :: q :: l, 0, h, hn => by simp at hn
  | p :: q :: l, n + 1, h, hn => by
    have ih := readMembers_printMembers (q :: l) n (by simp) (by simpa using hn)
    have hne : 44 :: printMembers (q :: l) ≠ ascii "\x7d" := fun heq =>
      absurd (List.cons.inj heq).1 (by decide)
    simp [readMembers, printMembers, expect, unquote_quote, ih, hne]

theorem length_le_printMembers : ∀ l : List (Str × Str), l.length ≤ (printMembers l).length
  | [] => Nat.zero_le _
  | [p] => by simp [printMembers]
  | p :: q :: l => by
    have := length_le_printMembers (q :: l)
    simp only [printMembers, List.length_cons, List.length_append] at this ⊢
    omega

theorem readObject_printMembers (l : List (Str × Str)) :
    readObject (ascii "\x7b" ++ printMembers l) = some l := by
  unfold readObject
  rcases l with _ | ⟨p, l⟩
  · rfl
  · have hne : ascii "\x7b" ++ printMembers (p :: l) ≠ ascii "\x7b\x7d" := by
      rcases l with _ | ⟨q, l⟩ <;> simp [ascii, printMembers]
    rw [if_neg hne, expect_append]
    exact readMembers_printMembers _ _ (by simp) (length_le_printMembers _)

theorem lookup_foldl_insert (f : Str → Str) (key : Str) : ∀ (keys : List Str) (m : Store),
    ((keys.map fun k => (k, f k)).foldl (fun m p => m.insert p.1 p.2) m).lookup key =
      if key ∈ keys then some (f key) else m.lookup key
  | [], m => by simp
  | k :: keys, m => by
    rw [List.map_cons, List.foldl_cons, lookup_foldl_insert f key keys]
    by_cases hmem : key ∈ keys
    · simp [hmem]
    · by_cases hk : key = k
      · subst hk
        simp [hmem]
      · simp [hmem, hk, Finmap.lookup_insert_of_ne]

theorem ofMembers_members (m : Store) : ofMembers (members m) = m := by
  refine Finmap.ext_lookup fun key => ?_
  rw [ofMembers, members, lookup_foldl_insert]
  by_cases hmem : key ∈ m
  · obtain ⟨val, hval⟩ := Finmap.mem_iff.mp hmem
    simp [Finmap.mem_keys, hmem, hval]
  · simp [Finmap.mem_keys, hmem, Finmap.lookup_eq_none.mpr hmem]

/-- The formats as they are on short printable text. -/
def plain : Codec where
  decode := ungob
  marshal m := ascii "\x7b" ++ printMembers (members m)
  unmarshal s := (readObject s).map ofMembers
  unmarshal_marshal m := by
    rw [readObject_printMembers, Option.map_some, ofMembers_members]

end DistSystem.Etcd
