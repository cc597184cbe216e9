import DistSystem.Lib.Fields
import DistSystem.MapReduce.Tasks

/-!
# The inverted index

`mapF` and `reduceF` of `ii.go`, and what they use of `strings` and `unicode`. Which runes are
letters is a parameter: the tables of `unicode.IsLetter` are not looked into.
-/

namespace DistSystem.MapReduce

/-! ## Runes -/

/-- `utf8.RuneError`. -/
def runeError : Char := Char.ofNat 0xFFFD

/-- What `range` goes through in `fuel` bytes of a string: each rune with its bytes. A byte at which
no UTF-8 starts is taken for a `runeError`. -/
def runesLoop : ℕ → Str → List (Char × Str)
  | 0, _ => []
  | _ + 1, [] => []
  | fuel + 1, b :: s =>
    match (b :: s).toByteArray.utf8DecodeChar? 0 with
    | some r => (r, (b :: s).take r.utf8Size) :: runesLoop fuel ((b :: s).drop r.utf8Size)
    | none => (runeError, [b]) :: runesLoop fuel s

def runes (s : Str) : List (Char × Str) := runesLoop s.length s

/-- `strings.FieldsFunc`: the string is cut at the runes with `f`. -/
def fieldsFunc (f : Char → Bool) (s : Str) : List Str :=
  (Fields.fields (fun r => !f r.1) (runes s)).map fun field => field.flatMap Prod.snd

/-! ## ii.go -/

/-- `s` has the keys of `maps` and the slice so far. -/
def sliceUnique (slice : List Str) : List Str :=
  (slice.foldl (fun (s : List Str × List Str) item =>
    if item ∈ s.1 then s else (item :: s.1, s.2 ++ [item])) ([], [])).2

def mapF (isLetter : Char → Bool) (document value : Str) : List KeyValue :=
  let words := fieldsFunc (fun r => !isLetter r) value
  (sliceUnique words).map fun word => ⟨word, document⟩

def reduceF (_key : Str) (values : List Str) : Str :=
  let values := values.insertionSort (· ≤ ·)
  let length := values.length
  let buffer := values.zipIdx.foldl (fun buffer (v : Str × ℕ) =>
    if v.2 + 1 ≠ length then buffer ++ v.1 ++ ascii "," else buffer ++ v.1) []
  itoa length ++ ascii " " ++ buffer

/-- What `main` gives to `Sequential`, with any name and number of reduce tasks. -/
def invertedIndex (isLetter : Char → Bool) (jobName : Str) (files : List Str) (nReduce : ℕ) : Job :=
  ⟨jobName, files, nReduce, mapF isLetter, reduceF⟩

end DistSystem.MapReduce
