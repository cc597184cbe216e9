import DistSystem.MapReduce.InvertedIndex
import Mathlib.Algebra.Group.Int.Defs
import Mathlib.Algebra.Group.Nat.Defs

/-!
# The word count

`mapF` and `reduceF` of `wc.go`, and what they use of `strconv`. An `int` has 64 bits.
-/

namespace DistSystem.MapReduce.WordCount

/-! ## strconv -/

inductive NumError where
  | errSyntax
  | errRange
  deriving DecidableEq

/-- The digits of `strconv.ParseUint(s, 10, 64)`, with the number so far. -/
def parseDigits : ℕ → Str → ℕ × Option NumError
  | n, [] => (n, none)
  | n, c :: s =>
    if c < 48 ∨ 57 < c then (0, some .errSyntax)
    else if 2 ^ 64 ≤ n * 10 + (c.toNat - 48) then (2 ^ 64 - 1, some .errRange)
    else parseDigits (n * 10 + (c.toNat - 48)) s

def parseUint (s : Str) : ℕ × Option NumError :=
  if s = [] then (0, some .errSyntax) else parseDigits 0 s

/-- `strconv.Atoi`, which has a number also where it has an error. -/
def atoi (s : Str) : ℤ × Option NumError :=
  if s = [] then (0, some .errSyntax)
  else
    let neg := s.head? = some 45
    let un := parseUint (if s.head? = some 43 ∨ s.head? = some 45 then s.tail else s)
    if un.2 = some .errSyntax then (0, un.2)
    else if ¬ neg ∧ 2 ^ 63 ≤ un.1 then (2 ^ 63 - 1, some .errRange)
    else if neg ∧ 2 ^ 63 < un.1 then (-2 ^ 63, some .errRange)
    else (if neg then -un.1 else un.1, none)

/-- `strconv.Itoa`. -/
def itoaInt : ℤ → Str
  | .ofNat n => itoa n
  | .negSucc n => ascii "-" ++ itoa (n + 1)

/-! ## wc.go -/

def mapF (isLetter : Char → Bool) (_document value : Str) : List KeyValue :=
  let values := fieldsFunc (fun r => !isLetter r) value
  values.map fun word => ⟨word, ascii "1"⟩

/-- A value that is no number is counted too, with what `Atoi` has for it. -/
def reduceF (_key : Str) (values : List Str) : Str :=
  let cnt := values.foldl (fun (cnt : ℤ) value => (cnt + (atoi value).1).bmod (2 ^ 64)) 0
  itoaInt cnt

/-- What `main` gives to `Sequential` and to the workers, with any name and number of reduce
tasks. -/
def wordCount (isLetter : Char → Bool) (jobName : Str) (files : List Str) (nReduce : ℕ) : Job :=
  ⟨jobName, files, nReduce, mapF isLetter, reduceF⟩

end DistSystem.MapReduce.WordCount
