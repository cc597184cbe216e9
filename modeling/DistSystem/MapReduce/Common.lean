import Mathlib.Data.List.Lex
import Mathlib.Order.Defs.LinearOrder

/-!
# Strings, names and files

`common.go` and what the tasks need of the Go runtime: a string is its bytes, the working directory
holds the contents of each file by name, and a process ends early in a `Crash`.
-/

namespace DistSystem.MapReduce

instance byteOrder : LinearOrder UInt8 where
  le_refl := UInt8.le_refl
  le_trans _ _ _ := UInt8.le_trans
  le_antisymm _ _ := UInt8.le_antisymm
  le_total := UInt8.le_total
  lt_iff_le_not_ge a b := by
    simp only [UInt8.lt_iff_toNat_lt, UInt8.le_iff_toNat_le]
    omega
  toDecidableLE := inferInstance
  toDecidableLT := inferInstance

/-- A Go string. The order is the bytewise one of `sort.Strings`. -/
abbrev Str := List UInt8

instance lawfulStr : LawfulBEq Str := inferInstance

/-- The bytes of an ASCII literal. -/
def ascii (s : String) : Str := s.toList.map Char.toUInt8

/-- `strconv.Itoa` of a number that is not negative. -/
def itoa (n : ℕ) : Str := (Nat.toDigits 10 n).map Char.toUInt8

/-- The bytes of some text in UTF-8. -/
def ValidUtf8 (s : Str) : Prop := ∃ text : List Char, text.flatMap String.utf8EncodeChar = s

structure KeyValue where
  key : Str
  value : Str
  deriving DecidableEq, Inhabited

def reduceName (jobName : Str) (mapTask reduceTask : ℕ) : Str :=
  ascii "mrtmp." ++ jobName ++ ascii "-" ++ itoa mapTask ++ ascii "-" ++ itoa reduceTask

def mergeName (jobName : Str) (reduceTask : ℕ) : Str :=
  ascii "mrtmp." ++ jobName ++ ascii "-res-" ++ itoa reduceTask

/-- Where `merge` writes the output of the job. -/
def outputName (jobName : Str) : Str := ascii "mrtmp." ++ jobName

/-- How a process ends before its time: `log.Fatal` with a file it could not open, or a panic of the
runtime. -/
inductive Crash where
  | fatal (text : String) (file : Str)
  | panic (text : String)
  deriving DecidableEq

/-- The working directory, shared by the master and all workers. -/
abbrev Dir := Str → Option Str

namespace Dir

/-- `os.Create`, which empties a file that exists. -/
def create (d : Dir) (name : Str) : Dir := Function.update d name (some [])

/-- Bytes written at the end of an open file. -/
def write (d : Dir) (name bytes : Str) : Dir :=
  Function.update d name (some ((d name).getD [] ++ bytes))

end Dir

end DistSystem.MapReduce
