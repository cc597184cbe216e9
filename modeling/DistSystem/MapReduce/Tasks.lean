import DistSystem.Lib.Grouping
import DistSystem.MapReduce.Json

/-!
# Map, reduce and merge

`doMap`, `doReduce` and `merge` as functions on the working directory, `Sequential`, and
`Worker.DoTask`. Each of them is carried out as a whole: a step of the program here is a task.
-/

namespace DistSystem.MapReduce

open Grouping

/-- The order in which `range` visits the entries of a Go map, which may be any order and a new one
each time. -/
structure RangeOrder where
  order : List (Sigma fun _ : Str => List Str) → List (Sigma fun _ : Str => List Str)
  perm : ∀ l, (order l).Perm l

/-! ## Map -/

/-- `fnv.New32a`. -/
def ihash (s : Str) : UInt32 :=
  s.foldl (fun h c => (h ^^^ c.toUInt32) * 16777619) 2166136261

/-- `rN`, the reduce task of a key. -/
def partition (nReduce : ℕ) (key : Str) : ℕ := (ihash key % UInt32.ofNat nReduce).toNat

/-- The body of the loop of `doMap`: `s` has the names with an encoder and the directory. -/
def emit (J : Codec) (jobName : Str) (mapTaskNumber nReduce : ℕ) (s : List Str × Dir)
    (kv : KeyValue) : Except Crash (List Str × Dir) :=
  if UInt32.ofNat nReduce = 0 then .error (.panic "integer divide by zero")
  else
    let intermediateName := reduceName jobName mapTaskNumber (partition nReduce kv.key)
    let s := if intermediateName ∈ s.1 then s
      else (intermediateName :: s.1, s.2.create intermediateName)
    .ok (s.1, s.2.write intermediateName (J.encode kv))

/-- As much as one `Read` of a file takes. -/
def maxRW : ℕ := 1 <<< 30

/-- `buf` after the `Read` of `doMap`. There is one `Read`, and its count is not looked at: what it
did not get to is zero in `buf`. -/
def readBuf (contents : Str) : Str :=
  contents.take maxRW ++ List.replicate (contents.length - maxRW) 0

def doMap (J : Codec) (jobName : Str) (mapTaskNumber : ℕ) (inFile : Str) (nReduce : ℕ)
    (mapF : Str → Str → List KeyValue) (d : Dir) : Except Crash Dir :=
  match d inFile with
  | none => .error (.fatal "Open file error: " inFile)
  | some contents =>
    ((mapF inFile (readBuf contents)).foldlM (emit J jobName mapTaskNumber nReduce) ([], d)).map
      Prod.snd

/-! ## Reduce -/

/-- The pairs of one intermediate file; one that does not exist is passed over. -/
def readFile (J : Codec) : Option Str → List KeyValue
  | none => []
  | some s => J.decodeInto s

/-- The pairs of a reduce task in the order in which its loops decode them. -/
def intermediate (J : Codec) (jobName : Str) (reduceTaskNumber nMap : ℕ) (d : Dir) :
    List KeyValue :=
  (List.range nMap).flatMap fun i => readFile J (d (reduceName jobName i reduceTaskNumber))

def doReduce (J : Codec) (ord : RangeOrder) (jobName : Str) (reduceTaskNumber nMap : ℕ)
    (reduceF : Str → List Str → Str) (d : Dir) : Dir :=
  let keyValues :=
    group KeyValue.key KeyValue.value (intermediate J jobName reduceTaskNumber nMap d)
  let mergeFile := mergeName jobName reduceTaskNumber
  (ord.order keyValues.entries).foldl
    (fun d e => d.write mergeFile (J.encode ⟨e.1, reduceF e.1 e.2⟩)) (d.create mergeFile)

/-! ## Merge -/

/-- The loop of `merge` over the result files. -/
def readResults (J : Codec) (jobName : Str) (nReduce : ℕ) (d : Dir) :
    Except Crash (AList fun _ : Str => Str) :=
  (List.range nReduce).foldlM (fun kvs i =>
    match d (mergeName jobName i) with
    | none => .error (.fatal "Merge: " (mergeName jobName i))
    | some s => .ok ((J.decodeFresh s).foldl (fun m kv => m.insert kv.key kv.value) kvs)) ∅

def line (k v : Str) : Str := k ++ ascii ": " ++ v ++ ascii "\n"

def merge (J : Codec) (jobName : Str) (nReduce : ℕ) (d : Dir) : Except Crash Dir := do
  let kvs ← readResults J jobName nReduce d
  let file := outputName jobName
  return (sortedKeys kvs).foldl (fun d k => d.write file (line k ((kvs.lookup k).getD [])))
    (d.create file)

/-! ## Cleaning up -/

/-- `os.Remove` fails for a file that is not there. -/
def removeFile (d : Dir) (n : Str) : Except Crash Dir :=
  match d n with
  | none => .error (.fatal "CleanupFiles " n)
  | some _ => .ok (Function.update d n none)

/-! ## Jobs -/

/-- What a master and its workers are started with. -/
structure Job where
  jobName : Str
  files : List Str
  nReduce : ℕ
  mapF : Str → Str → List KeyValue
  reduceF : Str → List Str → Str

inductive Phase where
  | map
  | reduce
  deriving DecidableEq

namespace Job

variable (J : Codec) (job : Job)

def merge (d : Dir) : Except Crash Dir := MapReduce.merge J job.jobName job.nReduce d

def output (d : Dir) : Option Str := d (outputName job.jobName)

/-- `Master.run`. The `finish` of `Sequential` only sets `stats`. -/
def run (schedule : Phase → Dir → Except Crash Dir) (d : Dir) : Except Crash Dir := do
  let d ← schedule .map d
  let d ← schedule .reduce d
  job.merge J d

/-- The `schedule` of `Sequential`; `ord i` is the order of `range` in reduce task `i`. -/
def inTurn (ord : ℕ → RangeOrder) : Phase → Dir → Except Crash Dir
  | .map, d => job.files.zipIdx.foldlM
      (fun d fi => doMap J job.jobName fi.2 fi.1 job.nReduce job.mapF d) d
  | .reduce, d => .ok ((List.range job.nReduce).foldl
      (fun d i => doReduce J (ord i) job.jobName i job.files.length job.reduceF d) d)

def sequential (ord : ℕ → RangeOrder) (d : Dir) : Except Crash Dir :=
  job.run J (job.inTurn J ord) d

def cleanupFiles (d : Dir) : Except Crash Dir := do
  let d ← (List.range job.files.length).foldlM (fun d i => (List.range job.nReduce).foldlM
    (fun d j => removeFile d (reduceName job.jobName i j)) d) d
  let d ← (List.range job.nReduce).foldlM (fun d i => removeFile d (mergeName job.jobName i)) d
  removeFile d (outputName job.jobName)

end Job

/-! ## Workers -/

structure DoTaskArgs where
  jobName : Str
  file : Str
  phase : Phase
  taskNumber : ℕ
  numOtherPhase : ℕ
  deriving DecidableEq

/-- `Worker.DoTask` at a worker that was started with the functions of the job. -/
def Job.doTask (J : Codec) (job : Job) (ord : RangeOrder) (arg : DoTaskArgs) (d : Dir) :
    Except Crash Dir :=
  match arg.phase with
  | .map => doMap J arg.jobName arg.taskNumber arg.file arg.numOtherPhase job.mapF d
  | .reduce =>
    .ok (doReduce J ord arg.jobName arg.taskNumber arg.numOtherPhase job.reduceF d)

end DistSystem.MapReduce
