import DistSystem.Lib.Interleaving
import DistSystem.MapReduce.Tasks

/-!
# The distributed master

`Master.run` with `Master.schedule`: the main goroutine, one goroutine for each task of either
phase, the `sync.WaitGroup` of each call of `schedule`, the goroutines that send on
`registerChannel`, and the calls of `DoTask`. A step is one operation on shared state, or one thing
that a worker or the network does: workers register at any time, a worker carries out a task as a
whole, and a call may return false at any time, whether its worker has carried out the task, will do
so later, or never does. A panic in any goroutine ends the master.
-/

namespace DistSystem.MapReduce

/-- Where the goroutine of a task is. -/
inductive Goroutine where
  /-- Not started. -/
  | absent
  /-- Before `wg.Add(1)`. -/
  | spawned
  /-- At the receive from `registerChannel`. -/
  | receiving
  /-- In `call`; `performed` when the worker has carried out the task. -/
  | calling (worker : Str) (arg : DoTaskArgs) (performed : Bool)
  /-- After the loop, before the deferred `wg.Done()`. -/
  | finishing
  | exited
  deriving DecidableEq

/-- Where the main goroutine is. -/
inductive Main where
  /-- In the loop of `schedule`, with task `i` to start next; after the last one at `wg.Wait()`. -/
  | spawning (phase : Phase) (i : ℕ)
  /-- Blocked in `wg.Wait()`. -/
  | blocked (phase : Phase)
  /-- Released in `wg.Wait()` but not running yet. -/
  | woken (phase : Phase)
  /-- Before `finish`. -/
  | finishing
  /-- Before `merge`. -/
  | merging
  | done
  /-- The process is gone. -/
  | crashed (c : Crash)
  deriving DecidableEq

structure Master where
  main : Main
  tasks : Phase → ℕ → Goroutine
  wg : Phase → ℕ
  /-- The goroutines blocked in a send on `registerChannel`. -/
  registerChannel : List Str
  workers : List Str
  /-- Calls that have returned false and that their worker may still carry out. -/
  abandoned : List DoTaskArgs
  dir : Dir

inductive Event where
  /-- `Master.Register`. -/
  | register (worker : Str)
  /-- `go func(i int)`. -/
  | spawn (phase : Phase) (i : ℕ)
  /-- `wg.Add(1)`. -/
  | add (phase : Phase) (i : ℕ)
  /-- A worker comes out of `registerChannel`; the arguments are built and the call starts. -/
  | take (phase : Phase) (i : ℕ) (worker : Str)
  /-- The worker carries out the task. -/
  | perform (phase : Phase) (i : ℕ) (ord : RangeOrder)
  /-- A worker carries out a task whose call has returned false. -/
  | performLate (arg : DoTaskArgs) (ord : RangeOrder)
  /-- `call` returns. -/
  | reply (phase : Phase) (i : ℕ) (ok : Bool)
  /-- `wg.Done()`. -/
  | done (phase : Phase) (i : ℕ)
  /-- `wg.Wait()` finds the counter above zero. -/
  | block (phase : Phase)
  /-- `wg.Wait()` and `schedule` return. -/
  | pass (phase : Phase)
  /-- `wg.Wait()` was released and finds the counter above zero again. -/
  | misuse (phase : Phase)
  | finish
  | merge

namespace Job

variable (job : Job)

def ntasks : Phase → ℕ
  | .map => job.files.length
  | .reduce => job.nReduce

def nios : Phase → ℕ
  | .map => job.nReduce
  | .reduce => job.files.length

/-- The arguments of a call; `mr.files[i]` is read in either phase. -/
def taskArgs (phase : Phase) (i : ℕ) : Except Crash DoTaskArgs :=
  match job.files[i]? with
  | none => .error (.panic "index out of range")
  | some f => .ok ⟨job.jobName, f, phase, i, job.nios phase⟩

end Job

namespace Master

/-- The master at the start of `run`. -/
def start (d : Dir) : Master where
  main := .spawning .map 0
  tasks _ _ := .absent
  wg _ := 0
  registerChannel := []
  workers := []
  abandoned := []
  dir := d

variable (J : Codec) (job : Job) (s : Master)

def setTask (phase : Phase) (i : ℕ) (g : Goroutine) : Master :=
  { s with tasks := Function.update s.tasks phase (Function.update (s.tasks phase) i g) }

def setWg (phase : Phase) (n : ℕ) : Master := { s with wg := Function.update s.wg phase n }

def crash (c : Crash) : Master := { s with main := .crashed c }

/-- What `run` does after `schedule(phase)`. -/
def afterSchedule : Phase → Main
  | .map => .spawning .reduce 0
  | .reduce => .finishing

/-- The RPC server runs until `finish`. -/
def serving : Prop := s.main ≠ .merging ∧ s.main ≠ .done

instance : Decidable s.serving := inferInstanceAs (Decidable (_ ∧ _))

/-- The main goroutine is at `wg.Wait()` and has not been blocked. -/
def atWait (phase : Phase) : Prop := s.main = .spawning phase (job.ntasks phase)

instance (phase : Phase) : Decidable (s.atWait job phase) := inferInstanceAs (Decidable (_ = _))

/-- `call` returns true; the worker is sent back by a goroutine of its own. -/
def succeed (phase : Phase) (i : ℕ) (worker : Str) : Master :=
  { s.setTask phase i .finishing with registerChannel := worker :: s.registerChannel }

/-- `call` returns false; the worker is not sent back. -/
def fail (phase : Phase) (i : ℕ) (arg : DoTaskArgs) (performed : Bool) : Master :=
  { s.setTask phase i .receiving with
    abandoned := if performed then s.abandoned else arg :: s.abandoned }

/-- `wg.Done()`, which releases the main goroutine when the counter gets to zero. -/
def wgDone (phase : Phase) (i : ℕ) : Master :=
  { (s.setTask phase i .exited).setWg phase (s.wg phase - 1) with
    main := if s.wg phase - 1 = 0 ∧ s.main = .blocked phase then .woken phase else s.main }

/-- The state after an event, if the event is possible. -/
def next : Event → Option Master
  | .register w =>
    if s.serving then
      some { s with workers := s.workers ++ [w], registerChannel := w :: s.registerChannel }
    else none
  | .spawn phase i =>
    if s.main = .spawning phase i ∧ i < job.ntasks phase then
      some { s.setTask phase i .spawned with main := .spawning phase (i + 1) }
    else none
  | .add phase i =>
    if s.tasks phase i = .spawned then
      some ((s.setTask phase i .receiving).setWg phase (s.wg phase + 1))
    else none
  | .take phase i w =>
    if s.tasks phase i = .receiving ∧ w ∈ s.registerChannel then
      match job.taskArgs phase i with
      | .error c => some (s.crash c)
      | .ok arg => some { s.setTask phase i (.calling w arg false) with
          registerChannel := s.registerChannel.erase w }
    else none
  | .perform phase i ord =>
    match s.tasks phase i with
    | .calling w arg false =>
      match job.doTask J ord arg s.dir with
      | .error _ => none
      | .ok d => some { s.setTask phase i (.calling w arg true) with dir := d }
    | _ => none
  | .performLate arg ord =>
    if arg ∈ s.abandoned then
      match job.doTask J ord arg s.dir with
      | .error _ => none
      | .ok d => some { s with abandoned := s.abandoned.erase arg, dir := d }
    else none
  | .reply phase i ok =>
    match s.tasks phase i with
    | .calling w arg performed =>
      if ok then if performed then some (s.succeed phase i w) else none
      else some (s.fail phase i arg performed)
    | _ => none
  | .done phase i =>
    if s.tasks phase i = .finishing then some (s.wgDone phase i) else none
  | .block phase =>
    if s.atWait job phase ∧ 0 < s.wg phase then some { s with main := .blocked phase } else none
  | .pass phase =>
    if (s.atWait job phase ∨ s.main = .woken phase) ∧ s.wg phase = 0 then
      some { s with main := afterSchedule phase }
    else none
  | .misuse phase =>
    if s.main = .woken phase ∧ 0 < s.wg phase then
      some (s.crash (.panic "sync: WaitGroup is reused before previous Wait has returned"))
    else none
  | .finish => if s.main = .finishing then some { s with main := .merging } else none
  | .merge =>
    if s.main = .merging then
      match job.merge J s.dir with
      | .error c => some (s.crash c)
      | .ok d => some { s with main := .done, dir := d }
    else none

/-- A step of the system; nothing happens once the master is gone. -/
def step (e : Event) (s : Master) : Option Master :=
  match s.main with
  | .crashed _ => none
  | _ => s.next J job e

end Master

end DistSystem.MapReduce
