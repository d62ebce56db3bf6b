import M3bp.Counting
import M3bp.Scheduler
import M3bp.Transition

/-!
The scheduler under concurrent calls. A thread is between calls, or it has
counted a task as unfinished and still owes its first decrement, or it has
erased a completed vertex and still owes decrements to the listed successors.
Every critical section and every atomic access is one step. The log is a
history variable, newest event first; no step reads it except to express that
callers commit a task once, complete what they took, and add an edge only to a
task that is not yet released.
-/
namespace M3bp.SchedulerCalls

open Transition

inductive Call
  | idle
  | committing (task : TaskId)
  | draining (task : TaskId) (rest : List TaskId)
  deriving DecidableEq, Repr

namespace Call

/-- The decrements that `notify_task_completion` still owes. -/
def remaining : Call → List TaskId
  | idle => []
  | committing _ => []
  | draining _ rest => rest

end Call

inductive Event
  | created (task : TaskId)
  | dependency (predecessor successor : TaskId)
  | commitCalled (task : TaskId)
  | committed (task : TaskId)
  | pushed (task : TaskId) (queue : QueueRef)
  | taken (task : TaskId)
  | completed (task : TaskId)
  | finished (task : TaskId)
  deriving DecidableEq, Repr

/-- Some decrement has brought the count of `t` to zero. -/
def Released (log : List Event) (t : TaskId) : Prop := ∃ q, .pushed t q ∈ log

/-- `asserted` records that an `assert` of the scheduler has failed. -/
structure System (Th : Type) where
  scheduler : Scheduler
  calls : Th → Call
  asserted : Bool
  log : List Event

variable {Th : Type} [DecidableEq Th]

namespace System

def initial : System Th :=
  { scheduler := Scheduler.empty, calls := fun _ => .idle, asserted := false, log := [] }

/-- The task that `create_physical_task` returns. -/
def nextTask (s : System Th) : TaskId := s.scheduler.createdTaskCount

def createPhysicalTask (s : System Th) (option : LocalityOption) : System Th :=
  { s with
    scheduler := s.scheduler.createPhysicalTask option
    log := .created s.nextTask :: s.log }

/-- The edge is logged when it is recorded, not when it is dropped. -/
def addDependency (s : System Th) (p t : TaskId) : System Th :=
  match s.scheduler.addDependency p t with
  | none => { s with asserted := true }
  | some scheduler =>
    { s with
      scheduler := scheduler
      log := if (s.scheduler.vertices p).isSome then .dependency p t :: s.log else s.log }

def beginCommit (s : System Th) (th : Th) (t : TaskId) : System Th :=
  { s with
    scheduler := s.scheduler.incrementUnfinished
    calls := Function.update s.calls th (.committing t)
    log := .commitCalled t :: s.log }

/-- One `decrement_predecessor_count`, after which `th` goes on with `next`. -/
def decrement (lm : LocalityManager) (draw : WorkerId) (s : System Th) (th : Th) (t : TaskId)
    (next : Call) (events : List Event) : System Th :=
  match s.scheduler.decrementPredecessorCount lm draw t with
  | none => { s with asserted := true }
  | some (scheduler, queue) =>
    { s with
      scheduler := scheduler
      calls := Function.update s.calls th next
      log := (queue.map (Event.pushed t)).toList ++ events ++ s.log }

def commitDecrement (lm : LocalityManager) (draw : WorkerId) (s : System Th) (th : Th)
    (t : TaskId) : System Th :=
  s.decrement lm draw th t .idle [.committed t]

def beginCompletion (s : System Th) (th : Th) (t : TaskId) : System Th :=
  match s.scheduler.eraseVertex t with
  | none => { s with asserted := true }
  | some (scheduler, successors) =>
    { s with
      scheduler := scheduler
      calls := Function.update s.calls th (.draining t successors)
      log := .completed t :: s.log }

def drain (lm : LocalityManager) (draw : WorkerId) (s : System Th) (th : Th) (t x : TaskId)
    (rest : List TaskId) : System Th :=
  s.decrement lm draw th x (.draining t rest) []

def finishCompletion (s : System Th) (th : Th) (t : TaskId) : System Th :=
  { s with
    scheduler := s.scheduler.decrementUnfinished
    calls := Function.update s.calls th .idle
    log := .finished t :: s.log }

def take (s : System Th) (scheduler : Scheduler) (t : TaskId) : System Th :=
  { s with scheduler := scheduler, log := .taken t :: s.log }

end System

inductive Step (lm : LocalityManager) : System Th → System Th → Prop
  | createPhysicalTask (s : System Th) (th : Th) (option : LocalityOption)
      (hidle : s.calls th = .idle) :
      Step lm s (s.createPhysicalTask option)
  | addDependency (s : System Th) (th : Th) (p t : TaskId)
      (hidle : s.calls th = .idle) (hcreated : .created t ∈ s.log)
      (hunreleased : ¬ Released s.log t) :
      Step lm s (s.addDependency p t)
  | commitTask (s : System Th) (th : Th) (t : TaskId)
      (hidle : s.calls th = .idle) (hcreated : .created t ∈ s.log)
      (honce : .commitCalled t ∉ s.log) :
      Step lm s (s.beginCommit th t)
  | commitDecrement (s : System Th) (th : Th) (t : TaskId) (draw : WorkerId)
      (hcall : s.calls th = .committing t) :
      Step lm s (s.commitDecrement lm draw th t)
  | takeRunnableTask (s : System Th) (th : Th) (worker : WorkerId) (q : QueueRef) (t : TaskId)
      (scheduler : Scheduler) (hidle : s.calls th = .idle)
      (hpop : Scheduler.Pops lm worker s.scheduler q t scheduler) :
      Step lm s (s.take scheduler t)
  | notifyTaskCompletion (s : System Th) (th : Th) (t : TaskId)
      (hidle : s.calls th = .idle) (htaken : .taken t ∈ s.log)
      (honce : .completed t ∉ s.log) :
      Step lm s (s.beginCompletion th t)
  | drain (s : System Th) (th : Th) (t x : TaskId) (rest : List TaskId) (draw : WorkerId)
      (hcall : s.calls th = .draining t (x :: rest)) :
      Step lm s (s.drain lm draw th t x rest)
  | finishCompletion (s : System Th) (th : Th) (t : TaskId)
      (hcall : s.calls th = .draining t []) :
      Step lm s (s.finishCompletion th t)

/-- Every run of any number of threads, each step one critical section. -/
def Run (lm : LocalityManager) : System Th → Prop :=
  Reachable (fun s => s = System.initial) (Step lm)

end M3bp.SchedulerCalls
