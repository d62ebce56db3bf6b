import M3bp.EngineCancellation
import M3bp.Lifecycle
import M3bp.WorkerThread

/-!
An execution of a logical graph in which callbacks throw: the engine, the thread function of
each worker around it, and the sweeps of a cancellation. Of an operation that throws, the
engine keeps what it had before. What may throw is the user's code and the work on buffers;
the bookkeeping between them does not. A cancelled callback flushes nothing.
-/
namespace M3bp.Execution

open Engine SchedulerCalls Transition
open WorkerThread (Answer)

variable {n : ℕ} {O E : Type}

/-- The operations that may throw. -/
def MayThrow : Op → Prop
  | .prepare .. | .inCallback .. | .partitionFragment .. | .sortRecords .. | .runGather ..
  | .sortValues .. => True
  | _ => False

/-- `finalizing` and `globalFinalizing` say in which logical task's `thread_local_cancel` or
`global_cancel` a thread or the executor is, inside the callback. The log of callbacks is
newest first; an event comes with the logical task that it belongs to. -/
structure State (n : ℕ) (O E : Type) where
  engine : Engine.State n
  threads : WorkerThread.State n O E TaskId ℕ
  finalizing : Fin n → Option ℕ
  globalFinalizing : Option ℕ
  log : List (ℕ × Lifecycle.Event n E)

/-- The points of the thread function at which no task of the graph is concerned. -/
def IsBetween : WorkerThread.Phase O E TaskId ℕ → Prop
  | .initializing _ | .looping | .leaving | .cancelling [] | .finalizing | .notifying _ _
  | .handling (.cancelling []) | .handling .finalizing | .handling .popping => True
  | _ => False

/-- The thread is at `thread_local_cancel` of the logical task `l`, in the `try` block or in
the handler. -/
def Cancels (l : ℕ) (phase : WorkerThread.Phase O E TaskId ℕ) : Prop :=
  ∃ todo, phase = .cancelling (l :: todo) ∨ phase = .handling (.cancelling (l :: todo))

/-- What a task's operation shows of its callbacks. -/
def eventsOf (w : Fin n) : Op → Effect → List (ℕ × Lifecycle.Event n E)
  | .call l callback _, _ => [(l, ⟨some w, callback, false, .entered⟩)]
  -- a callback that allocates or flushes has something left to do
  | .inCallback l callback, e =>
    if e.next.isEmpty then [(l, ⟨some w, callback, false, .left none⟩)] else []
  | _, _ => []

/-- What an operation that throws shows of its callbacks. -/
def thrownOf (w : Fin n) (eptr : E) : Op → List (ℕ × Lifecycle.Event n E)
  | .inCallback l callback => [(l, ⟨some w, callback, false, .left (some eptr)⟩)]
  | _ => []

namespace State

variable (s : State n O E)

def phase (w : Fin n) : WorkerThread.Phase O E TaskId ℕ := (s.threads.workers w).phase

/-- The thread `w` goes on in the thread function. -/
def advance (g : LogicalGraph) (w : Fin n) (a : Answer E TaskId) : State n O E :=
  { s with threads := s.threads.advance (List.range g.tasks.length) w a }

/-- The executor goes on. -/
def execute (g : LogicalGraph) (thrown : Option E) : State n O E :=
  { s with threads := s.threads.execute (List.range g.tasks.length) thrown }

def withEngine (engine : Engine.State n) : State n O E := { s with engine := engine }

def record (events : List (ℕ × Lifecycle.Event n E)) : State n O E :=
  { s with log := events ++ s.log }

/-- `thread_local_cancel` of an initialised thread, up to the callback. -/
def beginSweep (w : Fin n) (l : ℕ) : State n O E :=
  { s with
    engine := s.engine.setLocal l
      { s.engine.locals l with
        threadLocalInitialized := Function.update (s.engine.locals l).threadLocalInitialized w false }
    finalizing := Function.update s.finalizing w (some l)
    log := (l, ⟨some w, .threadLocalFinalize, true, .entered⟩) :: s.log }

def endSweep (w : Fin n) (l : ℕ) (thrown : Option E) : State n O E :=
  { s with
    finalizing := Function.update s.finalizing w none
    log := (l, ⟨some w, .threadLocalFinalize, true, .left thrown⟩) :: s.log }

/-- `global_cancel` of an initialised processor, up to the callback. -/
def beginCancel (l : ℕ) : State n O E :=
  { s with
    engine := s.engine.setLocal l { s.engine.locals l with globalInitialized := false }
    globalFinalizing := some l
    log := (l, ⟨none, .globalFinalize, true, .entered⟩) :: s.log }

/-- The broadcast inputs are cleared when the callback has returned. -/
def endCancel (l : ℕ) (thrown : Option E) : State n O E :=
  { s with
    engine :=
      match thrown with
      | none => s.engine.setLocal l { s.engine.locals l with broadcastInputs := [] }
      | some _ => s.engine
    globalFinalizing := none
    log := (l, ⟨none, .globalFinalize, true, .left thrown⟩) :: s.log }

end State

/-- What a callback throws and which task is handed out. -/
def answer (thrown : Option E) (task : Option TaskId) : Answer E TaskId :=
  { thrown := thrown, task := task, isFinished := false }

/-- One step of an execution. A worker that runs a task does so in the engine; what it
throws takes it out of its loop. -/
inductive Step (g : LogicalGraph) (lm : LocalityManager) (s : State n O E) : State n O E → Prop
  | follow {w : Fin n} {a : Answer E TaskId} (hphase : IsBetween (s.phase w))
      (hfinished : a.isFinished = s.engine.system.scheduler.isFinished) :
      Step g lm s (s.advance g w a)
  | takeNothing {w : Fin n} (hphase : s.phase w = .taking)
      (hover : s.engine.system.scheduler.isFinished = true ∨ s.threads.isCancelled = true) :
      Step g lm s (s.advance g w (answer none none))
  | take {w : Fin n} {q : QueueRef} {t : TaskId} {scheduler : Scheduler}
      (hphase : s.phase w = .taking)
      (hpop : Scheduler.Pops lm w s.engine.system.scheduler q t scheduler) :
      Step g lm s ((s.advance g w (answer none (some t))).withEngine
        (s.engine.take w t scheduler))
  | prepare {w : Fin n} {t : TaskId} {op : Op} {rest : List Op} {e : Effect}
      (hphase : s.phase w = .preparing t) (hprogram : (s.engine.workers w).program = op :: rest)
      (heffect : Performs g s.engine w op e) :
      Step g lm s ((s.advance g w (answer none none)).withEngine (s.engine.apply w rest e))
  | perform {w : Fin n} {t : TaskId} {op : Op} {rest : List Op} {e : Effect}
      (hphase : s.phase w = .running t) (hcall : s.engine.system.calls (some w) = .idle)
      (hprogram : (s.engine.workers w).program = op :: rest)
      (heffect : Performs g s.engine w op e) :
      Step g lm s ((s.withEngine (s.engine.apply w rest e)).record (eventsOf w op e))
  | throws {w : Fin n} {t : TaskId} {op : Op} {rest : List Op} {eptr : E}
      (hphase : s.phase w = .preparing t ∨ s.phase w = .running t)
      (hcall : s.engine.system.calls (some w) = .idle)
      (hprogram : (s.engine.workers w).program = op :: rest) (hop : MayThrow op) :
      Step g lm s ((s.advance g w (answer (some eptr) none)).record
        (thrownOf w eptr op))
  | complete {w : Fin n} {t : TaskId} (hphase : s.phase w = .running t)
      (hcall : s.engine.system.calls (some w) = .idle)
      (hprogram : (s.engine.workers w).program = []) :
      Step g lm s ((s.advance g w (answer none none)).withEngine (s.engine.complete w t))
  | commitDecrement {w : Fin n} {t : TaskId} {draw : WorkerId}
      (hcall : s.engine.system.calls (some w) = .committing t) :
      Step g lm s (s.withEngine
        { s.engine with system := s.engine.system.commitDecrement lm draw (some w) t })
  | drain {w : Fin n} {t x : TaskId} {rest : List TaskId} {draw : WorkerId}
      (hcall : s.engine.system.calls (some w) = .draining t (x :: rest)) :
      Step g lm s (s.withEngine
        { s.engine with system := s.engine.system.drain lm draw (some w) t x rest })
  | finish {w : Fin n} {t : TaskId} (hphase : s.phase w = .completing t)
      (hcall : s.engine.system.calls (some w) = .draining t []) :
      Step g lm s ((s.advance g w (answer none none)).withEngine
        { s.engine.setActivity w .idle with
          system := s.engine.system.finishCompletion (some w) t })
  | skipSweep {w : Fin n} {l : ℕ} (hphase : Cancels l (s.phase w)) (hin : s.finalizing w = none)
      (hflag : (s.engine.locals l).threadLocalInitialized w = false) :
      Step g lm s (s.advance g w (answer none none))
  | beginSweep {w : Fin n} {l : ℕ} (hphase : Cancels l (s.phase w)) (hin : s.finalizing w = none)
      (hflag : (s.engine.locals l).threadLocalInitialized w = true) :
      Step g lm s (s.beginSweep w l)
  | endSweep {w : Fin n} {l : ℕ} {thrown : Option E} (hin : s.finalizing w = some l) :
      Step g lm s ((s.advance g w (answer thrown none)).endSweep w l thrown)
  | join (hphase : s.threads.executor = .joining)
      (hreturned : ∀ w, (s.threads.workers w).isReturned = true) : Step g lm s (s.execute g none)
  | notify {eptr : E} {todo : List ℕ} (hphase : s.threads.executor = .notifying eptr todo) :
      Step g lm s (s.execute g none)
  | conclude (hphase : s.threads.executor = .cancelling []) : Step g lm s (s.execute g none)
  | skipCancel {l : ℕ} {todo : List ℕ} (hphase : s.threads.executor = .cancelling (l :: todo))
      (hin : s.globalFinalizing = none) (hflag : (s.engine.locals l).globalInitialized = false) :
      Step g lm s (s.execute g none)
  | beginCancel {l : ℕ} {todo : List ℕ} (hphase : s.threads.executor = .cancelling (l :: todo))
      (hin : s.globalFinalizing = none) (hflag : (s.engine.locals l).globalInitialized = true) :
      Step g lm s (s.beginCancel l)
  | endCancel {l : ℕ} {thrown : Option E} (hin : s.globalFinalizing = some l) :
      Step g lm s ((s.execute g thrown).endCancel l thrown)

/-- The physical tasks have been set up and the workers have been started. -/
def start (g : LogicalGraph) (lm : LocalityManager) (draws : TaskId → WorkerId)
    (observers : List O) : State n O E where
  engine := Engine.State.start g (Plan.setUp g lm draws)
  threads := WorkerThread.start n observers
  finalizing _ := none
  globalFinalizing := none
  log := []

/-- What an execution reaches. -/
def Reached (g : LogicalGraph) (lm : LocalityManager) (observers : List O) : State n O E → Prop :=
  Reachable (fun s => ∃ draws, s = start g lm draws observers) (Step g lm)

end M3bp.Execution
