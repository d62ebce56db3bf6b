import M3bp.Transition
import Mathlib.Data.List.Basic
import Mathlib.Data.Nat.Notation

/-!
The thread function of `WorkerThread::run` with its exceptions, and the end of
`Executor::execute`, which joins the workers. Every callback returns or throws. Which
task the scheduler hands out and when it has finished is left open. The logging calls
between the callbacks do not throw.
-/
namespace M3bp.WorkerThread

variable {n : ℕ} {O E T L : Type}

/-- `CancellationManager::notify_exception`: the first exception stays. -/
def notifyException (exceptionPtr : Option E) (eptr : E) : Option E :=
  match exceptionPtr with
  | none => some eptr
  | some first => some first

/-- The `try` block and the `catch` block of the thread function. -/
inductive Pass
  | first
  | handler
  deriving DecidableEq, Repr

inductive Callback (O T L : Type)
  | onInitialize (observer : O)
  | prepare (task : T)
  | run (task : T)
  | threadLocalCancel (logicalTask : L)
  | onFinalize (observer : O)
  deriving DecidableEq, Repr

/-- A callback that has returned or thrown. -/
structure Call (O E T L : Type) where
  pass : Pass
  callback : Callback O T L
  thrown : Option E
  deriving DecidableEq, Repr

/-- What is left of the `catch` block. -/
inductive Handler (L : Type)
  | cancelling (todo : List L)
  | finalizing
  | popping
  deriving DecidableEq, Repr

inductive Phase (O E T L : Type)
  | initializing (todo : List O)
  | looping
  | taking
  | preparing (task : T)
  | running (task : T)
  | completing (task : T)
  | leaving
  | cancelling (todo : List L)
  | finalizing
  | notifying (eptr : E) (rest : Handler L)
  | handling (rest : Handler L)
  | returned
  deriving DecidableEq, Repr

/-- A thread, with `initialized_observers` and its calls in order. -/
structure Worker (O E T L : Type) where
  phase : Phase O E T L
  initializedObservers : List O
  calls : List (Call O E T L)
  deriving DecidableEq, Repr

/-- What a callback throws, which task `take_runnable_task` gives, what `is_finished` says. -/
structure Answer (E T : Type) where
  thrown : Option E
  task : Option T
  isFinished : Bool
  deriving DecidableEq, Repr

namespace Worker

def goto (w : Worker O E T L) (phase : Phase O E T L) : Worker O E T L :=
  { w with phase := phase }

/-- A callback is called. An exception is caught in `rest`, which notifies it first. -/
def call (w : Worker O E T L) (pass : Pass) (callback : Callback O T L) (thrown : Option E)
    (next : Phase O E T L) (rest : Handler L) : Worker O E T L :=
  { w with
    calls := w.calls ++ [⟨pass, callback, thrown⟩]
    phase :=
      match thrown with
      | none => next
      | some eptr => .notifying eptr rest }

def emplaceBack (w : Worker O E T L) (observer : O) : Worker O E T L :=
  { w with initializedObservers := w.initializedObservers ++ [observer] }

def popBack (w : Worker O E T L) : Worker O E T L :=
  { w with initializedObservers := w.initializedObservers.dropLast }

/-- The thread between two points of the thread function. An exception of the `try`
block runs the whole `catch` block. -/
def advance (logicalTasks : List L) (exceptionPtr : Option E) (a : Answer E T)
    (w : Worker O E T L) : Worker O E T L :=
  match w.phase with
  | .initializing [] => w.goto .looping
  | .initializing (observer :: todo) =>
    let w' := w.call .first (.onInitialize observer) a.thrown (.initializing todo)
      (.cancelling logicalTasks)
    -- `emplace_back` is skipped when `on_initialize` throws
    if a.thrown.isNone then w'.emplaceBack observer else w'
  | .looping => if exceptionPtr.isNone && !a.isFinished then w.goto .taking else w.goto .leaving
  | .taking =>
    match a.task with
    | none => w.goto .looping
    | some task => w.goto (.preparing task)
  | .preparing task =>
    w.call .first (.prepare task) a.thrown (.running task) (.cancelling logicalTasks)
  | .running task =>
    w.call .first (.run task) a.thrown (.completing task) (.cancelling logicalTasks)
  | .completing _ => w.goto .looping
  | .leaving =>
    if exceptionPtr.isSome then w.goto (.cancelling logicalTasks) else w.goto .finalizing
  | .cancelling [] => w.goto .finalizing
  | .cancelling (logicalTask :: todo) =>
    w.call .first (.threadLocalCancel logicalTask) a.thrown (.cancelling todo)
      (.cancelling logicalTasks)
  | .finalizing =>
    match w.initializedObservers.getLast? with
    | none => w.goto .returned
    | some observer =>
      -- the observer is taken off the list before it is called
      w.popBack.call .first (.onFinalize observer) a.thrown .finalizing
        (.cancelling logicalTasks)
  | .notifying _ rest => w.goto (.handling rest)
  | .handling (.cancelling []) => w.goto (.handling .finalizing)
  | .handling (.cancelling (logicalTask :: todo)) =>
    w.call .handler (.threadLocalCancel logicalTask) a.thrown (.handling (.cancelling todo))
      (.cancelling todo)
  | .handling .finalizing =>
    match w.initializedObservers.getLast? with
    | none => w.goto .returned
    | some observer =>
      w.call .handler (.onFinalize observer) a.thrown (.handling .popping) .popping
  | .handling .popping => w.popBack.goto (.handling .finalizing)
  | .returned => w

/-- What the thread's next step does to `m_exception_ptr`. -/
def notify (exceptionPtr : Option E) (w : Worker O E T L) : Option E :=
  match w.phase with
  | .notifying eptr _ => notifyException exceptionPtr eptr
  | _ => exceptionPtr

def isReturned (w : Worker O E T L) : Bool :=
  match w.phase with
  | .returned => true
  | _ => false

/-- How many steps the thread can still make without another round of the task loop. -/
def remaining (logicalTasks : List L) (w : Worker O E T L) : ℕ :=
  let later := 3 * w.initializedObservers.length
  match w.phase with
  | .initializing todo => 3 * logicalTasks.length + later + 6 + 4 * todo.length
  | .looping => 3 * logicalTasks.length + later + 5
  | .taking => 3 * logicalTasks.length + later + 9
  | .preparing _ => 3 * logicalTasks.length + later + 8
  | .running _ => 3 * logicalTasks.length + later + 7
  | .completing _ => 3 * logicalTasks.length + later + 6
  | .leaving => 3 * logicalTasks.length + later + 4
  | .cancelling todo => 2 * logicalTasks.length + later + 3 + todo.length
  | .finalizing => 2 * logicalTasks.length + later + 1
  | .notifying _ (.cancelling todo) => 2 * todo.length + later + 3
  | .notifying _ .finalizing => later + 2
  | .notifying _ .popping => 3 * (w.initializedObservers.length - 1) + 3
  | .handling (.cancelling todo) => 2 * todo.length + later + 2
  | .handling .finalizing => later + 1
  | .handling .popping => 3 * (w.initializedObservers.length - 1) + 2
  | .returned => 0

end Worker

/-- The executor's thread from the first `join` on. -/
inductive Executor (E L : Type)
  | joining
  | cancelling (todo : List L)
  | notifying (eptr : E) (todo : List L)
  | finished (thrown : Option E)
  deriving DecidableEq, Repr

structure State (n : ℕ) (O E T L : Type) where
  exceptionPtr : Option E
  workers : Fin n → Worker O E T L
  executor : Executor E L

namespace State

def isCancelled (s : State n O E T L) : Bool := s.exceptionPtr.isSome

def advance (s : State n O E T L) (logicalTasks : List L) (w : Fin n) (a : Answer E T) :
    State n O E T L :=
  { s with
    exceptionPtr := (s.workers w).notify s.exceptionPtr
    workers := Function.update s.workers w
      ((s.workers w).advance logicalTasks s.exceptionPtr a) }

/-- The executor waits for all workers. If the scheduler is cancelled then, it calls
`global_cancel` on each task and rethrows. -/
def execute (s : State n O E T L) (logicalTasks : List L) (thrown : Option E) :
    State n O E T L :=
  match s.executor with
  | .joining =>
    if ∀ w, (s.workers w).isReturned = true then
      if s.isCancelled then { s with executor := .cancelling logicalTasks }
      else { s with executor := .finished none }
    else s
  | .cancelling [] => { s with executor := .finished s.exceptionPtr }
  | .cancelling (_ :: todo) =>
    match thrown with
    | none => { s with executor := .cancelling todo }
    | some eptr => { s with executor := .notifying eptr todo }
  | .notifying eptr todo =>
    { s with
      exceptionPtr := notifyException s.exceptionPtr eptr
      executor := .cancelling todo }
  | .finished _ => s

end State

/-- All workers are given the same observers. -/
def start (n : ℕ) (observers : List O) : State n O E T L where
  exceptionPtr := none
  workers _ := { phase := .initializing observers, initializedObservers := [], calls := [] }
  executor := .joining

inductive Step (logicalTasks : List L) (s : State n O E T L) : State n O E T L → Prop
  | advance (w : Fin n) (a : Answer E T) : Step logicalTasks s (s.advance logicalTasks w a)
  | execute (thrown : Option E) : Step logicalTasks s (s.execute logicalTasks thrown)

/-- What interleaved threads reach. -/
def Reached (observers : List O) (logicalTasks : List L) : State n O E T L → Prop :=
  Transition.Reachable (fun s => s = start n observers) (Step logicalTasks)

/-- The observers on which a thread has called `on_initialize`, with what it threw. -/
def initializeCalls (calls : List (Call O E T L)) : List (O × Option E) :=
  calls.filterMap fun c =>
    match c.callback with
    | .onInitialize observer => some (observer, c.thrown)
    | _ => none

/-- The observers whose `on_initialize` has returned. -/
def initialized (calls : List (Call O E T L)) : List O :=
  ((initializeCalls calls).filter fun p => p.2.isNone).map Prod.fst

/-- The observers on which a thread has called `on_finalize`. -/
def finalizeCalls (calls : List (Call O E T L)) : List O :=
  calls.filterMap fun c =>
    match c.callback with
    | .onFinalize observer => some observer
    | _ => none

namespace Call

def IsFinalization (c : Call O E T L) : Prop := ∃ observer, c.callback = .onFinalize observer

/-- A call of the `try` block that is not a finalization. -/
def IsFirstWork (c : Call O E T L) : Prop := c.pass = .first ∧ ¬ c.IsFinalization

end Call

end M3bp.WorkerThread
