import M3bp.GraphBuilder
import M3bp.ProcessGate
import M3bp.SchedulerCalls

/-!
The engine that executes a logical graph: the tasks of each kind, what their
physical tasks do when a worker runs them, and the workers. A worker carries
out its task as a program of operations; an operation makes at most one access
to what the workers share. Callbacks are open: inside one, the user's code
allocates buffers and flushes them in any way. No callback throws here.
-/
namespace M3bp.Engine

open SchedulerCalls ProcessGate

/-- The identifier of a memory object. -/
abbrev Object := ℕ

/-- `m_entry_task`, `m_barrier_task` and `m_terminal_task`. -/
structure Ids where
  entry : TaskId
  barrier : TaskId
  terminal : TaskId
  deriving DecidableEq, Repr

def Ids.get (ids : Ids) : PhysicalSuccessor → TaskId
  | .entry => ids.entry
  | .barrier => ids.barrier
  | .terminal => ids.terminal

/-- The command of a physical task with the logical task it points to and the
references it holds. The run commands and the finalizers are wrapped in a
`ProcessCommandWrapper`. -/
inductive Command
  | empty (l : ℕ) (place : PhysicalSuccessor)
  | globalInitialize (l : ℕ)
  | processBarrier (l : ℕ)
  | globalFinalize (l : ℕ)
  | inputRun (l : ℕ) (physicalTaskId : ℕ)
  | oneToOneRun (l : ℕ) (input : Object) (port : ℕ)
  | scatterGatherRun (l : ℕ) (inputs : List (Option Object)) (partition : ℕ)
  | threadLocalFinalize (l : ℕ) (worker : WorkerId)
  | shufflePartition (l : ℕ) (source : Object)
  | shuffleBarrier (l : ℕ)
  | shuffleSort (l : ℕ) (partition : ℕ) (sources : List Object)
  | gather (l : ℕ)
  | valueSort (l : ℕ) (source : Object) (partition : ℕ)
  deriving DecidableEq, Repr

namespace Command

def owner : Command → ℕ
  | empty l _ | globalInitialize l | processBarrier l | globalFinalize l | inputRun l _
  | oneToOneRun l _ _ | scatterGatherRun l _ _ | threadLocalFinalize l _ | shufflePartition l _
  | shuffleBarrier l | shuffleSort l _ _ | gather l | valueSort l _ _ => l

/-- The references among the members. -/
def references : Command → List Object
  | oneToOneRun _ o _ => [o]
  | scatterGatherRun _ inputs _ => inputs.filterMap id
  | shufflePartition _ o => [o]
  | shuffleSort _ _ sources => sources
  | valueSort _ o _ => [o]
  | _ => []

/-- Whether the task is committed by `commit_process_command`. -/
def isProcessCommand : Command → Bool
  | inputRun .. | oneToOneRun .. | scatterGatherRun .. | threadLocalFinalize .. => true
  | _ => false

/-- The task of the same logical task that waits for one created in a run. -/
def before? : Command → Option PhysicalSuccessor
  | inputRun .. | oneToOneRun .. | scatterGatherRun .. | shufflePartition .. => some .barrier
  | threadLocalFinalize .. | shuffleSort .. | valueSort .. => some .terminal
  | _ => none

/-- The task of the same logical task that one created in a run waits for. -/
def after? : Command → Option PhysicalSuccessor
  | inputRun .. | oneToOneRun .. | scatterGatherRun .. | shufflePartition .. | valueSort .. =>
    some .entry
  | shuffleSort .. => some .barrier
  | _ => none

/-- The calls of `add_dependency` that follow the creation of task `t`. -/
def dependencies (c : Command) (ids : Ids) (t : TaskId) : List (TaskId × TaskId) :=
  (c.after?.toList.map fun p => (ids.get p, t)) ++ c.before?.toList.map fun p => (t, ids.get p)

/-- The options that a task may be created with; a recommended worker is drawn
from those of a node. -/
def Allows : Command → LocalityOption → Prop
  | oneToOneRun .., option | scatterGatherRun .., option | shufflePartition .., option
  | valueSort .., option => option.isStealable = true
  | threadLocalFinalize _ worker, option =>
    option = { recommendedWorker := worker, isStealable := false }
  | _, option => option = {}

end Command

inductive Callback
  | globalInitialize
  | globalFinalize
  | threadLocalInitialize
  | threadLocalFinalize
  | run
  deriving DecidableEq, Repr

/-- What a worker still has to do. `link` owes the listed calls of
`add_dependency` and then the commit of a task it has created; `deliver` is one
round of the loop in `commit_fragment`. -/
inductive Op
  | prepare (t : TaskId) (c : Command)
  | globalInitialize (l : ℕ)
  | markGlobalInitialized (l : ℕ)
  | afterGlobalInitialize (l : ℕ)
  | createFinalizer (l : ℕ) (worker : WorkerId)
  | globalFinalize (l : ℕ)
  | clearBroadcastInputs (l : ℕ)
  | threadLocalInitialize (l : ℕ)
  | markThreadLocalInitialized (l : ℕ)
  | threadLocalFinalize (l : ℕ)
  | call (l : ℕ) (callback : Callback) (inputs : List (PortKey × Object))
  | inCallback (l : ℕ) (callback : Callback)
  | release
  | notifyCompletion (l : ℕ) (t : TaskId)
  | partitionFragment (l : ℕ) (source : Object)
  | createSortTask (l : ℕ) (partition : ℕ)
  | clearPartitionedBuffers (l : ℕ)
  | sortRecords (l : ℕ) (partition : ℕ)
  | runGather (l : ℕ) (inputs : List Object)
  | clearInputs (l : ℕ)
  | sortValues (l : ℕ) (partition : ℕ)
  | deliver (consumer : PortKey) (partition : ℕ) (o : Object)
  | countDown (l : ℕ) (partition : ℕ)
  | createPartitionRun (l : ℕ) (partition : ℕ)
  | spawn (c : Command)
  | link (t : TaskId) (c : Command) (dependencies : List (TaskId × TaskId))
  | commit (t : TaskId)
  deriving DecidableEq, Repr

/-- The members of a logical task that change during a run. -/
structure Local where
  globalInitialized : Bool
  threadLocalInitialized : WorkerId → Bool
  broadcastInputs : List (Option Object)
  gate : Gate TaskId
  taskCount : ℕ
  partitionedPool : List (List (Option Object))
  waitingCounters : List ℤ
  inputs : List Object
  partitionedBuffers : List Object

/-- The constructors of the kinds of task. -/
def Local.create (kind : TaskKind) : Local :=
  let base : Local :=
    { globalInitialized := false, threadLocalInitialized := fun _ => false, broadcastInputs := []
      gate := { remainingConcurrency := 0, taskQueue := [] }, taskCount := 0
      partitionedPool := [], waitingCounters := [], inputs := [], partitionedBuffers := [] }
  let process (proc : Processor) : Local :=
    { base with
      broadcastInputs := List.replicate proc.inputPorts.length none
      gate := { remainingConcurrency := UInt64.ofNat proc.maxConcurrency, taskQueue := [] }
      taskCount := proc.taskCount }
  match kind with
  | .inputProcess proc _ | .oneToOneProcess proc _ => process proc
  | .scatterGatherProcess proc _ partitionCount =>
    { process proc with
      partitionedPool :=
        List.replicate partitionCount (List.replicate proc.inputPorts.length none)
      waitingCounters := List.replicate partitionCount
        (proc.inputPorts.countP fun port => port.movement = .scatterGather) }
  | .shuffle _ | .gather | .valueSort _ => base

/-- What a worker does at the moment. -/
inductive Activity
  | idle
  | running (t : TaskId)
  | completing (t : TaskId)
  | returned
  deriving DecidableEq, Repr

/-- A worker with the locked inputs of its task and the buffers that the
callback in progress has allocated. -/
structure Worker where
  activity : Activity
  program : List Op
  held : List Object
  buffers : List Object
  deriving DecidableEq, Repr

def Worker.idle : Worker := { activity := .idle, program := [], held := [], buffers := [] }

/-- What is recorded of a run and read by no step. -/
inductive Note
  | called (l : ℕ) (callback : Callback)
  | flushed (producer : PortKey) (o : Object)
  | consumed (consumer : PortKey) (o : Object)
  deriving DecidableEq, Repr

variable {n : ℕ}

/-- The scheduler is called by the workers and by the thread that executes the
graph, which is `none`. -/
structure State (n : ℕ) where
  system : System (Option (Fin n))
  commands : List Command
  ids : ℕ → Ids
  locals : ℕ → Local
  workers : Fin n → Worker
  objectSizes : List ℕ
  notes : List Note

inductive Action
  | none
  | create (option : LocalityOption) (c : Command)
  | depend (p t : TaskId)
  | commit (t : TaskId)

/-- What one operation does. The worker goes on with `next`. -/
structure Effect where
  next : List Op := []
  action : Action := .none
  change : Option (ℕ × Local) := none
  held : Option (List Object) := none
  buffers : Option (List Object) := none
  allocated : List ℕ := []
  notes : List Note := []

def Action.perform (s : System (Option (Fin n))) (w : Fin n) : Action → System (Option (Fin n))
  | none => s
  | create option _ => s.createPhysicalTask option
  | depend p t => s.addDependency p t
  | commit t => s.beginCommit (some w) t

def Action.created : Action → List Command
  | create _ c => [c]
  | _ => []

namespace State

variable (s : State n)

def apply (w : Fin n) (rest : List Op) (e : Effect) : State n :=
  { s with
    system := e.action.perform s.system w
    commands := s.commands ++ e.action.created
    locals := e.change.elim s.locals fun (l, x) => Function.update s.locals l x
    workers := Function.update s.workers w
      { activity := (s.workers w).activity
        program := e.next ++ rest
        held := e.held.getD (s.workers w).held
        buffers := e.buffers.getD (s.workers w).buffers }
    objectSizes := s.objectSizes ++ e.allocated
    notes := e.notes ++ s.notes }

/-- The object that the next allocation returns. -/
def nextObject : Object := s.objectSizes.length

def take (w : Fin n) (t : TaskId) (scheduler : Scheduler) : State n :=
  { s with
    system := s.system.take scheduler t
    workers := Function.update s.workers w
      { Worker.idle with
        activity := .running t
        program := (s.commands[t]?).toList.map (.prepare t) } }

/-- The task is dropped with what is left of its command. -/
def complete (w : Fin n) (t : TaskId) : State n :=
  { s with
    system := s.system.beginCompletion (some w) t
    workers := Function.update s.workers w { Worker.idle with activity := .completing t } }

def setActivity (w : Fin n) (activity : Activity) : State n :=
  { s with workers := Function.update s.workers w { s.workers w with activity := activity } }

end State

/-! What each operation does. -/

section Operations

variable (g : LogicalGraph) (s : State n)

/-- `run` of each command, after its `prepare`. -/
def body (t : TaskId) : Command → List Op
  | .empty _ _ => []
  | .globalInitialize l => [.globalInitialize l]
  | .processBarrier l => (List.range n).map (.createFinalizer l)
  | .globalFinalize l => [.globalFinalize l]
  | .inputRun l _ => [.threadLocalInitialize l, .call l .run [], .release, .notifyCompletion l t]
  | .oneToOneRun l o port =>
    [.threadLocalInitialize l, .call l .run [((l, port), o)], .release, .notifyCompletion l t]
  | .scatterGatherRun l inputs _ =>
    [.threadLocalInitialize l,
      .call l .run (inputs.zipIdx.filterMap fun (input, port) => input.map (((l, port), ·))),
      .release, .notifyCompletion l t]
  | .threadLocalFinalize l _ => [.threadLocalFinalize l, .release, .notifyCompletion l t]
  | .shufflePartition l o => [.partitionFragment l o]
  | .shuffleBarrier l =>
    match g.kindOf l with
    | some (.shuffle partitionCount) =>
      (List.range partitionCount).map (.createSortTask l) ++ [.clearPartitionedBuffers l]
    | _ => []
  | .shuffleSort l p _ => [.sortRecords l p]
  | .gather l => [.runGather l (s.locals l).inputs]
  | .valueSort l _ p => [.sortValues l p]

/-- The references that `prepare` locks: those of the command, and for the
callbacks of a processor its broadcast inputs. -/
def lockedBy : Command → List Object
  | .gather l => (s.locals l).inputs
  | .globalInitialize l | .globalFinalize l => (s.locals l).broadcastInputs.filterMap id
  | c =>
    if c.isProcessCommand then
      (s.locals c.owner).broadcastInputs.filterMap id ++ c.references
    else
      c.references

/-- `commit_fragment`. -/
def commitFragment (producer : PortKey) (partition : ℕ) (o : Object) : List Op :=
  (g.successorsOf producer).map (.deliver · partition o)

/-- `receive_fragment` of a process task. -/
def receiveProcessFragment (proc : Processor) (x : PortKey) (o : Object)
    (nonBroadcast : Effect) : Effect :=
  let t := s.locals x.1
  if (proc.inputPorts[x.2]?).any fun port => port.movement = .broadcast then
    { change := some (x.1, { t with broadcastInputs := t.broadcastInputs.set x.2 (some o) }) }
  else
    nonBroadcast

/-- `receive_fragment` of each kind of task. A process task without one-to-one and
scatter-gather ports ignores what is not broadcast. -/
def receiveFragment (x : PortKey) (partition : ℕ) (o : Object) : Effect :=
  let t := s.locals x.1
  match g.kindOf x.1 with
  | some (.inputProcess proc _) => receiveProcessFragment s proc x o {}
  | some (.oneToOneProcess proc _) =>
    receiveProcessFragment s proc x o { next := [.spawn (.oneToOneRun x.1 o x.2)] }
  | some (.scatterGatherProcess proc _ _) =>
    receiveProcessFragment s proc x o
      { change := some (x.1,
          { t with
            partitionedPool := t.partitionedPool.modify partition fun row =>
              row.set x.2 (some o) })
        next := [.countDown x.1 partition] }
  | some (.shuffle _) => { next := [.spawn (.shufflePartition x.1 o)] }
  | some .gather => { change := some (x.1, { t with inputs := t.inputs ++ [o] }) }
  | some (.valueSort _) => { next := [.spawn (.valueSort x.1 o partition)] }
  | none => {}

/-- The commit that ends the creation of a task: through the gate or directly. -/
def commitTask (t : TaskId) (c : Command) : Effect :=
  if c.isProcessCommand then
    let task := s.locals c.owner
    { change := some (c.owner, { task with gate := (task.gate.commitProcessCommand t).1 })
      next := (task.gate.commitProcessCommand t).2.map .commit }
  else
    { next := [.commit t] }

/-- What the code leaves open in one operation: the size of a buffer that it
allocates and the option of a task that it creates. -/
structure Choice where
  size : ℕ
  option : LocalityOption

/-- What an operation does; at `inCallback` the callback returns. -/
def effect (choice : Choice) (w : Fin n) : Op → Effect
  | .prepare t c => { next := body g s t c, held := some (lockedBy s c) }
  | .globalInitialize l =>
    if (s.locals l).globalInitialized then {}
    else
      { next := [.call l .globalInitialize [], .markGlobalInitialized l,
          .afterGlobalInitialize l] }
  | .markGlobalInitialized l =>
    { change := some (l, { s.locals l with globalInitialized := true }) }
  | .afterGlobalInitialize l =>
    match g.kindOf l with
    | some (.inputProcess _ _) =>
      { next := (List.range (s.locals l).taskCount).map fun i => .spawn (.inputRun l i) }
    | _ => {}
  | .createFinalizer l worker =>
    if (s.locals l).threadLocalInitialized worker then
      { next := [.spawn (.threadLocalFinalize l worker)] }
    else {}
  | .globalFinalize l =>
    if (s.locals l).globalInitialized then
      { change := some (l, { s.locals l with globalInitialized := false })
        next := [.call l .globalFinalize [], .clearBroadcastInputs l] }
    else {}
  | .clearBroadcastInputs l =>
    { change := some (l, { s.locals l with broadcastInputs := [] }) }
  | .threadLocalInitialize l =>
    if (s.locals l).threadLocalInitialized w then {}
    else { next := [.call l .threadLocalInitialize [], .markThreadLocalInitialized l] }
  | .markThreadLocalInitialized l =>
    { change := some (l,
        { s.locals l with
          threadLocalInitialized := Function.update (s.locals l).threadLocalInitialized w true }) }
  | .threadLocalFinalize l =>
    if (s.locals l).threadLocalInitialized w then
      { change := some (l,
          { s.locals l with
            threadLocalInitialized :=
              Function.update (s.locals l).threadLocalInitialized w false })
        next := [.call l .threadLocalFinalize []] }
    else {}
  | .call l callback inputs =>
    { next := [.inCallback l callback]
      notes := .called l callback :: inputs.map fun (x, o) => .consumed x o }
  | .inCallback _ _ => { buffers := some [] }
  | .release => { held := some [] }
  | .notifyCompletion l _ =>
    { change := some (l, { s.locals l with gate := (s.locals l).gate.notifyCompletion.1 })
      next := (s.locals l).gate.notifyCompletion.2.map .commit }
  | .partitionFragment l o =>
    { change := some (l,
        { s.locals l with
          partitionedBuffers := (s.locals l).partitionedBuffers ++ [s.nextObject] })
      allocated := [choice.size]
      notes := [.consumed (l, 0) o] }
  | .createSortTask l p => { next := [.spawn (.shuffleSort l p (s.locals l).partitionedBuffers)] }
  | .clearPartitionedBuffers l =>
    { change := some (l, { s.locals l with partitionedBuffers := [] }) }
  | .sortRecords l p => { next := commitFragment g (l, 0) p s.nextObject, allocated := [choice.size] }
  | .runGather l inputs =>
    { next := commitFragment g (l, 0) 0 s.nextObject ++ [.clearInputs l]
      allocated := [choice.size]
      notes := inputs.map (.consumed (l, 0)) }
  | .clearInputs l => { change := some (l, { s.locals l with inputs := [] }) }
  | .sortValues l p => { next := commitFragment g (l, 0) p s.nextObject, allocated := [choice.size] }
  | .deliver x p o => receiveFragment g s x p o
  | .countDown l p =>
    let counters := (s.locals l).waitingCounters.modify p (· - 1)
    { change := some (l, { s.locals l with waitingCounters := counters })
      next := if counters[p]? = some 0 then [.createPartitionRun l p] else [] }
  | .createPartitionRun l p =>
    { change := some (l,
        { s.locals l with partitionedPool := (s.locals l).partitionedPool.set p [] })
      next := [.spawn (.scatterGatherRun l (((s.locals l).partitionedPool[p]?).getD []) p)] }
  | .spawn c =>
    { action := .create choice.option c
      next := [.link s.system.nextTask c (c.dependencies (s.ids c.owner) s.system.nextTask)] }
  | .link t c [] => commitTask s t c
  | .link t c (d :: rest) => { action := .depend d.1 d.2, next := [.link t c rest] }
  | .commit t => { action := .commit t }

/-- The output ports of a processor and whether it may set its task count. -/
def outputPortCount (l : ℕ) : ℕ :=
  match g.kindOf l with
  | some (.inputProcess proc _) | some (.oneToOneProcess proc _)
  | some (.scatterGatherProcess proc _ _) => proc.outputPorts.length
  | _ => 0

/-- One step of a worker at the head of its program. Inside a callback the user's
code goes on, or the callback returns. -/
inductive Performs (w : Fin n) : Op → Effect → Prop
  | step (op : Op) (choice : Choice) (hoption : ∀ c, op = .spawn c → c.Allows choice.option) :
      Performs w op (effect g s choice w op)
  | allocate (l : ℕ) (callback : Callback) (size : ℕ) :
      Performs w (.inCallback l callback)
        { next := [.inCallback l callback]
          buffers := some ((s.workers w).buffers ++ [s.nextObject])
          allocated := [size] }
  | flush (l : ℕ) (callback : Callback) (port recordCount : ℕ) (o : Object)
      (hport : port < outputPortCount g l) (hbuffer : o ∈ (s.workers w).buffers) :
      Performs w (.inCallback l callback)
        { next := (if 0 < recordCount then commitFragment g (l, port) 0 o else []) ++
            [.inCallback l callback]
          buffers := some ((s.workers w).buffers.erase o)
          notes := if 0 < recordCount then [.flushed (l, port) o] else [] }
  | setTaskCount (l count : ℕ) (hinput : ∃ proc workers, g.kindOf l = some (.inputProcess proc workers)) :
      Performs w (.inCallback l .globalInitialize)
        { next := [.inCallback l .globalInitialize]
          change := some (l, { s.locals l with taskCount := count }) }

end Operations

/-- One step of the engine. A worker that calls into the scheduler goes on when
the call has come to its end. -/
inductive Step (g : LogicalGraph) (lm : LocalityManager) : State n → State n → Prop
  | take {s : State n} {w : Fin n} {q : QueueRef} {t : TaskId} {scheduler : Scheduler}
      (hidle : (s.workers w).activity = .idle)
      (hpop : Scheduler.Pops lm w s.system.scheduler q t scheduler) :
      Step g lm s (s.take w t scheduler)
  | perform {s : State n} {w : Fin n} {t : TaskId} {op : Op} {rest : List Op} {e : Effect}
      (hrunning : (s.workers w).activity = .running t) (hcall : s.system.calls (some w) = .idle)
      (hprogram : (s.workers w).program = op :: rest) (heffect : Performs g s w op e) :
      Step g lm s (s.apply w rest e)
  | complete {s : State n} {w : Fin n} {t : TaskId}
      (hrunning : (s.workers w).activity = .running t) (hcall : s.system.calls (some w) = .idle)
      (hprogram : (s.workers w).program = []) :
      Step g lm s (s.complete w t)
  | commitDecrement {s : State n} {w : Fin n} {t : TaskId} {draw : WorkerId}
      (hcall : s.system.calls (some w) = .committing t) :
      Step g lm s { s with system := s.system.commitDecrement lm draw (some w) t }
  | drain {s : State n} {w : Fin n} {t x : TaskId} {rest : List TaskId} {draw : WorkerId}
      (hcall : s.system.calls (some w) = .draining t (x :: rest)) :
      Step g lm s { s with system := s.system.drain lm draw (some w) t x rest }
  | finish {s : State n} {w : Fin n} {t : TaskId}
      (hcall : s.system.calls (some w) = .draining t []) :
      Step g lm s
        { s.setActivity w .idle with system := s.system.finishCompletion (some w) t }
  | leave {s : State n} {w : Fin n} (hidle : (s.workers w).activity = .idle)
      (hfinished : s.system.scheduler.isFinished = true) :
      Step g lm s (s.setActivity w .returned)

end M3bp.Engine
