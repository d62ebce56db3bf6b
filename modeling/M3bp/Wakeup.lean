import M3bp.SchedulerCalls

/-!
Sleeping and waking. A worker that finds no task sets its flag, checks once
more whether the execution is over, looks through the queues again and only
then waits; whoever pushes a task, ends the last task or records an exception
goes through the synchronizers afterwards. Every load and store of a flag, every pop
under its queue's lock, the locked section of `notify`, the signal after it and
the locked test of the waiter is one step. Threads are the workers and any
others that call into the scheduler, as the thread that commits the first tasks.
-/
namespace M3bp.Wakeup

open SchedulerCalls Transition

/-- What a round of notifications follows. -/
inductive Cause
  | pushed (queue : QueueRef)
  | finished
  | exception
  deriving DecidableEq, Repr

/-- Only the loop over the workers after a stealable push ends at the first
synchronizer that was notified. -/
def Cause.stopsAtFirst : Cause → Bool
  | pushed (.stealable _) => true
  | _ => false

/-- Where a thread is. `load` and `clear` are the two tests of the flag in
`notify`, at the head of the synchronizers that are still to be visited;
`signal` is its `notify_one`. The `first` phases are the tries before a worker
attempts to sleep, those from `setSleeping` on its loop. -/
inductive Phase (n : ℕ)
  | free
  | load (targets : List (Fin n)) (cause : Cause)
  | clear (targets : List (Fin n)) (cause : Cause)
  | signal (worker : Fin n) (targets : List (Fin n)) (cause : Cause)
  | firstUnstealable
  | firstLocal
  | firstSteal (i : ℕ)
  | setSleeping
  | checkFinished
  | checkCancelled
  | againUnstealable
  | againSteal (i : ℕ)
  | waitCheck
  | blocked
  | resetSleeping
  deriving DecidableEq, Repr

variable {n : ℕ} {X : Type} [DecidableEq X]

/-- The workers and the other threads. -/
abbrev Thread (n : ℕ) (X : Type) := Fin n ⊕ X

structure State (n : ℕ) (X : Type) where
  system : System (Thread n X)
  isSleeping : Fin n → Bool
  cancelled : Bool
  phase : Thread n X → Phase n

namespace State

def initial : State n X :=
  { system := System.initial, isSleeping := fun _ => false, cancelled := false,
    phase := fun _ => .free }

def setPhase (s : State n X) (th : Thread n X) (phase : Phase n) : State n X :=
  { s with phase := Function.update s.phase th phase }

def setFlag (s : State n X) (w : Fin n) (flag : Bool) : State n X :=
  { s with isSleeping := Function.update s.isSleeping w flag }

/-- `notify_one`: a blocked waiter goes on to test its predicate. -/
def wake (s : State n X) (w : Fin n) : State n X :=
  if s.phase (.inl w) = .blocked then s.setPhase (.inl w) .waitCheck else s

/-- The thread is inside `decrement_predecessor_count`, with the graph's mutex. -/
def InDecrement (s : State n X) (th : Thread n X) : Prop :=
  ∃ q, (∃ ts, s.phase th = .load ts (.pushed q)) ∨ (∃ ts, s.phase th = .clear ts (.pushed q)) ∨
    ∃ w ts, s.phase th = .signal w ts (.pushed q)

def GraphFree (s : State n X) : Prop := ∀ th, ¬ s.InDecrement th

@[simp] theorem setPhase_phase (s : State n X) (th th' : Thread n X) (phase : Phase n) :
    (s.setPhase th phase).phase th' = if th' = th then phase else s.phase th' := by
  simp [setPhase, Function.update_apply]

@[simp] theorem setPhase_system (s : State n X) (th : Thread n X) (phase : Phase n) :
    (s.setPhase th phase).system = s.system := rfl

@[simp] theorem setPhase_isSleeping (s : State n X) (th : Thread n X) (phase : Phase n) (w : Fin n) :
    (s.setPhase th phase).isSleeping w = s.isSleeping w := rfl

@[simp] theorem setPhase_cancelled (s : State n X) (th : Thread n X) (phase : Phase n) :
    (s.setPhase th phase).cancelled = s.cancelled := rfl

omit [DecidableEq X] in
@[simp] theorem setFlag_isSleeping (s : State n X) (w w' : Fin n) (flag : Bool) :
    (s.setFlag w flag).isSleeping w' = if w' = w then flag else s.isSleeping w' := by
  simp [setFlag, Function.update_apply]

omit [DecidableEq X] in
@[simp] theorem setFlag_system (s : State n X) (w : Fin n) (flag : Bool) :
    (s.setFlag w flag).system = s.system := rfl

omit [DecidableEq X] in
@[simp] theorem setFlag_phase (s : State n X) (w : Fin n) (flag : Bool) (th : Thread n X) :
    (s.setFlag w flag).phase th = s.phase th := rfl

omit [DecidableEq X] in
@[simp] theorem setFlag_cancelled (s : State n X) (w : Fin n) (flag : Bool) :
    (s.setFlag w flag).cancelled = s.cancelled := rfl

@[simp] theorem wake_system (s : State n X) (w : Fin n) : (s.wake w).system = s.system := by
  unfold wake
  split <;> rfl

@[simp] theorem wake_isSleeping (s : State n X) (w w' : Fin n) :
    (s.wake w).isSleeping w' = s.isSleeping w' := by
  unfold wake
  split <;> rfl

@[simp] theorem wake_cancelled (s : State n X) (w : Fin n) :
    (s.wake w).cancelled = s.cancelled := by
  unfold wake
  split <;> rfl

theorem wake_phase (s : State n X) (w : Fin n) (th : Thread n X) :
    (s.wake w).phase th = s.phase th ∨
      th = .inl w ∧ s.phase th = .blocked ∧ (s.wake w).phase th = .waitCheck := by
  unfold wake
  split
  · next hblocked =>
    by_cases hth : th = .inl w
    · subst hth
      exact Or.inr ⟨rfl, hblocked, by simp⟩
    · exact Or.inl (by simp [hth])
  · exact Or.inl rfl

/-- The synchronizers that `decrement_predecessor_count` visits after a push. -/
def pushTargets (n : ℕ) (draw : WorkerId) (option : LocalityOption) : List (Fin n) :=
  if option.isStealable then
    (List.finRange n).map fun i =>
      ⟨(Scheduler.placedWorker draw option + i.val) % n, Nat.mod_lt _ i.pos⟩
  else if h : option.recommendedWorker < n then [⟨option.recommendedWorker, h⟩] else []

/-- The phase after a decrement of a vertex `v`. -/
def afterDecrement (lm : LocalityManager) (draw : WorkerId) (v : PhysicalVertex) : Phase n :=
  if v.predecessorCount - 1 = 0 then
    .load (pushTargets n draw v.localityOption)
      (.pushed (Scheduler.targetQueue lm draw v.localityOption))
  else
    .free

/-- The phase after the count of unfinished tasks is decremented. -/
def afterFinish (scheduler : Scheduler) : Phase n :=
  if scheduler.isFinished then .load (List.finRange n) .finished else .free

/-- The queue that `steal_task` tries in its `i`-th iteration. -/
def stealQueue (lm : LocalityManager) (w : Fin n) (i : ℕ) : QueueRef :=
  .stealable ((lm.threadMapping w + i) % lm.nodeCount)

end State

open State

/-- The steps of a notifier. -/
inductive NotifyStep : State n X → State n X → Prop
  | done (s : State n X) (th : Thread n X) (cause : Cause)
      (hphase : s.phase th = .load [] cause) :
      NotifyStep s (s.setPhase th .free)
  | awake (s : State n X) (th : Thread n X) (w : Fin n) (ts : List (Fin n)) (cause : Cause)
      (hphase : s.phase th = .load (w :: ts) cause) (hflag : s.isSleeping w = false) :
      NotifyStep s (s.setPhase th (.load ts cause))
  | asleep (s : State n X) (th : Thread n X) (w : Fin n) (ts : List (Fin n)) (cause : Cause)
      (hphase : s.phase th = .load (w :: ts) cause) (hflag : s.isSleeping w = true) :
      NotifyStep s (s.setPhase th (.clear (w :: ts) cause))
  | tooLate (s : State n X) (th : Thread n X) (w : Fin n) (ts : List (Fin n)) (cause : Cause)
      (hphase : s.phase th = .clear (w :: ts) cause) (hflag : s.isSleeping w = false) :
      NotifyStep s (s.setPhase th (.load ts cause))
  | clear (s : State n X) (th : Thread n X) (w : Fin n) (ts : List (Fin n)) (cause : Cause)
      (hphase : s.phase th = .clear (w :: ts) cause) (hflag : s.isSleeping w = true) :
      NotifyStep s ((s.setFlag w false).setPhase th (.signal w ts cause))
  | signal (s : State n X) (th : Thread n X) (w : Fin n) (ts : List (Fin n)) (cause : Cause)
      (hphase : s.phase th = .signal w ts cause) :
      NotifyStep s ((s.wake w).setPhase th
        (if cause.stopsAtFirst then .free else .load ts cause))

/-- The steps of worker `w` in `take_runnable_task`. -/
inductive TakeStep (lm : LocalityManager) : State n X → State n X → Prop
  | enter (s : State n X) (w : Fin n) (hphase : s.phase (.inl w) = .free)
      (hidle : s.system.calls (.inl w) = .idle) :
      TakeStep lm s (s.setPhase (.inl w) .firstUnstealable)
  | firstUnstealable (s : State n X) (w : Fin n)
      (hphase : s.phase (.inl w) = .firstUnstealable)
      (hempty : s.system.scheduler.queues (.unstealable w) = []) :
      TakeStep lm s (s.setPhase (.inl w) .firstLocal)
  | firstLocal (s : State n X) (w : Fin n) (hphase : s.phase (.inl w) = .firstLocal)
      (hempty : s.system.scheduler.queues (.stealable (lm.threadMapping w)) = []) :
      TakeStep lm s (s.setPhase (.inl w) (.firstSteal 0))
  | firstSteal (s : State n X) (w : Fin n) (i : ℕ) (hi : i < lm.nodeCount)
      (hphase : s.phase (.inl w) = .firstSteal i)
      (hempty : s.system.scheduler.queues (stealQueue lm w i) = []) :
      TakeStep lm s (s.setPhase (.inl w) (.firstSteal (i + 1)))
  | attemptSleep (s : State n X) (w : Fin n)
      (hphase : s.phase (.inl w) = .firstSteal lm.nodeCount) :
      TakeStep lm s (s.setPhase (.inl w) .setSleeping)
  | foundFirst (s : State n X) (w : Fin n) (q : QueueRef) (t : TaskId) (scheduler : Scheduler)
      (hphase : (s.phase (.inl w) = .firstUnstealable ∧ q = .unstealable w ∧
          s.system.scheduler.popFront q = some (t, scheduler)) ∨
        (s.phase (.inl w) = .firstLocal ∧ q = .stealable (lm.threadMapping w) ∧
          s.system.scheduler.popBack q = some (t, scheduler)) ∨
        ∃ i, i < lm.nodeCount ∧ s.phase (.inl w) = .firstSteal i ∧ q = stealQueue lm w i ∧
          s.system.scheduler.popFront q = some (t, scheduler)) :
      TakeStep lm s ({ s with system := s.system.take scheduler t }.setPhase (.inl w) .free)
  | setSleeping (s : State n X) (w : Fin n) (hphase : s.phase (.inl w) = .setSleeping) :
      TakeStep lm s ((s.setFlag w true).setPhase (.inl w) .checkFinished)
  | finished (s : State n X) (w : Fin n) (hphase : s.phase (.inl w) = .checkFinished)
      (hfinished : s.system.scheduler.isFinished = true) :
      TakeStep lm s (s.setPhase (.inl w) .resetSleeping)
  | unfinished (s : State n X) (w : Fin n) (hphase : s.phase (.inl w) = .checkFinished)
      (hfinished : s.system.scheduler.isFinished = false) :
      TakeStep lm s (s.setPhase (.inl w) .checkCancelled)
  | cancelled (s : State n X) (w : Fin n) (hphase : s.phase (.inl w) = .checkCancelled)
      (hcancelled : s.cancelled = true) :
      TakeStep lm s (s.setPhase (.inl w) .resetSleeping)
  | uncancelled (s : State n X) (w : Fin n) (hphase : s.phase (.inl w) = .checkCancelled)
      (hcancelled : s.cancelled = false) :
      TakeStep lm s (s.setPhase (.inl w) .againUnstealable)
  | againUnstealable (s : State n X) (w : Fin n)
      (hphase : s.phase (.inl w) = .againUnstealable)
      (hempty : s.system.scheduler.queues (.unstealable w) = []) :
      TakeStep lm s (s.setPhase (.inl w) (.againSteal 0))
  | againSteal (s : State n X) (w : Fin n) (i : ℕ) (hi : i < lm.nodeCount)
      (hphase : s.phase (.inl w) = .againSteal i)
      (hempty : s.system.scheduler.queues (stealQueue lm w i) = []) :
      TakeStep lm s (s.setPhase (.inl w) (.againSteal (i + 1)))
  | wait (s : State n X) (w : Fin n) (hphase : s.phase (.inl w) = .againSteal lm.nodeCount) :
      TakeStep lm s (s.setPhase (.inl w) .waitCheck)
  | foundAgain (s : State n X) (w : Fin n) (q : QueueRef) (t : TaskId) (scheduler : Scheduler)
      (hphase : (s.phase (.inl w) = .againUnstealable ∧ q = .unstealable w) ∨
        ∃ i, i < lm.nodeCount ∧ s.phase (.inl w) = .againSteal i ∧ q = stealQueue lm w i)
      (hpop : s.system.scheduler.popFront q = some (t, scheduler)) :
      TakeStep lm s
        ({ s with system := s.system.take scheduler t }.setPhase (.inl w) .resetSleeping)
  | block (s : State n X) (w : Fin n) (hphase : s.phase (.inl w) = .waitCheck)
      (hflag : s.isSleeping w = true) :
      TakeStep lm s (s.setPhase (.inl w) .blocked)
  | leaveWait (s : State n X) (w : Fin n) (hphase : s.phase (.inl w) = .waitCheck)
      (hflag : s.isSleeping w = false) :
      TakeStep lm s (s.setPhase (.inl w) .setSleeping)
  | spurious (s : State n X) (w : Fin n) (hphase : s.phase (.inl w) = .blocked) :
      TakeStep lm s (s.setPhase (.inl w) .waitCheck)
  | resetSleeping (s : State n X) (w : Fin n) (hphase : s.phase (.inl w) = .resetSleeping) :
      TakeStep lm s ((s.setFlag w false).setPhase (.inl w) .free)

/-- The steps of a thread that calls into the scheduler, in any sequence that
keeps to the conditions of `SchedulerCalls.Step`. The graph's mutex keeps them
out of another thread's decrement. -/
inductive CallStep (lm : LocalityManager) : State n X → State n X → Prop
  | createPhysicalTask (s : State n X) (th : Thread n X) (option : LocalityOption)
      (hphase : s.phase th = .free) (hidle : s.system.calls th = .idle) (hgraph : s.GraphFree) :
      CallStep lm s { s with system := s.system.createPhysicalTask option }
  | addDependency (s : State n X) (th : Thread n X) (p t : TaskId)
      (hphase : s.phase th = .free) (hidle : s.system.calls th = .idle) (hgraph : s.GraphFree)
      (hcreated : .created t ∈ s.system.log) (hunreleased : ¬ Released s.system.log t) :
      CallStep lm s { s with system := s.system.addDependency p t }
  | commitTask (s : State n X) (th : Thread n X) (t : TaskId)
      (hphase : s.phase th = .free) (hidle : s.system.calls th = .idle)
      (hcreated : .created t ∈ s.system.log) (honce : .commitCalled t ∉ s.system.log) :
      CallStep lm s { s with system := s.system.beginCommit th t }
  | commitDecrement (s : State n X) (th : Thread n X) (t : TaskId) (draw : WorkerId)
      (v : PhysicalVertex) (hphase : s.phase th = .free)
      (hcall : s.system.calls th = .committing t) (hgraph : s.GraphFree)
      (hv : s.system.scheduler.vertices t = some v) :
      CallStep lm s ({ s with system := s.system.commitDecrement lm draw th t }.setPhase th
        (afterDecrement lm draw v))
  | notifyTaskCompletion (s : State n X) (th : Thread n X) (t : TaskId)
      (hphase : s.phase th = .free) (hidle : s.system.calls th = .idle) (hgraph : s.GraphFree)
      (htaken : .taken t ∈ s.system.log) (honce : .completed t ∉ s.system.log) :
      CallStep lm s { s with system := s.system.beginCompletion th t }
  | drain (s : State n X) (th : Thread n X) (t x : TaskId) (rest : List TaskId) (draw : WorkerId)
      (v : PhysicalVertex) (hphase : s.phase th = .free)
      (hcall : s.system.calls th = .draining t (x :: rest)) (hgraph : s.GraphFree)
      (hv : s.system.scheduler.vertices x = some v) :
      CallStep lm s ({ s with system := s.system.drain lm draw th t x rest }.setPhase th
        (afterDecrement lm draw v))
  | finishCompletion (s : State n X) (th : Thread n X) (t : TaskId)
      (hphase : s.phase th = .free) (hcall : s.system.calls th = .draining t []) :
      CallStep lm s ({ s with system := s.system.finishCompletion th t }.setPhase th
        (afterFinish s.system.scheduler.decrementUnfinished))
  | notifyException (s : State n X) (th : Thread n X) (hphase : s.phase th = .free) :
      CallStep lm s ({ s with cancelled := true }.setPhase th
        (.load (List.finRange n) .exception))

def Step (lm : LocalityManager) (s s' : State n X) : Prop :=
  NotifyStep s s' ∨ TakeStep lm s s' ∨ CallStep lm s s'

def Run (lm : LocalityManager) : State n X → Prop :=
  Reachable (fun s => s = State.initial) (Step lm)

end M3bp.Wakeup
