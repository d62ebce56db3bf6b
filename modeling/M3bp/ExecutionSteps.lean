import M3bp.Execution
import M3bp.EngineFinalizers
import M3bp.ThreadObservers

/-!
How the threads and the engine keep together in an execution. The point of the thread
function says what the worker is doing in the engine; a worker that has been taken out of its
loop by an exception is left there with the operation that has thrown.
-/
namespace M3bp.Execution

open Engine SchedulerCalls Transition
open WorkerThread (Answer)

variable {n : ℕ} {O E : Type}

/-- The thread has left its task loop. -/
def isOut : WorkerThread.Phase O E TaskId ℕ → Bool
  | .initializing _ | .looping | .taking | .preparing _ | .running _ | .completing _ => false
  | _ => true

/-- The thread has no task. -/
def IsIdle : WorkerThread.Phase O E TaskId ℕ → Prop
  | .initializing _ | .looping | .taking => True
  | _ => False

/-- A worker without a task, or with one that has thrown. -/
def Abandoned (worker : Engine.Worker) (call : Call) : Prop :=
  worker.activity = .idle ∨ ∃ t op rest, worker.activity = .running t ∧ call = .idle ∧
    worker.program = op :: rest ∧ MayThrow op

/-- What the worker is doing in the engine at a point of the thread function. -/
def Expects (worker : Engine.Worker) (call : Call) : WorkerThread.Phase O E TaskId ℕ → Prop
  | .initializing _ | .looping | .taking => worker.activity = .idle
  | .preparing t => worker.activity = .running t ∧ call = .idle ∧
      ∃ c, worker.program = [.prepare t c]
  | .running t => worker.activity = .running t
  | .completing t => worker.activity = .completing t
  | _ => Abandoned worker call

structure Coupled (g : LogicalGraph) (lm : LocalityManager) (observers : List O)
    (s : State n O E) : Prop where
  engine : CancelRun g lm s.engine
  threads : WorkerThread.Reached observers (List.range g.tasks.length) s.threads
  workers : ∀ w, Expects (s.engine.workers w) (s.engine.system.calls (some w)) (s.phase w)
  finalizing : ∀ w l, s.finalizing w = some l → Cancels l (s.phase w)
  globalFinalizing : ∀ l, s.globalFinalizing = some l →
    ∃ todo, s.threads.executor = .cancelling (l :: todo)
  executor : s.threads.executor ≠ .joining → ∀ w, s.phase w = .returned

section Phases

variable {worker worker' : Engine.Worker} {call call' : Call} {l : ℕ}
  {phase : WorkerThread.Phase O E TaskId ℕ} {u : WorkerThread.Worker O E TaskId ℕ}
  {tasks : List ℕ} {ptr thrown : Option E} {a : Answer E TaskId} {t : TaskId}

theorem expects_of_out (h : isOut phase = true) :
    Expects worker call phase ↔ Abandoned worker call := by
  cases phase <;> first
    | exact Iff.rfl
    | cases h

theorem expects_of_idle (h : IsIdle phase) :
    Expects worker call phase ↔ worker.activity = .idle := by
  cases phase <;> first
    | exact Iff.rfl
    | exact h.elim

theorem isOut_of_cancels (h : Cancels l phase) : isOut phase = true := by
  obtain ⟨todo, rfl | rfl⟩ := h
  · rfl
  · rfl

theorem not_between_of_cancels (h : Cancels l phase) : ¬ IsBetween phase := by
  obtain ⟨todo, rfl | rfl⟩ := h
  · exact id
  · exact id

theorem isOut_call {pass : WorkerThread.Pass} {callback : WorkerThread.Callback O TaskId ℕ}
    {next : WorkerThread.Phase O E TaskId ℕ} {rest : WorkerThread.Handler ℕ}
    (h : isOut next = true) : isOut (u.call pass callback thrown next rest).phase = true := by
  cases thrown with
  | none => exact h
  | some eptr => rfl

/-- A thread that is out of its loop does not come back. -/
theorem isOut_advance (h : isOut u.phase = true) : isOut (u.advance tasks ptr a).phase = true := by
  cases hphase : u.phase with
  | initializing todo => simp [hphase, isOut] at h
  | looping => simp [hphase, isOut] at h
  | taking => simp [hphase, isOut] at h
  | preparing t => simp [hphase, isOut] at h
  | running t => simp [hphase, isOut] at h
  | completing t => simp [hphase, isOut] at h
  | leaving =>
    simp only [WorkerThread.Worker.advance, hphase]
    split
    · rfl
    · rfl
  | cancelling todo =>
    cases todo with
    | nil => simp only [WorkerThread.Worker.advance, hphase]; rfl
    | cons l todo =>
      simp only [WorkerThread.Worker.advance, hphase]
      exact isOut_call rfl
  | finalizing =>
    simp only [WorkerThread.Worker.advance, hphase]
    split
    · rfl
    · exact isOut_call rfl
  | notifying eptr rest => simp only [WorkerThread.Worker.advance, hphase]; rfl
  | handling rest =>
    cases rest with
    | cancelling todo =>
      cases todo with
      | nil => simp only [WorkerThread.Worker.advance, hphase]; rfl
      | cons l todo =>
        simp only [WorkerThread.Worker.advance, hphase]
        exact isOut_call rfl
    | finalizing =>
      simp only [WorkerThread.Worker.advance, hphase]
      split
      · rfl
      · exact isOut_call rfl
    | popping => simp only [WorkerThread.Worker.advance, hphase]; rfl
  | returned =>
    simp only [WorkerThread.Worker.advance, hphase]
    rfl

/-- A thread that has nothing to do with a task stays so, or it leaves its loop. -/
theorem advance_idle (h : IsBetween u.phase) (hout : isOut u.phase = false) :
    IsIdle u.phase ∧
      (isOut (u.advance tasks ptr a).phase = true ∨ IsIdle (u.advance tasks ptr a).phase) := by
  cases hphase : u.phase with
  | initializing todo =>
    refine ⟨trivial, ?_⟩
    cases todo with
    | nil => simp only [WorkerThread.Worker.advance, hphase]; exact Or.inr trivial
    | cons observer todo =>
      simp only [WorkerThread.Worker.advance, hphase]
      cases hthrown : a.thrown with
      | none => exact Or.inr trivial
      | some eptr => exact Or.inl rfl
  | looping =>
    refine ⟨trivial, ?_⟩
    simp only [WorkerThread.Worker.advance, hphase]
    split
    · exact Or.inr trivial
    · exact Or.inl rfl
  | taking | preparing _ | running _ | completing _ =>
    rw [hphase] at h
    exact h.elim
  | _ =>
    rw [hphase] at hout
    cases hout

end Phases

/-- Nothing happens to any other worker in the engine. -/
structure Frame (w : Fin n) (s s' : Engine.State n) : Prop where
  workers : ∀ w', w' ≠ w → s'.workers w' = s.workers w'
  calls : ∀ w', w' ≠ w → s'.system.calls (some w') = s.system.calls (some w')

section Frames

variable {s : Engine.State n} {w : Fin n} {t x : TaskId} {lm : LocalityManager} {draw : WorkerId}

theorem Frame.rfl : Frame w s s := ⟨fun _ _ => Eq.refl _, fun _ _ => Eq.refl _⟩

theorem calls_decrement {sys : System (Option (Fin n))} {next : Call}
    {evs : List SchedulerCalls.Event} {w' : Fin n} (hw : w' ≠ w) :
    (sys.decrement lm draw (some w) t next evs).calls (some w') = sys.calls (some w') := by
  have hne : (some w' : Option (Fin n)) ≠ some w := by simpa using hw
  unfold System.decrement
  split
  · exact Eq.refl _
  · exact Function.update_of_ne hne ..

theorem frame_take (s : Engine.State n) (w : Fin n) (t : TaskId) (scheduler : Scheduler) :
    Frame w s (s.take w t scheduler) :=
  ⟨fun _ hw => Function.update_of_ne hw .., fun _ _ => Eq.refl _⟩

theorem frame_apply (s : Engine.State n) (w : Fin n) (rest : List Op) (e : Effect) :
    Frame w s (s.apply w rest e) := by
  refine ⟨fun _ hw => Function.update_of_ne hw .., fun w' hw => ?_⟩
  have hne : (some w' : Option (Fin n)) ≠ some w := by simpa using hw
  simp only [Engine.State.apply]
  cases e.action with
  | none => exact Eq.refl _
  | create option c => exact Eq.refl _
  | depend p t =>
    simp only [Action.perform, System.addDependency]
    split <;> exact Eq.refl _
  | commit t => exact Function.update_of_ne hne ..

theorem frame_complete (s : Engine.State n) (w : Fin n) (t : TaskId) :
    Frame w s (s.complete w t) := by
  refine ⟨fun _ hw => Function.update_of_ne hw .., fun w' hw => ?_⟩
  have hne : (some w' : Option (Fin n)) ≠ some w := by simpa using hw
  simp only [Engine.State.complete, System.beginCompletion]
  split
  · exact Eq.refl _
  · exact Function.update_of_ne hne ..

theorem frame_finish (s : Engine.State n) (w : Fin n) (t : TaskId) :
    Frame w s { s.setActivity w .idle with system := s.system.finishCompletion (some w) t } := by
  refine ⟨fun _ hw => Function.update_of_ne hw .., fun w' hw => ?_⟩
  have hne : (some w' : Option (Fin n)) ≠ some w := by simpa using hw
  exact Function.update_of_ne hne ..

end Frames

section Coupling

variable {g : LogicalGraph} {lm : LocalityManager} {observers : List O} {s s' : State n O E}
  {w : Fin n} {a : Answer E TaskId}

theorem phase_advance_self (s : State n O E) (g : LogicalGraph) (w : Fin n) (a : Answer E TaskId) :
    (s.advance g w a).phase w = ((s.threads.workers w).advance (List.range g.tasks.length)
      s.threads.exceptionPtr a).phase := by
  simp [State.advance, State.phase, WorkerThread.State.advance]

theorem phase_advance_of_ne (s : State n O E) (g : LogicalGraph) {w w' : Fin n} (hw : w' ≠ w)
    (a : Answer E TaskId) : (s.advance g w a).phase w' = s.phase w' := by
  simp [State.advance, State.phase, WorkerThread.State.advance, hw]

theorem phase_execute (s : State n O E) (g : LogicalGraph) (thrown : Option E) (w : Fin n) :
    (s.execute g thrown).phase w = s.phase w := by
  simp [State.execute, State.phase, WorkerThread.execute_workers]

/-- The worker `w` does something, alone or in the engine. -/
theorem Coupled.update (h : Coupled g lm observers s) (w : Fin n)
    (hengine : CancelRun g lm s'.engine)
    (hthreads : WorkerThread.Reached observers (List.range g.tasks.length) s'.threads)
    (hself : Expects (s'.engine.workers w) (s'.engine.system.calls (some w)) (s'.phase w))
    (hframe : Frame w s.engine s'.engine) (hphase : ∀ w', w' ≠ w → s'.phase w' = s.phase w')
    (hfinalizing : ∀ l, s'.finalizing w = some l → Cancels l (s'.phase w))
    (hothers : ∀ w', w' ≠ w → s'.finalizing w' = s.finalizing w')
    (hglobal : s'.globalFinalizing = s.globalFinalizing)
    (hexecutor : s'.threads.executor = s.threads.executor)
    (hreturned : s.phase w = .returned → s'.phase w = .returned) :
    Coupled g lm observers s' := by
  refine ⟨hengine, hthreads, fun w' => ?_, fun w' l hin => ?_, ?_, fun hjoined w' => ?_⟩
  · by_cases hw : w' = w
    · subst hw
      exact hself
    · rw [hframe.workers w' hw, hframe.calls w' hw, hphase w' hw]
      exact h.workers w'
  · by_cases hw : w' = w
    · subst hw
      exact hfinalizing l hin
    · rw [hphase w' hw]
      rw [hothers w' hw] at hin
      exact h.finalizing w' l hin
  · rw [hglobal, hexecutor]
    exact h.globalFinalizing
  · rw [hexecutor] at hjoined
    by_cases hw : w' = w
    · subst hw
      exact hreturned (h.executor hjoined w')
    · rw [hphase w' hw]
      exact h.executor hjoined w'

/-! Where the thread function goes on. -/

theorem phase_of_taking (hphase : s.phase w = .taking) (task : Option TaskId) :
    (s.advance g w (answer none task)).phase w =
      match task with
      | none => .looping
      | some t => .preparing t := by
  rw [phase_advance_self]
  cases task <;> simp [WorkerThread.Worker.advance, show (s.threads.workers w).phase = _ from hphase,
    answer]

theorem phase_of_preparing {t : TaskId} (hphase : s.phase w = .preparing t) :
    (s.advance g w (answer none none)).phase w = .running t := by
  rw [phase_advance_self]
  simp [WorkerThread.Worker.advance, show (s.threads.workers w).phase = _ from hphase, answer]

theorem phase_of_running {t : TaskId} (hphase : s.phase w = .running t) :
    (s.advance g w (answer none none)).phase w = .completing t := by
  rw [phase_advance_self]
  simp [WorkerThread.Worker.advance, show (s.threads.workers w).phase = _ from hphase, answer]

theorem phase_of_completing {t : TaskId} (hphase : s.phase w = .completing t) :
    (s.advance g w (answer none none)).phase w = .looping := by
  rw [phase_advance_self]
  simp [WorkerThread.Worker.advance, show (s.threads.workers w).phase = _ from hphase]

theorem phase_of_throwing {t : TaskId} (hphase : s.phase w = .preparing t ∨ s.phase w = .running t)
    (eptr : E) : (s.advance g w (answer (some eptr) none)).phase w =
      .notifying eptr (.cancelling (List.range g.tasks.length)) := by
  rw [phase_advance_self]
  rcases hphase with hphase | hphase <;>
    simp [WorkerThread.Worker.advance, show (s.threads.workers w).phase = _ from hphase, answer]

theorem reached_advance (h : Coupled g lm observers s) (w : Fin n) (a : Answer E TaskId) :
    WorkerThread.Reached observers (List.range g.tasks.length) (s.advance g w a).threads :=
  h.threads.next (.advance w a)

theorem reached_execute (h : Coupled g lm observers s) (thrown : Option E) :
    WorkerThread.Reached observers (List.range g.tasks.length) (s.execute g thrown).threads :=
  h.threads.next (.execute thrown)

/-- A thread that is out of its loop goes on. -/
theorem Coupled.advance_out (h : Coupled g lm observers s) (hout : isOut (s.phase w) = true)
    (hin : s.finalizing w = none) (a : Answer E TaskId) : Coupled g lm observers (s.advance g w a) := by
  have hworker := (expects_of_out hout).mp (h.workers w)
  have hout' : isOut ((s.advance g w a).phase w) = true := by
    rw [phase_advance_self]
    exact isOut_advance hout
  refine h.update w h.engine (reached_advance h w a) ((expects_of_out hout').mpr hworker) .rfl
    (fun w' hw => phase_advance_of_ne s g hw a) (fun l hl => ?_) (fun _ _ => rfl) rfl rfl
    fun hreturned => ?_
  · rw [show (s.advance g w a).finalizing w = none from hin] at hl
    cases hl
  · rw [phase_advance_self, show (s.threads.workers w) = (s.threads.workers w) from rfl]
    simp [WorkerThread.Worker.advance, show (s.threads.workers w).phase = _ from hreturned]

theorem Coupled.not_finalizing (h : Coupled g lm observers s) (hphase : ∀ l, ¬ Cancels l (s.phase w)) :
    s.finalizing w = none := by
  cases hin : s.finalizing w with
  | none => rfl
  | some l => exact absurd (h.finalizing w l hin) (hphase l)

theorem Coupled.not_finalizing_of_loop (h : Coupled g lm observers s)
    (hloop : isOut (s.phase w) = false) : s.finalizing w = none := by
  refine h.not_finalizing fun l hcancels => ?_
  rw [isOut_of_cancels hcancels] at hloop
  cases hloop

theorem follow_idle (g : LogicalGraph) (a : Answer E TaskId) (h : IsBetween (s.phase w))
    (hout : isOut (s.phase w) = false) : IsIdle (s.phase w) ∧
      (isOut ((s.advance g w a).phase w) = true ∨ IsIdle ((s.advance g w a).phase w)) := by
  rw [phase_advance_self]
  exact advance_idle h hout

theorem Coupled.follow (h : Coupled g lm observers s) (hphase : IsBetween (s.phase w))
    (a : Answer E TaskId) : Coupled g lm observers (s.advance g w a) := by
  have hin : s.finalizing w = none :=
    h.not_finalizing fun l hcancels => not_between_of_cancels hcancels hphase
  cases hout : isOut (s.phase w) with
  | true => exact h.advance_out hout hin a
  | false =>
    obtain ⟨hidle, hnext⟩ := follow_idle g a hphase hout
    have hactivity := (expects_of_idle hidle).mp (h.workers w)
    refine h.update w h.engine (reached_advance h w a) ?_ .rfl
      (fun w' hw => phase_advance_of_ne s g hw a) (fun l hl => ?_) (fun _ _ => rfl) rfl rfl
      fun hreturned => ?_
    · rcases hnext with hnext | hnext
      · exact (expects_of_out hnext).mpr (Or.inl hactivity)
      · exact (expects_of_idle hnext).mpr hactivity
    · rw [show (s.advance g w a).finalizing w = none from hin] at hl
      cases hl
    · rw [hreturned] at hout
      cases hout

/-- A worker whose thread is in the task loop does something in the engine. -/
theorem Coupled.work (h : Coupled g lm observers s) {engine : Engine.State n}
    (phase : WorkerThread.Phase O E TaskId ℕ) (hstep : Engine.Step g lm s.engine engine)
    (hframe : Frame w s.engine engine) (hloop : isOut (s.phase w) = false)
    (hengine : s'.engine = engine)
    (hthreads : WorkerThread.Reached observers (List.range g.tasks.length) s'.threads)
    (hphase : s'.phase w = phase)
    (hself : Expects (engine.workers w) (engine.system.calls (some w)) phase)
    (hothers : ∀ w', w' ≠ w → s'.phase w' = s.phase w')
    (hfinalizing : s'.finalizing = s.finalizing)
    (hglobal : s'.globalFinalizing = s.globalFinalizing)
    (hexecutor : s'.threads.executor = s.threads.executor) : Coupled g lm observers s' := by
  subst hengine hphase
  refine h.update w (h.engine.next (.step hstep)) hthreads hself hframe hothers (fun l hl => ?_)
    (fun w' _ => by rw [hfinalizing]) hglobal hexecutor fun hreturned => ?_
  · rw [hfinalizing] at hl
    have hout := isOut_of_cancels (h.finalizing w l hl)
    rw [hloop] at hout
    cases hout
  · rw [hreturned] at hloop
    cases hloop

/-- A call of a worker into the scheduler goes on. -/
theorem Coupled.call (h : Coupled g lm observers s) {system : System (Option (Fin n))}
    (hstep : Engine.Step g lm s.engine { s.engine with system := system })
    (hbusy : s.engine.system.calls (some w) ≠ .idle)
    (hcalls : ∀ w', w' ≠ w → system.calls (some w') = s.engine.system.calls (some w')) :
    Coupled g lm observers (s.withEngine { s.engine with system := system }) := by
  refine h.update w (h.engine.next (.step hstep)) h.threads ?_ ⟨fun _ _ => rfl, hcalls⟩
    (fun _ _ => rfl) (h.finalizing w) (fun _ _ => rfl) rfl rfl id
  have hself := h.workers w
  show Expects (s.engine.workers w) (system.calls (some w)) (s.phase w)
  cases hphase : s.phase w with
  | preparing t =>
    rw [hphase] at hself
    exact absurd hself.2.1 hbusy
  | initializing _ | looping | taking | running _ | completing _ =>
    rw [hphase] at hself
    exact hself
  | leaving | cancelling _ | finalizing | notifying _ _ | handling _ | returned =>
    rw [hphase] at hself
    rcases hself with hidle | ⟨t, op, rest, -, hcall, -⟩
    · exact Or.inl hidle
    · exact absurd hcall hbusy

/-- The executor goes on. -/
theorem Coupled.execute (h : Coupled g lm observers s) (thrown : Option E)
    (hreturned : ∀ w, s.phase w = .returned) (hin : s.globalFinalizing = none) :
    Coupled g lm observers (s.execute g thrown) := by
  refine ⟨h.engine, reached_execute h thrown, fun w => ?_, fun w l hl => ?_, fun l hl => ?_,
    fun _ w => ?_⟩
  · rw [phase_execute]
    exact h.workers w
  · rw [phase_execute]
    exact h.finalizing w l hl
  · rw [show (s.execute g thrown).globalFinalizing = none from hin] at hl
    cases hl
  · rw [phase_execute]
    exact hreturned w

theorem Coupled.not_globalFinalizing (h : Coupled g lm observers s)
    (hexecutor : ∀ l todo, s.threads.executor ≠ .cancelling (l :: todo)) :
    s.globalFinalizing = none := by
  cases hin : s.globalFinalizing with
  | none => rfl
  | some l =>
    obtain ⟨todo, heq⟩ := h.globalFinalizing l hin
    exact absurd heq (hexecutor l todo)

theorem Coupled.step (hwaits : Waits g) (h : Coupled g lm observers s) (hstep : Step g lm s s') :
    Coupled g lm observers s' := by
  have hinv := cancel_invariant hwaits h.engine
  cases hstep with
  | follow hphase _ => exact h.follow hphase _
  | @takeNothing w hphase hover =>
    have hself := h.workers w
    have hin := h.not_finalizing_of_loop (w := w) (by rw [hphase]; rfl)
    rw [hphase] at hself
    refine h.update w h.engine (reached_advance h w _) ?_ .rfl
      (fun w' hw => phase_advance_of_ne s g hw _) (fun l hl => ?_) (fun _ _ => rfl) rfl rfl
      fun hreturned => ?_
    · rw [phase_of_taking hphase]
      exact hself
    · rw [show (s.advance g w _).finalizing w = none from hin] at hl
      cases hl
    · rw [hphase] at hreturned
      cases hreturned
  | @take w q t scheduler hphase hpop =>
    have hself := h.workers w
    rw [hphase] at hself
    have hidle : (s.engine.workers w).activity = .idle := hself
    have hcommand : t < s.engine.commands.length := by
      obtain ⟨tasks, hperm, -⟩ := hpop.perm
      exact hinv.lt_of_pushed ((run_inv hinv.run).data.queued q t
        (hperm.mem_iff.mpr List.mem_cons_self)).1
    refine h.work (.preparing t) (.take hidle hpop) (frame_take ..) (by rw [hphase]; rfl)
      rfl (reached_advance h w _) (phase_of_taking hphase _) ⟨?_, ?_, ?_⟩
      (fun w' hw => phase_advance_of_ne s g hw _) rfl rfl rfl
    · simp [Engine.State.take]
    · exact (hinv.idle w (Or.inl hidle)).2
    · exact ⟨s.engine.commands[t], by simp [Engine.State.take, List.getElem?_eq_getElem hcommand]⟩
  | @prepare w t op rest e hphase hprogram heffect =>
    have hself := h.workers w
    rw [hphase] at hself
    obtain ⟨hrunning, hcall, -⟩ := hself
    exact h.work (.running t) (.perform hrunning hcall hprogram heffect) (frame_apply ..)
      (by rw [hphase]; rfl) rfl (reached_advance h w _) (phase_of_preparing hphase)
      (show _ = _ by rw [apply_activity]; exact hrunning)
      (fun w' hw => phase_advance_of_ne s g hw _) rfl rfl rfl
  | @perform w t op rest e hphase hcall hprogram heffect =>
    have hself := h.workers w
    rw [hphase] at hself
    have hrunning : (s.engine.workers w).activity = .running t := hself
    exact h.work (.running t) (.perform hrunning hcall hprogram heffect) (frame_apply ..)
      (by rw [hphase]; rfl) rfl h.threads hphase
      (show _ = _ by rw [apply_activity]; exact hrunning) (fun w' hw => rfl) rfl rfl rfl
  | @throws w t op rest eptr hphase hcall hprogram hop =>
    have hself := h.workers w
    have hrunning : (s.engine.workers w).activity = .running t := by
      rcases hphase with hphase | hphase
      · rw [hphase] at hself
        exact hself.1
      · rw [hphase] at hself
        exact hself
    have hloop : isOut (s.phase w) = false := by
      rcases hphase with hphase | hphase <;> rw [hphase] <;> rfl
    refine h.update w h.engine (reached_advance h w _) ?_ .rfl
      (fun w' hw => phase_advance_of_ne s g hw _) (fun l hl => ?_) (fun _ _ => rfl) rfl rfl
      fun hreturned => ?_
    · rw [show ((s.advance g w (answer (some eptr) none)).record (thrownOf w eptr op)).phase w =
        .notifying eptr (.cancelling (List.range g.tasks.length)) from phase_of_throwing hphase eptr]
      exact Or.inr ⟨t, op, rest, hrunning, hcall, hprogram, hop⟩
    · rw [show ((s.advance g w (answer (some eptr) none)).record (thrownOf w eptr op)).finalizing w =
        none from h.not_finalizing_of_loop hloop] at hl
      cases hl
    · rw [hreturned] at hloop
      cases hloop
  | @complete w t hphase hcall hprogram =>
    have hself := h.workers w
    rw [hphase] at hself
    exact h.work (.completing t) (.complete hself hcall hprogram) (frame_complete ..)
      (by rw [hphase]; rfl) rfl (reached_advance h w _) (phase_of_running hphase)
      (show _ = _ by simp [Engine.State.complete]) (fun w' hw => phase_advance_of_ne s g hw _)
      rfl rfl rfl
  | commitDecrement hcall =>
    exact h.call (.commitDecrement hcall) (by simp [hcall]) fun w' hw => calls_decrement hw
  | drain hcall =>
    exact h.call (.drain hcall) (by simp [hcall]) fun w' hw => calls_decrement hw
  | @finish w t hphase hcall =>
    exact h.work .looping (.finish hcall) (frame_finish ..) (by rw [hphase]; rfl) rfl
      (reached_advance h w _) (phase_of_completing hphase)
      (show _ = _ by simp [Engine.State.setActivity]) (fun w' hw => phase_advance_of_ne s g hw _)
      rfl rfl rfl
  | skipSweep hphase hin hflag => exact h.advance_out (isOut_of_cancels hphase) hin _
  | @beginSweep w l hphase hin hflag =>
    refine h.update w (h.engine.next (.clear l _ ⟨rfl, fun v hv => ?_⟩)) h.threads (h.workers w)
      ⟨fun _ _ => rfl, fun _ _ => rfl⟩ (fun _ _ => rfl) (fun l' hl => ?_)
      (fun w' hw => Function.update_of_ne hw ..) rfl rfl id
    · by_cases hvw : v = w
      · subst hvw
        simp at hv
      · simpa [hvw] using hv
    · rw [show (s.beginSweep w l).finalizing w = some l from Function.update_self ..] at hl
      cases hl
      exact hphase
  | @endSweep w l thrown hin =>
    have hout := isOut_of_cancels (h.finalizing w l hin)
    have hout' : isOut ((s.advance g w (answer thrown none)).phase w) = true := by
      rw [phase_advance_self]
      exact isOut_advance hout
    refine h.update w h.engine (reached_advance h w _)
      ((expects_of_out hout').mpr ((expects_of_out hout).mp (h.workers w))) .rfl
      (fun w' hw => phase_advance_of_ne s g hw _) (fun l' hl => ?_)
      (fun w' hw => Function.update_of_ne hw ..) rfl rfl fun hreturned => ?_
    · rw [show ((s.advance g w (answer thrown none)).endSweep w l thrown).finalizing w = none from
        Function.update_self ..] at hl
      cases hl
    · obtain ⟨todo, hphase | hphase⟩ := h.finalizing w l hin <;> rw [hphase] at hreturned <;>
        cases hreturned
  | join hphase hreturned =>
    exact h.execute none (fun w => WorkerThread.isReturned_iff.mp (hreturned w))
      (h.not_globalFinalizing (by simp [hphase]))
  | notify hphase =>
    exact h.execute none (h.executor (by simp [hphase])) (h.not_globalFinalizing (by simp [hphase]))
  | conclude hphase =>
    exact h.execute none (h.executor (by simp [hphase])) (h.not_globalFinalizing (by simp [hphase]))
  | skipCancel hphase hin hflag => exact h.execute none (h.executor (by simp [hphase])) hin
  | @beginCancel l todo hphase hin hflag =>
    refine ⟨h.engine.next (.clear l _ ⟨rfl, fun _ hv => hv⟩), h.threads, h.workers, h.finalizing,
      fun l' hl => ?_, h.executor⟩
    cases hl
    exact ⟨todo, hphase⟩
  | @endCancel l thrown hin =>
    obtain ⟨todo, hphase⟩ := h.globalFinalizing l hin
    have hreturned := h.executor (by simp [hphase])
    have hengine : CancelRun g lm ((s.execute g thrown).endCancel l thrown).engine := by
      cases thrown with
      | none => exact h.engine.next (.clear l _ ⟨rfl, fun _ hv => hv⟩)
      | some eptr => exact h.engine
    have hworkers : ((s.execute g thrown).endCancel l thrown).engine.workers = s.engine.workers ∧
        ((s.execute g thrown).endCancel l thrown).engine.system = s.engine.system := by
      cases thrown <;> exact ⟨rfl, rfl⟩
    refine ⟨hengine, reached_execute h thrown, fun w => ?_, fun w l' hl => ?_, fun l' hl => ?_,
      fun _ w => ?_⟩
    · rw [hworkers.1, hworkers.2]
      rw [show ((s.execute g thrown).endCancel l thrown).phase w = s.phase w from
        phase_execute s g thrown w]
      exact h.workers w
    · rw [show ((s.execute g thrown).endCancel l thrown).phase w = s.phase w from
        phase_execute s g thrown w]
      exact h.finalizing w l' hl
    · cases hl
    · exact (phase_execute s g thrown w).trans (hreturned w)

theorem coupled_start (draws : TaskId → WorkerId) :
    Coupled g lm observers (start g lm draws observers : State n O E) :=
  ⟨.start ⟨draws, rfl⟩, .start rfl, fun _ => rfl, nofun, nofun, fun h => absurd rfl h⟩

/-- The threads and the engine keep together in every execution. -/
theorem coupled_reached (hwaits : Waits g) (hs : Reached g lm observers s) :
    Coupled g lm observers s := by
  refine Inductive.reachable ⟨?_, ?_⟩ hs
  · rintro _ ⟨draws, rfl⟩
    exact coupled_start draws
  · intro s s' h hstep
    exact h.step hwaits hstep

end Coupling

end M3bp.Execution
