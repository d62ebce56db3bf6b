import M3bp.EngineRest
import M3bp.ExecutionLifecycle

/-!
How an execution ends. As long as nothing has been thrown, the engine makes one of its runs,
and an execution that ends without an exception has executed everything. After its end
nothing happens, and what has been initialised has been finalised once.
-/
namespace M3bp.Execution

open Engine SchedulerCalls Transition
open WorkerThread (Answer)

variable {n : ℕ} {O E : Type}

/-- The thread is on its way to the scheduler with an exception. -/
def IsNotifying (phase : WorkerThread.Phase O E TaskId ℕ) : Prop :=
  ∃ eptr rest, phase = .notifying eptr rest

/-- The thread has heard of the cancellation. -/
def IsCancelling : WorkerThread.Phase O E TaskId ℕ → Prop
  | .cancelling _ | .handling _ => True
  | _ => False

/-- Threads leave their task loop because the scheduler is finished or because of an
exception. -/
structure Calm (s : State n O E) : Prop where
  finished : s.threads.isCancelled = false → ∀ w, isOut (s.phase w) = true →
    s.engine.system.scheduler.isFinished = true ∨ IsNotifying (s.phase w)
  cancelled : ∀ w, IsCancelling (s.phase w) → s.threads.isCancelled = true

section Threads

variable {u : WorkerThread.Worker O E TaskId ℕ} {tasks : List ℕ} {ptr : Option E}
  {a : Answer E TaskId} {l : ℕ}

theorem isCancelling_call {pass : WorkerThread.Pass} {callback : WorkerThread.Callback O TaskId ℕ}
    {thrown : Option E} {next : WorkerThread.Phase O E TaskId ℕ} {rest : WorkerThread.Handler ℕ}
    (h : IsCancelling (u.call pass callback thrown next rest).phase) : IsCancelling next := by
  cases thrown with
  | none => exact h
  | some eptr => exact h.elim

/-- A thread that cancels knows of the cancellation, or it has just learnt of it. -/
theorem cancelling_advance (h : IsCancelling u.phase → ptr.isSome = true)
    (hphase : IsCancelling (u.advance tasks ptr a).phase) : (u.notify ptr).isSome = true := by
  cases hcase : u.phase with
  | notifying eptr rest =>
    simp only [WorkerThread.Worker.notify, hcase]
    exact WorkerThread.isSome_notifyException _ _
  | cancelling todo | handling rest =>
    simp only [WorkerThread.Worker.notify, hcase]
    exact h (by rw [hcase]; trivial)
  | leaving =>
    simp only [WorkerThread.Worker.advance, WorkerThread.Worker.notify, hcase] at hphase ⊢
    split at hphase
    · assumption
    · exact hphase.elim
  | initializing todo =>
    cases todo with
    | nil => simp [WorkerThread.Worker.advance, hcase, IsCancelling] at hphase
    | cons observer todo =>
      simp only [WorkerThread.Worker.advance, hcase] at hphase
      cases hthrown : a.thrown <;> simp [hthrown, IsCancelling] at hphase
  | looping =>
    simp only [WorkerThread.Worker.advance, hcase] at hphase
    split at hphase <;> exact hphase.elim
  | taking =>
    simp only [WorkerThread.Worker.advance, hcase] at hphase
    split at hphase <;> exact hphase.elim
  | preparing t | running t =>
    simp only [WorkerThread.Worker.advance, hcase] at hphase
    exact (isCancelling_call hphase).elim
  | completing t => simp [WorkerThread.Worker.advance, hcase, IsCancelling] at hphase
  | finalizing =>
    simp only [WorkerThread.Worker.advance, hcase] at hphase
    split at hphase
    · exact hphase.elim
    · exact (isCancelling_call hphase).elim
  | returned => simp [WorkerThread.Worker.advance, hcase, IsCancelling] at hphase

/-- How a thread comes to be out of its task loop while there is no cancellation. -/
theorem out_advance (hbetween : IsBetween u.phase) (hcalm : (u.notify ptr).isSome = false)
    (hout : isOut (u.advance tasks ptr a).phase = true) :
    IsNotifying (u.advance tasks ptr a).phase ∨ a.isFinished = true ∨
      isOut u.phase = true ∧ ¬ IsNotifying u.phase := by
  have hstays : isOut u.phase = true → ¬ IsNotifying u.phase →
      IsNotifying (u.advance tasks ptr a).phase ∨ a.isFinished = true ∨
        isOut u.phase = true ∧ ¬ IsNotifying u.phase :=
    fun hold hquiet => Or.inr (Or.inr ⟨hold, hquiet⟩)
  cases hcase : u.phase with
  | initializing todo =>
    cases todo with
    | nil => simp [WorkerThread.Worker.advance, hcase, isOut] at hout
    | cons observer todo =>
      left
      simp only [WorkerThread.Worker.advance, hcase] at hout ⊢
      cases hthrown : a.thrown with
      | none => simp [hthrown, isOut] at hout
      | some eptr => exact ⟨eptr, _, rfl⟩
  | looping =>
    right; left
    simp only [WorkerThread.Worker.notify, hcase] at hcalm
    simp only [WorkerThread.Worker.advance, hcase] at hout
    split at hout
    · cases hout
    · next hexit => simpa [Option.isSome_eq_false_iff.mp hcalm] using hexit
  | taking | preparing _ | running _ | completing _ | returned =>
    rw [hcase] at hbetween
    exact hbetween.elim
  | notifying eptr rest =>
    simp only [WorkerThread.Worker.notify, hcase] at hcalm
    rw [WorkerThread.isSome_notifyException] at hcalm
    cases hcalm
  | leaving | cancelling todo | finalizing | handling rest =>
    rw [hcase] at hstays
    refine hstays rfl ?_
    rintro ⟨eptr, rest, heq⟩
    cases heq

end Threads

section Steps

variable {g : LogicalGraph} {lm : LocalityManager} {observers : List O} {s s' : State n O E}
  {w : Fin n} {a : Answer E TaskId} {l : ℕ} {kind : TaskKind}

/-- What a step of an execution is in the engine. -/
theorem step_engine (h : Coupled g lm observers s) (hstep : Step g lm s s') :
    s'.engine = s.engine ∨ Engine.Step g lm s.engine s'.engine ∨
      ∃ l x, (s.engine.locals l).Cleared x ∧ s'.engine = s.engine.setLocal l x ∧
        ((∃ w, Cancels l (s.phase w)) ∨ s.threads.executor.IsCancelling) := by
  have hrunning : ∀ {w t}, s.phase w = .preparing t ∨ s.phase w = .running t →
      (s.engine.workers w).activity = .running t := by
    intro w t hphase
    have hworker := h.workers w
    rcases hphase with hphase | hphase
    · rw [hphase] at hworker
      exact hworker.1
    · rw [hphase] at hworker
      exact hworker
  cases hstep with
  | @take w q t scheduler hphase hpop =>
    have hworker := h.workers w
    rw [hphase] at hworker
    exact Or.inr (Or.inl (.take hworker hpop))
  | @prepare w t op rest e hphase hprogram heffect =>
    have hworker := h.workers w
    rw [hphase] at hworker
    exact Or.inr (Or.inl (.perform hworker.1 hworker.2.1 hprogram heffect))
  | perform hphase hcall hprogram heffect =>
    exact Or.inr (Or.inl (.perform (hrunning (Or.inr hphase)) hcall hprogram heffect))
  | complete hphase hcall hprogram =>
    exact Or.inr (Or.inl (.complete (hrunning (Or.inr hphase)) hcall hprogram))
  | commitDecrement hcall => exact Or.inr (Or.inl (.commitDecrement hcall))
  | drain hcall => exact Or.inr (Or.inl (.drain hcall))
  | finish hphase hcall => exact Or.inr (Or.inl (.finish hcall))
  | @beginSweep w l hphase hin hflag =>
    refine Or.inr (Or.inr ⟨l, { s.engine.locals l with
      threadLocalInitialized := Function.update (s.engine.locals l).threadLocalInitialized w false },
      ⟨rfl, fun v hv => ?_⟩, rfl, Or.inl ⟨w, hphase⟩⟩)
    by_cases hvw : v = w
    · simp [hvw] at hv
    · simpa [hvw] using hv
  | @beginCancel l todo hphase hin hflag =>
    refine Or.inr (Or.inr ⟨l, { s.engine.locals l with globalInitialized := false },
      ⟨rfl, fun _ hv => hv⟩, rfl, Or.inr ?_⟩)
    rw [hphase]
    trivial
  | @endCancel l thrown hin =>
    obtain ⟨todo, hphase⟩ := h.globalFinalizing l hin
    cases thrown with
    | some eptr => exact Or.inl rfl
    | none =>
      refine Or.inr (Or.inr ⟨l, { s.engine.locals l with broadcastInputs := [] },
        ⟨rfl, fun _ hv => hv⟩, rfl, Or.inr ?_⟩)
      rw [hphase]
      trivial
  | _ => exact Or.inl rfl

theorem finished_step (hwaits : Waits g) (h : Coupled g lm observers s) (hstep : Step g lm s s')
    (hfinished : s.engine.system.scheduler.isFinished = true) :
    s'.engine.system.scheduler.isFinished = true := by
  rcases step_engine h hstep with heq | hengine | ⟨l, x, -, heq, -⟩
  · rw [heq]
    exact hfinished
  · exact (cancel_invariant hwaits h.engine).finished_step hfinished hengine
  · rw [heq]
    exact hfinished

/-- A cancelled execution stays so. -/
theorem cancelled_step (hstep : Step g lm s s') (hcancelled : s.threads.isCancelled = true) :
    s'.threads.isCancelled = true := by
  have hadvance : ∀ (w : Fin n) (a : Answer E TaskId), (s.advance g w a).threads.isCancelled = true :=
    fun w a => WorkerThread.isCancelled_advance w a hcancelled
  have hexecute : ∀ thrown, (s.execute g thrown).threads.isCancelled = true :=
    fun thrown => isCancelled_execute thrown hcancelled
  cases hstep with
  | perform | commitDecrement | drain | beginSweep | beginCancel => exact hcancelled
  | join | notify | conclude | skipCancel | endCancel => exact hexecute _
  | _ => exact hadvance _ _

theorem calm_of_advance (hcalm : (s.advance g w a).threads.isCancelled = false) :
    s.threads.isCancelled = false := by
  cases hold : s.threads.isCancelled with
  | false => rfl
  | true =>
    have hset : (s.advance g w a).threads.isCancelled = true :=
      WorkerThread.isCancelled_advance w a hold
    rw [hset] at hcalm
    cases hcalm

/-- Threads that have not moved stay calm. -/
theorem Calm.keep (h : Calm s)
    (hcancelled : s.threads.isCancelled = true → s'.threads.isCancelled = true)
    (hfinished : s.engine.system.scheduler.isFinished = true →
      s'.engine.system.scheduler.isFinished = true)
    (hphase : ∀ w, s'.phase w = s.phase w ∨
      (s'.threads.isCancelled = false → isOut (s'.phase w) = true →
        s'.engine.system.scheduler.isFinished = true ∨ IsNotifying (s'.phase w)) ∧
      (IsCancelling (s'.phase w) → s'.threads.isCancelled = true)) : Calm s' := by
  refine ⟨fun hcalm w hout => ?_, fun w hc => ?_⟩
  · rcases hphase w with hsame | ⟨hself, -⟩
    · rw [hsame] at hout ⊢
      refine (h.finished ?_ w hout).imp_left hfinished
      by_contra hset
      rw [Bool.not_eq_false] at hset
      rw [hcancelled hset] at hcalm
      cases hcalm
    · exact hself hcalm hout
  · rcases hphase w with hsame | ⟨-, hself⟩
    · rw [hsame] at hc
      exact hcancelled (h.cancelled w hc)
    · exact hself hc

/-- A thread that goes on while it is out of its loop, or that has not been there. -/
theorem Calm.advance (h : Calm s) (w : Fin n) (a : Answer E TaskId)
    (hself : (s.advance g w a).threads.isCancelled = false →
      isOut ((s.advance g w a).phase w) = true →
        s.engine.system.scheduler.isFinished = true ∨ IsNotifying ((s.advance g w a).phase w)) :
    Calm (s.advance g w a) := by
  refine h.keep (WorkerThread.isCancelled_advance w a) id fun w' => ?_
  by_cases hw : w' = w
  · subst hw
    refine Or.inr ⟨hself, fun hc => ?_⟩
    rw [phase_advance_self] at hc
    exact cancelling_advance (h.cancelled w') hc
  · exact Or.inl (phase_advance_of_ne s g hw a)

/-- A thread that stays in its loop, or that throws. -/
theorem Calm.advance_loop (h : Calm s) (w : Fin n) (a : Answer E TaskId)
    (hself : isOut ((s.advance g w a).phase w) = false ∨ IsNotifying ((s.advance g w a).phase w)) :
    Calm (s.advance g w a) := by
  refine h.advance w a fun _ hout => ?_
  rcases hself with hloop | hnotifying
  · rw [hloop] at hout
    cases hout
  · exact Or.inr hnotifying

/-- A thread that is sweeping. -/
theorem Calm.advance_sweep (h : Calm s) (w : Fin n) (a : Answer E TaskId)
    (hphase : Cancels l (s.phase w)) : Calm (s.advance g w a) := by
  refine h.advance w a fun hcalm _ => ?_
  have hset : s.threads.isCancelled = true := by
    refine h.cancelled w ?_
    obtain ⟨todo, hcase | hcase⟩ := hphase <;> rw [hcase] <;> trivial
  rw [calm_of_advance hcalm] at hset
  cases hset

theorem Calm.execute (h : Calm s) (thrown : Option E) : Calm (s.execute g thrown) :=
  h.keep (isCancelled_execute thrown) id fun w => Or.inl (phase_execute s g thrown w)

/-- What the threads know does not depend on the locals of the engine and the log. -/
theorem Calm.of_same (h : Calm s) (hthreads : s'.threads = s.threads)
    (hfinished : s.engine.system.scheduler.isFinished = true →
      s'.engine.system.scheduler.isFinished = true) : Calm s' := by
  refine h.keep (by rw [hthreads]; exact id) hfinished fun w => Or.inl ?_
  simp only [State.phase, hthreads]

theorem Calm.step (hwaits : Waits g) (hcoupled : Coupled g lm observers s) (h : Calm s)
    (hstep : Step g lm s s') : Calm s' := by
  have hfinished := finished_step hwaits hcoupled hstep
  cases hstep with
  | @follow w a hphase hanswer =>
    refine h.advance w a fun hcalm hout => ?_
    rw [phase_advance_self] at hout ⊢
    rcases out_advance hphase hcalm hout with hnotifying | hdone | ⟨hold, hquiet⟩
    · exact Or.inr hnotifying
    · exact Or.inl (hanswer ▸ hdone)
    · exact Or.inl ((h.finished (calm_of_advance hcalm) w hold).resolve_right hquiet)
  | @takeNothing w hphase hover =>
    refine h.advance_loop w _ (Or.inl ?_)
    rw [phase_of_taking hphase]
    rfl
  | @take w q t scheduler hphase hpop =>
    refine (h.advance_loop (g := g) w (answer none (some t)) (Or.inl ?_)).of_same rfl hfinished
    rw [phase_of_taking hphase]
    rfl
  | @prepare w t op rest e hphase hprogram heffect =>
    refine (h.advance_loop (g := g) w (answer none none) (Or.inl ?_)).of_same rfl hfinished
    rw [phase_of_preparing hphase]
    rfl
  | perform hphase hcall hprogram heffect => exact h.of_same rfl hfinished
  | @throws w t op rest eptr hphase hcall hprogram hop =>
    refine (h.advance_loop (g := g) w (answer (some eptr) none) (Or.inr ?_)).of_same rfl id
    exact ⟨eptr, _, phase_of_throwing hphase eptr⟩
  | @complete w t hphase hcall hprogram =>
    refine (h.advance_loop (g := g) w (answer none none) (Or.inl ?_)).of_same rfl hfinished
    rw [phase_of_running hphase]
    rfl
  | commitDecrement hcall => exact h.of_same rfl hfinished
  | drain hcall => exact h.of_same rfl hfinished
  | @finish w t hphase hcall =>
    refine (h.advance_loop (g := g) w (answer none none) (Or.inl ?_)).of_same rfl hfinished
    rw [phase_of_completing hphase]
    rfl
  | skipSweep hphase hin hflag => exact h.advance_sweep _ _ hphase
  | beginSweep hphase hin hflag => exact h.of_same rfl id
  | @endSweep w l thrown hin =>
    exact (h.advance_sweep (g := g) w (answer thrown none) (hcoupled.finalizing w l hin)).of_same rfl id
  | join hphase hreturned => exact h.execute none
  | notify hphase => exact h.execute none
  | conclude hphase => exact h.execute none
  | skipCancel hphase hin hflag => exact h.execute none
  | beginCancel hphase hin hflag => exact h.of_same rfl id
  | @endCancel l thrown hin =>
    refine (h.execute (g := g) thrown).of_same rfl ?_
    cases thrown <;> exact id

theorem calm_reached (hwaits : Waits g) (hs : Reached g lm observers s) : Calm s := by
  induction hs with
  | start hinit =>
    obtain ⟨draws, rfl⟩ := hinit
    exact ⟨nofun, nofun⟩
  | next hs hstep ih => exact ih.step hwaits (coupled_reached hwaits hs) hstep

end Steps

/-- How far the executor has got: whether the flag of the logical task `l` is still to be looked
at. -/
def CancelledAt (l : ℕ) (flag : Bool) : WorkerThread.Executor E ℕ → Prop
  | .joining => True
  | .cancelling todo | .notifying _ todo => l ∉ todo → flag = false
  | .finished _ => flag = false

/-- The sweep of the executor, for the flag of one processor. -/
structure Cancelling (s : State n O E) (l : ℕ) : Prop where
  cancelled : CancelledAt l (s.engine.flags l).global s.threads.executor
  during : s.globalFinalizing = some l → (s.engine.flags l).global = false
  alone : n = 0 → (s.engine.flags l).global = false

section Executors

variable {g : LogicalGraph} {lm : LocalityManager} {observers : List O} {s s' : State n O E}
  {w : Fin n} {l l' : ℕ} {kind : TaskKind} {todo : List ℕ} {thrown : Option E}

theorem CancelledAt.mono {flag flag' : Bool} {executor : WorkerThread.Executor E ℕ}
    (h : CancelledAt l flag executor) (hflag : executor ≠ .joining → flag' = true → flag = true) :
    CancelledAt l flag' executor := by
  have hfalse : executor ≠ .joining → flag = false → flag' = false := by
    intro hjoined hold
    cases hnew : flag' with
    | false => rfl
    | true =>
      rw [hflag hjoined hnew] at hold
      cases hold
  cases executor with
  | joining => trivial
  | cancelling todo => exact fun hl => hfalse nofun (h hl)
  | notifying eptr todo => exact fun hl => hfalse nofun (h hl)
  | finished thrown => exact hfalse nofun h

/-- The executor is done with the first of its logical tasks. -/
theorem cancelledAt_of_cons {flag : Bool}
    (h : CancelledAt l flag (.cancelling (l' :: todo) : WorkerThread.Executor E ℕ))
    (hflag : l' = l → flag = false) : l ∉ todo → flag = false := by
  intro hnot
  by_cases hl : l' = l
  · exact hflag hl
  · exact h (by simp [Ne.symm hl, hnot])

theorem execute_of_cancelling (g : LogicalGraph) (thrown : Option E) (hphase : s.threads.executor = .cancelling (l' :: todo)) :
    (s.execute g thrown).threads.executor =
      match thrown with
      | none => .cancelling todo
      | some eptr => .notifying eptr todo := by
  simp only [State.execute, WorkerThread.State.execute, hphase]
  cases thrown <;> rfl

/-- A step that is not the executor's. -/
theorem Cancelling.keep (h : Cancelling s l) (hexecutor : s'.threads.executor = s.threads.executor)
    (hglobal : s'.globalFinalizing = s.globalFinalizing) (hcoupled : Coupled g lm observers s)
    (hflag : (s'.engine.flags l).global = true →
      (s.engine.flags l).global = true ∨ ∃ w, s.phase w ≠ .returned) : Cancelling s' l := by
  have hjoined : s.threads.executor ≠ .joining → (s'.engine.flags l).global = true →
      (s.engine.flags l).global = true := by
    intro hjoined hset
    refine (hflag hset).resolve_right ?_
    rintro ⟨w, hw⟩
    exact hw (hcoupled.executor hjoined w)
  refine ⟨?_, fun hin => ?_, fun hn => ?_⟩
  · rw [hexecutor]
    exact h.cancelled.mono hjoined
  · rw [hglobal] at hin
    obtain ⟨todo, hphase⟩ := hcoupled.globalFinalizing l hin
    have hold := h.during hin
    cases hset : (s'.engine.flags l).global with
    | false => rfl
    | true =>
      rw [hjoined (by simp [hphase]) hset] at hold
      cases hold
  · cases hset : (s'.engine.flags l).global with
    | false => rfl
    | true =>
      rcases hflag hset with hold | ⟨w, -⟩
      · rw [h.alone hn] at hold
        cases hold
      · exact absurd w.isLt (by omega)

/-- When nothing has been thrown, the terminal tasks have lowered the flags. -/
theorem global_of_joined (hwaits : Waits g) (hs : Reached g lm observers s)
    (hkind : g.kindOf l = some kind) (hprocess : kind.isIntermediate = false)
    (hreturned : ∀ w, s.phase w = .returned) (hcalm : s.threads.isCancelled = false) (w : Fin n) :
    (s.engine.flags l).global = false := by
  have hcoupled := coupled_reached hwaits hs
  have hinv := cancel_invariant hwaits hcoupled.engine
  have hfinished : s.engine.system.scheduler.isFinished = true := by
    refine ((calm_reached hwaits hs).finished hcalm w (by rw [hreturned w]; rfl)).resolve_right ?_
    rintro ⟨eptr, rest, hphase⟩
    rw [hreturned w] at hphase
    cases hphase
  have hterminal : .completed (s.engine.ids l).terminal ∈ s.engine.system.log :=
    cancel_fixed_completed hwaits hcoupled.engine hfinished hkind .terminal
  obtain ⟨p, -, hagrees⟩ := accepts_reached hwaits hs hkind hprocess
  refine hagrees.global.ended ((run_inv hinv.run).log.completed_taken _ hterminal) ?_
  intro w' st hst hera
  have hst' := mem_ofTask.mp hst
  obtain ⟨t, c, hrunning, hc, howner, hcalls⟩ :=
    command_of_stage hinv (cancel_onCourse hwaits hcoupled.engine) hst'
  have hcallback : st.callback = .globalFinalize := by
    cases hcase : st.callback <;> rw [hcase] at hera <;> first
      | rfl
      | cases hera
  rw [hcallback] at hcalls
  have ht := terminal_of_calls hinv hc hcalls
  rw [howner] at ht
  refine (hinv.running w' t hrunning).2.1 ?_
  rw [ht]
  exact hterminal

theorem Cancelling.step (hwaits : Waits g) (hs : Reached g lm observers s)
    (hkind : g.kindOf l = some kind) (hprocess : kind.isIntermediate = false) (h : Cancelling s l)
    (hstep : Step g lm s s') : Cancelling s' l := by
  have hcoupled := coupled_reached hwaits hs
  have hl : l ∈ List.range g.tasks.length := List.mem_range.mpr (g.lt_of_kindOf hkind)
  cases hstep with
  | follow | takeNothing | take | throws | complete | commitDecrement | drain | finish | skipSweep
  | endSweep => exact h.keep rfl rfl hcoupled Or.inl
  | @prepare w t op rest e hphase hprogram heffect =>
    exact h.keep rfl rfl hcoupled fun _ => Or.inr ⟨w, by simp [hphase]⟩
  | @perform w t op rest e hphase hcall hprogram heffect =>
    exact h.keep rfl rfl hcoupled fun _ => Or.inr ⟨w, by simp [hphase]⟩
  | @beginSweep w l' hphase hin hflag =>
    refine h.keep rfl rfl hcoupled fun hset => Or.inl ?_
    by_cases heq : l = l'
    · subst heq
      simpa [State.beginSweep, Engine.State.flags, Engine.State.setLocal] using hset
    · rw [show (s.beginSweep w l').engine.flags l = s.engine.flags l from
        flags_setLocal_of_ne s.engine heq _] at hset
      exact hset
  | join hphase hreturned =>
    have hreturned' : ∀ w, s.phase w = .returned :=
      fun w => WorkerThread.isReturned_iff.mp (hreturned w)
    refine ⟨?_, h.during, h.alone⟩
    show CancelledAt l (s.engine.flags l).global (s.execute g none).threads.executor
    simp only [State.execute, WorkerThread.State.execute, hphase, if_pos hreturned]
    split
    · exact fun hnot => absurd hl hnot
    · next hcalm =>
      rcases Nat.eq_zero_or_pos n with hn | hn
      · exact h.alone hn
      · exact global_of_joined hwaits hs hkind hprocess hreturned' (by simpa using hcalm) ⟨0, hn⟩
  | @notify eptr todo hphase =>
    refine ⟨?_, h.during, h.alone⟩
    have hold := h.cancelled
    rw [hphase] at hold
    show CancelledAt l (s.engine.flags l).global (s.execute g none).threads.executor
    simp only [State.execute, WorkerThread.State.execute, hphase]
    exact hold
  | conclude hphase =>
    refine ⟨?_, h.during, h.alone⟩
    have hold := h.cancelled
    rw [hphase] at hold
    show CancelledAt l (s.engine.flags l).global (s.execute g none).threads.executor
    simp only [State.execute, WorkerThread.State.execute, hphase]
    exact hold (by simp)
  | @skipCancel l' todo hphase hin hflag =>
    refine ⟨?_, h.during, h.alone⟩
    have hold := h.cancelled
    rw [hphase] at hold
    show CancelledAt l (s.engine.flags l).global (s.execute g none).threads.executor
    rw [execute_of_cancelling _ _ hphase]
    exact cancelledAt_of_cons hold fun heq => heq ▸ hflag
  | @beginCancel l' todo hphase hin hflag =>
    have hlower : ((s.beginCancel l').engine.flags l).global = true →
        (s.engine.flags l).global = true ∧ l ≠ l' := by
      intro hset
      by_cases heq : l = l'
      · subst heq
        simp [State.beginCancel, Engine.State.flags, Engine.State.setLocal] at hset
      · rw [show (s.beginCancel l').engine.flags l = s.engine.flags l from
          flags_setLocal_of_ne s.engine heq _] at hset
        exact ⟨hset, heq⟩
    refine ⟨h.cancelled.mono fun _ hset => (hlower hset).1, fun hin' => ?_, fun hn => ?_⟩
    · cases hset : ((s.beginCancel l').engine.flags l).global with
      | false => rfl
      | true => exact absurd (Option.some.inj hin').symm (hlower hset).2
    · cases hset : ((s.beginCancel l').engine.flags l).global with
      | false => rfl
      | true =>
        have hold := h.alone hn
        rw [(hlower hset).1] at hold
        cases hold
  | @endCancel l' thrown hin =>
    obtain ⟨todo, hphase⟩ := hcoupled.globalFinalizing l' hin
    have hsame : ((s.execute g thrown).endCancel l' thrown).engine.flags l = s.engine.flags l := by
      cases thrown with
      | some eptr => rfl
      | none =>
        by_cases heq : l = l'
        · subst heq
          simp [State.endCancel, Engine.State.flags, Engine.State.setLocal, State.execute]
        · exact flags_setLocal_of_ne s.engine heq _
    have hold := h.cancelled
    rw [hphase] at hold
    have hdone := cancelledAt_of_cons hold fun heq => h.during (heq ▸ hin)
    refine ⟨?_, fun hin' => ?_, fun hn => ?_⟩
    · rw [hsame]
      show CancelledAt l (s.engine.flags l).global (s.execute g thrown).threads.executor
      rw [execute_of_cancelling _ _ hphase]
      cases thrown with
      | none => exact hdone
      | some eptr => exact hdone
    · cases hin'
    · rw [hsame]
      exact h.alone hn

theorem cancelling_reached (hwaits : Waits g) (hs : Reached g lm observers s)
    (hkind : g.kindOf l = some kind) (hprocess : kind.isIntermediate = false) : Cancelling s l := by
  induction hs with
  | start hinit =>
    obtain ⟨draws, rfl⟩ := hinit
    exact ⟨trivial, nofun, fun _ => (flags_start draws).1⟩
  | next hs hstep ih => exact ih.step hwaits hs hkind hprocess hstep

/-- When the execution has come to its end, the callbacks that finalise have been called as
often as those that initialise have returned, whatever has been thrown. -/
theorem finalized_of_finished (hwaits : Waits g) (hs : Reached g lm observers s)
    (hfinished : s.threads.executor = .finished thrown)
    (hkind : g.kindOf l = some kind) (hprocess : kind.isIntermediate = false) :
    Lifecycle.entered (s.logOf l) .globalFinalize =
        Lifecycle.returned (s.logOf l) .globalInitialize ∧
      ∀ w, Lifecycle.enteredOn (s.logOf l) w .threadLocalFinalize =
          Lifecycle.returnedOn (s.logOf l) w .threadLocalInitialize ∧
        Lifecycle.leftOn (s.logOf l) w .threadLocalFinalize =
          Lifecycle.enteredOn (s.logOf l) w .threadLocalFinalize := by
  have hcoupled := coupled_reached hwaits hs
  have hcancelling := cancelling_reached hwaits hs hkind hprocess
  have hflag := hcancelling.cancelled
  rw [hfinished] at hflag
  obtain ⟨p, hp, hagrees⟩ := accepts_reached hwaits hs hkind hprocess
  have hsound := sound_view hwaits hcoupled (sweeping_reached hwaits hs hkind hprocess) hkind hprocess
  refine Lifecycle.finalized_of_closed hp (hagrees.closed hsound ?_ ?_ hflag)
  · simp [State.view, hfinished]
  · refine decide_eq_false fun hin => ?_
    obtain ⟨todo, hphase⟩ := hcoupled.globalFinalizing l hin
    rw [hfinished] at hphase
    cases hphase

theorem finalized_of_finished_throwing : ∃ s : State 1 ℕ ℕ,
    s.threads.executor = .finished (some 7) ∧
      Lifecycle.entered (s.logOf 0) .globalFinalize =
        Lifecycle.returned (s.logOf 0) .globalInitialize := by
  obtain ⟨s, hs, hfinished, -⟩ := exists_throwing
  exact ⟨s, hfinished, (finalized_of_finished waits_pipe hs hfinished rfl rfl).1⟩

end Executors

section Ends

variable {g : LogicalGraph} {lm : LocalityManager} {observers : List O} {s s' : State n O E}
  {thrown : Option E}

theorem Coupled.heard (h : Coupled g lm observers s) : WorkerThread.Heard s.threads :=
  (WorkerThread.inv_reached h.threads).heard

/-- As long as nothing has been recorded, the engine makes one of its runs. -/
theorem run_of_calm (hwaits : Waits g) (hs : Reached g lm observers s)
    (hcalm : s.threads.isCancelled = false) : Engine.Run g lm s.engine := by
  induction hs with
  | start hinit =>
    obtain ⟨draws, rfl⟩ := hinit
    exact .start ⟨draws, rfl⟩
  | @next s s' hs hstep ih =>
    have hcoupled := coupled_reached hwaits hs
    have hbefore : s.threads.isCancelled = false := by
      cases hold : s.threads.isCancelled with
      | false => rfl
      | true =>
        rw [cancelled_step hstep hold] at hcalm
        cases hcalm
    rcases step_engine hcoupled hstep with heq | hengine | ⟨l, x, -, -, ⟨w, hphase⟩ | hexecutor⟩
    · rw [heq]
      exact ih hbefore
    · exact (ih hbefore).next hengine
    · have hset := (calm_reached hwaits hs).cancelled w
        (by obtain ⟨todo, hcase | hcase⟩ := hphase <;> rw [hcase] <;> trivial)
      rw [hset] at hbefore
      cases hbefore
    · rw [hcoupled.heard.executor hexecutor] at hbefore
      cases hbefore

/-- A worker whose thread is out of its loop makes no call into the scheduler. -/
theorem Coupled.call_of_out (hwaits : Waits g) (h : Coupled g lm observers s) {w : Fin n}
    (hout : isOut (s.phase w) = true) : s.engine.system.calls (some w) = .idle := by
  rcases (expects_of_out hout).mp (h.workers w) with hidle | ⟨t, op, rest, -, hcall, -⟩
  · exact ((cancel_invariant hwaits h.engine).idle w (Or.inl hidle)).2
  · exact hcall

/-- When the executor has come to its end, nothing goes on. -/
theorem Coupled.no_step (hwaits : Waits g) (h : Coupled g lm observers s)
    (hfinished : s.threads.executor = .finished thrown) : ¬ Step g lm s s' := by
  have hreturned : ∀ w, s.phase w = .returned := h.executor (by simp [hfinished])
  have hcalls : ∀ w, s.engine.system.calls (some w) = .idle :=
    fun w => h.call_of_out hwaits (by rw [hreturned w]; rfl)
  have hglobal := h.not_globalFinalizing (by simp [hfinished])
  have hcancels : ∀ w l, ¬ Cancels l (s.phase w) := by
    rintro w l ⟨todo, hphase | hphase⟩ <;> rw [hreturned w] at hphase <;> cases hphase
  intro hstep
  cases hstep with
  | @follow w a hphase hanswer =>
    rw [hreturned w] at hphase
    exact hphase
  | @takeNothing w hphase | @take w q t scheduler hphase | @prepare w t op rest e hphase
  | @perform w t op rest e hphase | @complete w t hphase | @finish w t hphase =>
    rw [hreturned w] at hphase
    cases hphase
  | @throws w t op rest eptr hphase =>
    rw [hreturned w] at hphase
    rcases hphase with hphase | hphase <;> cases hphase
  | @commitDecrement w t draw hcall | @drain w t x rest draw hcall =>
    rw [hcalls w] at hcall
    cases hcall
  | skipSweep hphase | beginSweep hphase => exact hcancels _ _ hphase
  | endSweep hin => exact hcancels _ _ (h.finalizing _ _ hin)
  | join hphase | notify hphase | conclude hphase | skipCancel hphase | beginCancel hphase =>
    rw [hfinished] at hphase
    cases hphase
  | endCancel hin =>
    rw [hglobal] at hin
    cases hin

/-- The executor rethrows what has been recorded. -/
theorem thrown_of_finished (hwaits : Waits g) (hs : Reached g lm observers s)
    (hfinished : s.threads.executor = .finished thrown) : thrown = s.threads.exceptionPtr := by
  cases hs with
  | start hinit =>
    obtain ⟨draws, rfl⟩ := hinit
    cases hfinished
  | @next s _ hs hstep =>
    have hcoupled := coupled_reached hwaits hs
    have hnot : ∀ thrown, s.threads.executor ≠ .finished thrown :=
      fun _ heq => hcoupled.no_step hwaits heq hstep
    have hptr : ∀ thrown, (s.execute g thrown).threads.exceptionPtr = s.threads.exceptionPtr :=
      fun thrown => hcoupled.heard.execute_exceptionPtr _ thrown
    cases hstep with
    | join hphase hreturned =>
      rw [hptr none]
      simp only [State.execute, WorkerThread.State.execute, hphase, if_pos hreturned] at hfinished
      split at hfinished
      · cases hfinished
      · next hcalm =>
        cases hfinished
        exact (Option.not_isSome_iff_eq_none.mp hcalm).symm
    | conclude hphase =>
      rw [hptr none]
      simp only [State.execute, WorkerThread.State.execute, hphase] at hfinished
      cases hfinished
      rfl
    | notify hphase =>
      simp only [State.execute, WorkerThread.State.execute, hphase] at hfinished
      cases hfinished
    | skipCancel hphase hin hflag =>
      rw [execute_of_cancelling _ _ hphase] at hfinished
      cases hfinished
    | @endCancel l thrown' hin =>
      obtain ⟨todo, hphase⟩ := hcoupled.globalFinalizing l hin
      have hexecutor := execute_of_cancelling g thrown' hphase
      rw [show ((s.execute g thrown').endCancel l thrown').threads.executor =
        (s.execute g thrown').threads.executor from rfl, hexecutor] at hfinished
      cases thrown' <;> cases hfinished
    | _ => exact absurd hfinished (hnot thrown)

/-- When an execution has come to its end, it rethrows an exception exactly if one has been
thrown, and one of these. Otherwise everything has been executed. -/
theorem outcome_of_finished (hwaits : Waits g) (hs : Reached g lm observers s)
    (hfinished : s.threads.executor = .finished thrown) :
    (thrown = none ↔ ∀ w, ∀ c ∈ (s.threads.workers w).calls, c.thrown = none) ∧
      (∀ eptr, thrown = some eptr → ∃ w, ∃ c ∈ (s.threads.workers w).calls, c.thrown = some eptr) ∧
      (thrown = none → 0 < n → Engine.Run g lm s.engine ∧ Done g s.engine) := by
  have hcoupled := coupled_reached hwaits hs
  have hheard := hcoupled.heard
  have hreturned : ∀ w, s.phase w = .returned := hcoupled.executor (by simp [hfinished])
  obtain rfl := thrown_of_finished hwaits hs hfinished
  refine ⟨⟨fun hnone w c hc => ?_, fun hquiet => ?_⟩, hheard.caused, fun hnone hn => ?_⟩
  · cases hthrown : c.thrown with
    | none => rfl
    | some eptr =>
      rcases hheard.notified w c hc eptr hthrown with hset | ⟨rest, hphase⟩
      · rw [WorkerThread.State.isCancelled, hnone] at hset
        cases hset
      · exact absurd (hreturned w) (by simp [State.phase, hphase])
  · cases hptr : s.threads.exceptionPtr with
    | none => rfl
    | some eptr =>
      obtain ⟨w, c, hc, hthrown⟩ := hheard.caused eptr hptr
      rw [hquiet w c hc] at hthrown
      cases hthrown
  · have hcalm : s.threads.isCancelled = false := by
      rw [WorkerThread.State.isCancelled, hnone]
      rfl
    have hrun := run_of_calm hwaits hs hcalm
    refine ⟨hrun, done_of_finished hwaits hrun ?_⟩
    have hout : isOut (s.phase ⟨0, hn⟩) = true := by
      rw [hreturned]
      rfl
    refine ((calm_reached hwaits hs).finished hcalm ⟨0, hn⟩ hout).resolve_right ?_
    rintro ⟨eptr, rest, hphase⟩
    rw [hreturned] at hphase
    cases hphase

end Ends

end M3bp.Execution
