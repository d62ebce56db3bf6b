import M3bp.ExecutionOutcome

/-!
An execution never gets stuck. Until it has come to its end, some thread, or the executor, can
go on without a callback having to throw: a cancellation waits for no task, and without one
the engine has a task for a worker that waits.
-/
namespace M3bp.Execution

open Engine SchedulerCalls Transition
open WorkerThread (Answer)

variable {n : ℕ} {O E : Type}

/-- No thread throws in the step from `s` to `s'`. -/
def Quiet (s s' : State n O E) : Prop :=
  ∀ w, ∀ c ∈ (s'.threads.workers w).calls, c ∈ (s.threads.workers w).calls ∨ c.thrown = none

section Quietness

variable {g : LogicalGraph} {s s' : State n O E} {u : WorkerThread.Worker O E TaskId ℕ}
  {tasks : List ℕ} {ptr : Option E} {a : Answer E TaskId}

theorem Quiet.of_same (h : s'.threads.workers = s.threads.workers) : Quiet s s' := by
  intro w c hc
  rw [h] at hc
  exact Or.inl hc

theorem phase_of_quiet (ha : a.thrown = none) (eptr : E) (rest : WorkerThread.Handler ℕ) :
    (u.advance tasks ptr a).phase ≠ .notifying eptr rest := by
  cases hphase : u.phase with
  | initializing todo =>
    cases todo <;> simp [WorkerThread.Worker.advance, hphase, ha]
  | looping | leaving =>
    simp only [WorkerThread.Worker.advance, hphase]
    split <;> simp
  | taking =>
    simp only [WorkerThread.Worker.advance, hphase]
    split <;> simp
  | cancelling todo => cases todo <;> simp [WorkerThread.Worker.advance, hphase, ha]
  | finalizing =>
    simp only [WorkerThread.Worker.advance, hphase, ha]
    split <;> simp
  | handling rest =>
    cases rest with
    | cancelling todo => cases todo <;> simp [WorkerThread.Worker.advance, hphase, ha]
    | finalizing =>
      simp only [WorkerThread.Worker.advance, hphase, ha]
      split <;> simp
    | popping => simp [WorkerThread.Worker.advance, hphase]
  | _ => simp [WorkerThread.Worker.advance, hphase, ha]

theorem thrown_of_quiet (ha : a.thrown = none) {c : WorkerThread.Call O E TaskId ℕ}
    (hc : c ∈ (u.advance tasks ptr a).calls) : c ∈ u.calls ∨ c.thrown = none := by
  rcases (WorkerThread.moves_advance u tasks ptr a).calls_or with ⟨hcalls, -⟩ | ⟨d, hcalls, -, hd, -⟩
  · rw [hcalls] at hc
    exact Or.inl hc
  · rw [hcalls] at hc
    refine (List.mem_append.mp hc).imp_right fun hnew => ?_
    rw [List.mem_singleton.mp hnew]
    cases hthrown : d.thrown with
    | none => rfl
    | some eptr =>
      obtain ⟨rest, hphase⟩ := (hd eptr).mp hthrown
      exact absurd hphase (phase_of_quiet ha eptr rest)

theorem quiet_advance (w : Fin n) (ha : a.thrown = none) : Quiet s (s.advance g w a) := by
  intro w' c hc
  by_cases hw : w' = w
  · subst hw
    simp only [State.advance, WorkerThread.State.advance, Function.update_self] at hc
    exact thrown_of_quiet ha hc
  · simp only [State.advance, WorkerThread.State.advance, Function.update_of_ne hw] at hc
    exact Or.inl hc

theorem quiet_execute (thrown : Option E) : Quiet s (s.execute g thrown) :=
  .of_same (WorkerThread.execute_workers ..)

end Quietness

section Progress

variable {config : Configuration} {fg : FlowGraph} {g : LogicalGraph} {lm : LocalityManager}
  {observers : List O} {s : State n O E} {w : Fin n}

/-- Every operation can be performed. -/
theorem exists_performs (g : LogicalGraph) (s : Engine.State n) (w : Fin n) (op : Op) :
    ∃ e, Performs g s w op e := by
  have hallowed : ∀ c : Command, ∃ option, c.Allows option := by
    intro c
    cases c with
    | oneToOneRun | scatterGatherRun | shufflePartition | valueSort => exact ⟨{}, rfl⟩
    | _ => exact ⟨_, rfl⟩
  have hchoice : ∃ choice : Choice, ∀ c, op = .spawn c → c.Allows choice.option := by
    by_cases hspawn : ∃ c, op = .spawn c
    · obtain ⟨c, rfl⟩ := hspawn
      obtain ⟨option, hoption⟩ := hallowed c
      refine ⟨⟨0, option⟩, fun c' hc => ?_⟩
      cases hc
      exact hoption
    · exact ⟨⟨0, {}⟩, fun c hc => absurd ⟨c, hc⟩ hspawn⟩
  obtain ⟨choice, hoption⟩ := hchoice
  exact ⟨_, .step op choice hoption⟩

/-- A thread that is neither waiting for a task nor through can go on. -/
theorem exists_thread_step (hwaits : Waits g) (h : Coupled g lm observers s)
    (htaking : s.phase w ≠ .taking) (hreturned : s.phase w ≠ .returned) :
    ∃ s', Step g lm s s' ∧ Quiet s s' := by
  have hinv := cancel_invariant hwaits h.engine
  have hworker := h.workers w
  have hfollow : IsBetween (s.phase w) → ∃ s', Step g lm s s' ∧ Quiet s s' := fun hphase =>
    ⟨_, .follow (a := ⟨none, none, s.engine.system.scheduler.isFinished⟩) hphase rfl,
      quiet_advance w rfl⟩
  have hsweep : ∀ l, Cancels l (s.phase w) → ∃ s', Step g lm s s' ∧ Quiet s s' := by
    intro l hphase
    cases hin : s.finalizing w with
    | some l' =>
      have hstep : Step g lm s ((s.advance g w (answer none none)).endSweep w l' none) :=
        .endSweep hin
      exact ⟨_, hstep, quiet_advance (g := g) w rfl⟩
    | none =>
      cases hflag : (s.engine.locals l).threadLocalInitialized w with
      | false => exact ⟨_, .skipSweep hphase hin hflag, quiet_advance w rfl⟩
      | true => exact ⟨_, .beginSweep hphase hin hflag, .of_same rfl⟩
  cases hphase : s.phase w with
  | taking => exact absurd hphase htaking
  | returned => exact absurd hphase hreturned
  | preparing t =>
    rw [hphase] at hworker
    obtain ⟨-, -, c, hprogram⟩ := hworker
    obtain ⟨e, heffect⟩ := exists_performs g s.engine w (.prepare t c)
    exact ⟨_, .prepare hphase hprogram heffect, quiet_advance (g := g) w rfl⟩
  | running t =>
    rw [hphase] at hworker
    have hrunning : (s.engine.workers w).activity = .running t := hworker
    cases hcall : s.engine.system.calls (some w) with
    | idle =>
      cases hprogram : (s.engine.workers w).program with
      | nil => exact ⟨_, .complete hphase hcall hprogram, quiet_advance (g := g) w rfl⟩
      | cons op rest =>
        obtain ⟨e, heffect⟩ := exists_performs g s.engine w op
        exact ⟨_, .perform hphase hcall hprogram heffect, .of_same rfl⟩
    | committing u =>
      have hstep : Step g lm s (s.withEngine
          { s.engine with system := s.engine.system.commitDecrement lm 0 (some w) u }) :=
        .commitDecrement hcall
      exact ⟨_, hstep, .of_same rfl⟩
    | draining u rest => exact absurd hcall ((hinv.running w t hrunning).2.2.1 u rest)
  | completing t =>
    rw [hphase] at hworker
    obtain ⟨-, rest, hcall⟩ := hinv.completing w t hworker
    cases rest with
    | nil => exact ⟨_, .finish hphase hcall, quiet_advance (g := g) w rfl⟩
    | cons u rest =>
      have hstep : Step g lm s (s.withEngine
          { s.engine with system := s.engine.system.drain lm 0 (some w) t u rest }) := .drain hcall
      exact ⟨_, hstep, .of_same rfl⟩
  | cancelling todo =>
    cases todo with
    | nil => exact hfollow (by rw [hphase]; trivial)
    | cons l todo => exact hsweep l ⟨todo, Or.inl hphase⟩
  | handling rest =>
    cases rest with
    | cancelling todo =>
      cases todo with
      | nil => exact hfollow (by rw [hphase]; trivial)
      | cons l todo => exact hsweep l ⟨todo, Or.inr hphase⟩
    | finalizing => exact hfollow (by rw [hphase]; trivial)
    | popping => exact hfollow (by rw [hphase]; trivial)
  | _ => exact hfollow (by rw [hphase]; trivial)

/-- When all threads wait for a task, one of them finds one. -/
theorem exists_take {s : State config.maxConcurrency O E} (hshape : Shape config g)
    (hs : Reached g lm observers s)
    (hlimits : GatesOpen g s.engine) (htaking : ∀ w, s.phase w = .taking)
    (hcalm : s.threads.isCancelled = false)
    (hunfinished : s.engine.system.scheduler.isFinished = false)
    (hn : 0 < config.maxConcurrency) :
    ∃ s', Step g lm s s' ∧ Quiet s s' := by
  have hrun := run_of_calm hshape.waits hs hcalm
  have hinv := run_invariant hshape.waits hrun
  have hnot : ¬ AtRest lm s.engine := by
    intro hrest
    have hfinished := finished_of_rest hshape hrun hn
      (hinv.limit_of_gatesOpen hlimits (run_gateInv hshape.waits hrun)) hrest
    rw [hunfinished] at hfinished
    cases hfinished
  obtain ⟨w, hw⟩ := not_forall.mp hnot
  obtain ⟨-, hpops⟩ := not_or.mp hw
  have hidle := (coupled_reached hshape.waits hs).workers w
  rw [htaking w] at hidle
  obtain ⟨q, t, scheduler, hpop⟩ : ∃ q t scheduler,
      Scheduler.Pops lm w s.engine.system.scheduler q t scheduler := by
    by_contra hnone
    simp only [not_exists] at hnone
    exact hpops ⟨hidle, hnone⟩
  exact ⟨_, .take (htaking w) hpop, quiet_advance (g := g) w rfl⟩

/-- The executor can go on when the threads are through. -/
theorem exists_executor_step (g : LogicalGraph) (lm : LocalityManager)
    (hreturned : ∀ w, s.phase w = .returned) (hfinished : ∀ thrown, s.threads.executor ≠ .finished thrown) :
    ∃ s', Step g lm s s' ∧ Quiet s s' := by
  cases hphase : s.threads.executor with
  | joining =>
    exact ⟨_, .join hphase fun w => WorkerThread.isReturned_iff.mpr (hreturned w),
      quiet_execute none⟩
  | cancelling todo =>
    cases hin : s.globalFinalizing with
    | some l =>
      have hstep : Step g lm s ((s.execute g none).endCancel l none) := .endCancel hin
      exact ⟨_, hstep, quiet_execute (g := g) none⟩
    | none =>
      cases todo with
      | nil => exact ⟨_, .conclude hphase, quiet_execute none⟩
      | cons l todo =>
        cases hflag : (s.engine.locals l).globalInitialized with
        | false => exact ⟨_, .skipCancel hphase hin hflag, quiet_execute none⟩
        | true => exact ⟨_, .beginCancel hphase hin hflag, .of_same rfl⟩
  | notifying eptr todo => exact ⟨_, .notify hphase, quiet_execute none⟩
  | finished thrown => exact absurd hphase (hfinished thrown)

/-- An execution that has not come to its end can go on, and no thread needs to throw. -/
theorem exists_step {s : State config.maxConcurrency O E}
    (hacyclic : Acyclic fg.Feeds) (hmovements : fg.DefinedMovements)
    (hlimits : ∀ v ∈ fg.vertices, UInt64.ofNat v.processor.maxConcurrency ≠ 0)
    (hbuild : GraphBuilder.buildLogicalGraph config fg = .ok g)
    (hs : Reached g lm observers s) (hfinished : ∀ thrown, s.threads.executor ≠ .finished thrown) :
    ∃ s', Step g lm s s' ∧ Quiet s s' := by
  have hshape := shape_of_build hbuild hacyclic hmovements
  have hcoupled := coupled_reached hshape.waits hs
  by_cases hmoving : ∃ w, s.phase w ≠ .taking ∧ s.phase w ≠ .returned
  · obtain ⟨w, htaking, hreturned⟩ := hmoving
    exact exists_thread_step hshape.waits hcoupled htaking hreturned
  have hstill : ∀ w, s.phase w = .taking ∨ s.phase w = .returned := by
    intro w
    by_contra hw
    exact hmoving ⟨w, not_or.mp hw⟩
  by_cases hwaiting : ∃ w, s.phase w = .taking
  · obtain ⟨w, hphase⟩ := hwaiting
    by_cases hover : s.engine.system.scheduler.isFinished = true ∨ s.threads.isCancelled = true
    · exact ⟨_, .takeNothing hphase hover, quiet_advance w rfl⟩
    · obtain ⟨hunfinished, hcalm⟩ := not_or.mp hover
      rw [Bool.not_eq_true] at hunfinished hcalm
      -- a thread that has returned without a cancellation has seen the scheduler finished
      have hall : ∀ w', s.phase w' = .taking := by
        intro w'
        refine (hstill w').resolve_right fun hreturned => ?_
        rcases (calm_reached hshape.waits hs).finished hcalm w' (by rw [hreturned]; rfl) with
          hdone | ⟨eptr, rest, hnotifying⟩
        · rw [hunfinished] at hdone
          cases hdone
        · rw [hreturned] at hnotifying
          cases hnotifying
      exact exists_take hshape hs (gatesOpen_of_limits hbuild hmovements hlimits) hall hcalm
        hunfinished (Nat.lt_of_le_of_lt (Nat.zero_le _) w.isLt)
  · refine exists_executor_step g lm (fun w => (hstill w).resolve_left fun hphase => ?_) hfinished
    exact hwaiting ⟨w, hphase⟩

end Progress

end M3bp.Execution
