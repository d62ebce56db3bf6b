import M3bp.SchedulerRuns
import M3bp.Wakeup

/-!
No wakeup is lost. What a sleeper has checked since it set its flag can turn
against it only by a push, a last decrement or an exception, and each of these
is followed by a notifier that visits the sleeper unless the flag is cleared
first. For a stealable push the notifier may stop early, but only after it has
cleared the flag of a worker that will look through all queues again.
-/
namespace M3bp.Wakeup

open SchedulerCalls Transition State

variable {n : ℕ} {X : Type} [DecidableEq X]

/-- How far a worker is since it set its flag. -/
def Phase.stage : Phase n → ℕ
  | checkFinished => 1
  | checkCancelled => 2
  | againUnstealable => 3
  | againSteal _ => 4
  | waitCheck => 5
  | blocked => 5
  | _ => 0

/-- A thread is in the round of notifications of `cause`. -/
def Phase.Notifying (cause : Cause) : Phase n → Prop
  | load _ c => c = cause
  | clear _ c => c = cause
  | signal _ _ c => c = cause
  | _ => False

/-- Worker `w` is still to be visited in the round of `cause`. -/
def Phase.Visits (w : Fin n) (cause : Cause) : Phase n → Prop
  | load ts c => c = cause ∧ w ∈ ts
  | clear ts c => c = cause ∧ w ∈ ts
  | signal _ ts c => c = cause ∧ c.stopsAtFirst = false ∧ w ∈ ts
  | _ => False

theorem Phase.Visits.notifying {w : Fin n} {cause : Cause} {phase : Phase n}
    (h : phase.Visits w cause) : phase.Notifying cause := by
  cases phase <;> simp_all [Phase.Visits, Phase.Notifying]

/-- The thread is inside `take_runnable_task`. -/
def Phase.Taking : Phase n → Prop
  | free => False
  | load _ _ => False
  | clear _ _ => False
  | signal _ _ _ => False
  | _ => True

/-! The calls of the threads that are inside `take_runnable_task`. -/

theorem not_taking_afterDecrement (lm : LocalityManager) (draw : WorkerId) (v : PhysicalVertex) :
    ¬ (afterDecrement lm draw v : Phase n).Taking := by
  unfold afterDecrement
  split <;> simp [Phase.Taking]

theorem not_taking_afterFinish (scheduler : Scheduler) :
    ¬ (afterFinish scheduler : Phase n).Taking := by
  unfold afterFinish
  split <;> simp [Phase.Taking]

omit [DecidableEq X] in
theorem calls_addDependency (system : System (Thread n X)) (p t : TaskId) :
    (system.addDependency p t).calls = system.calls := by
  unfold System.addDependency
  split <;> rfl

theorem calls_beginCompletion (system : System (Thread n X)) {th th' : Thread n X} (t : TaskId)
    (hne : th' ≠ th) : (system.beginCompletion th t).calls th' = system.calls th' := by
  unfold System.beginCompletion
  split <;> simp [hne]

theorem calls_decrement (lm : LocalityManager) (draw : WorkerId) (system : System (Thread n X))
    {th th' : Thread n X} (t : TaskId) (next : Call) (events : List Event) (hne : th' ≠ th) :
    (system.decrement lm draw th t next events).calls th' = system.calls th' := by
  unfold System.decrement
  split <;> simp [hne]

theorem CallStep.taking_idle {lm : LocalityManager} {s t : State n X} (h : CallStep lm s t)
    (ih : ∀ th, (s.phase th).Taking → s.system.calls th = .idle) (th : Thread n X)
    (htaking : (t.phase th).Taking) : t.system.calls th = .idle := by
  cases h with
  | createPhysicalTask => exact ih th htaking
  | addDependency _ p t _ _ _ _ _ =>
    rw [calls_addDependency]
    exact ih th htaking
  | commitTask actor t hphase =>
    by_cases hth : th = actor
    · simp [hth, hphase, Phase.Taking] at htaking
    · simpa [System.beginCommit, hth] using ih th htaking
  | commitDecrement actor t draw v hphase =>
    by_cases hth : th = actor
    · simp [hth, not_taking_afterDecrement] at htaking
    · simp only [setPhase_phase, hth, if_false] at htaking
      simpa [System.commitDecrement, calls_decrement _ _ _ _ _ _ hth] using ih th htaking
  | notifyTaskCompletion actor t hphase =>
    by_cases hth : th = actor
    · simp [hth, hphase, Phase.Taking] at htaking
    · simpa [calls_beginCompletion _ _ hth] using ih th htaking
  | drain actor t x rest draw v hphase =>
    by_cases hth : th = actor
    · simp [hth, not_taking_afterDecrement] at htaking
    · simp only [setPhase_phase, hth, if_false] at htaking
      simpa [System.drain, calls_decrement _ _ _ _ _ _ hth] using ih th htaking
  | finishCompletion actor t hphase =>
    by_cases hth : th = actor
    · simp [hth, not_taking_afterFinish] at htaking
    · simp only [setPhase_phase, hth, if_false] at htaking
      simpa [System.finishCompletion, hth] using ih th htaking
  | notifyException actor hphase =>
    by_cases hth : th = actor
    · simp [hth, Phase.Taking] at htaking
    · simpa [hth] using ih th (by simpa [hth] using htaking)

theorem taking_idle {lm : LocalityManager} {s : State n X} (hrun : Run lm s) :
    ∀ th, (s.phase th).Taking → s.system.calls th = .idle := by
  refine Inductive.reachable (P := fun s => ∀ th, (s.phase th).Taking →
    s.system.calls th = .idle) ⟨?_, ?_⟩ hrun
  · rintro s rfl th -
    rfl
  · intro s t ih hstep th
    rcases hstep with h | h | h
    · cases h <;> grind [Phase.Taking, wake_phase, setPhase_phase, setFlag_phase, wake_system,
        setPhase_system, setFlag_system]
    · cases h <;> grind [Phase.Taking, setPhase_phase, setFlag_phase, setPhase_system,
        setFlag_system, System.take]
    · exact h.taking_idle ih th

/-! The scheduler under the phases runs as `SchedulerCalls` describes. -/

theorem TakeStep.pops {lm : LocalityManager} {s t : State n X} (h : TakeStep lm s t) :
    t.system = s.system ∨ ∃ w q task scheduler, (s.phase (.inl w)).Taking ∧
      Scheduler.Pops lm w s.system.scheduler q task scheduler ∧
      t.system = s.system.take scheduler task := by
  cases h with
  | foundFirst w q task scheduler hphase =>
    right
    refine ⟨w, q, task, scheduler, ?_, ?_, rfl⟩
    · rcases hphase with ⟨h, -⟩ | ⟨h, -⟩ | ⟨i, -, h, -⟩ <;> simp [h, Phase.Taking]
    · rcases hphase with ⟨-, rfl, hpop⟩ | ⟨-, rfl, hpop⟩ | ⟨i, hi, -, rfl, hpop⟩
      · exact .unstealable hpop
      · exact .localStealable hpop
      · exact .steal (Nat.mod_lt _ (by omega)) hpop
  | foundAgain w q task scheduler hphase hpop =>
    right
    refine ⟨w, q, task, scheduler, ?_, ?_, rfl⟩
    · rcases hphase with ⟨h, -⟩ | ⟨i, -, h, -⟩ <;> simp [h, Phase.Taking]
    · rcases hphase with ⟨-, rfl⟩ | ⟨i, hi, -, rfl⟩
      · exact .unstealable hpop
      · exact .steal (Nat.mod_lt _ (by omega)) hpop
  | _ => exact Or.inl rfl

theorem CallStep.system {lm : LocalityManager} {s t : State n X} (h : CallStep lm s t) :
    t.system = s.system ∨ SchedulerCalls.Step lm s.system t.system := by
  cases h with
  | createPhysicalTask th option _ hidle => exact Or.inr (.createPhysicalTask _ th option hidle)
  | addDependency th p t _ hidle _ hcreated hunreleased =>
    exact Or.inr (.addDependency _ th p t hidle hcreated hunreleased)
  | commitTask th t _ hidle hcreated honce =>
    exact Or.inr (.commitTask _ th t hidle hcreated honce)
  | commitDecrement th t draw _ _ hcall => exact Or.inr (.commitDecrement _ th t draw hcall)
  | notifyTaskCompletion th t _ hidle _ htaken honce =>
    exact Or.inr (.notifyTaskCompletion _ th t hidle htaken honce)
  | drain th t x rest draw _ _ hcall => exact Or.inr (.drain _ th t x rest draw hcall)
  | finishCompletion th t _ hcall => exact Or.inr (.finishCompletion _ th t hcall)
  | notifyException => exact Or.inl rfl

theorem run_system {lm : LocalityManager} {s : State n X} (hrun : Run lm s) :
    SchedulerCalls.Run lm s.system := by
  refine Reachable.map State.system ?_ ?_ hrun
  · rintro s rfl
    exact .start rfl
  · intro s t hs hstep
    rcases hstep with h | h | h
    · left
      cases h <;> simp
    · rcases h.pops with heq | ⟨w, q, task, scheduler, htaking, hpop, heq⟩
      · exact Or.inl heq
      · rw [heq]
        exact Or.inr (.takeRunnableTask s.system (.inl w) w q task scheduler
          (taking_idle hs (.inl w) htaking) hpop)
    · exact h.system

/-! What one step does to a flag, to a round of notifications and to the
position of a worker. -/

/-- Only its owner sets a flag, right before the first check. -/
theorem Step.sleeping {lm : LocalityManager} {s t : State n X} (h : Step lm s t) {w : Fin n}
    (hflag : t.isSleeping w = true) :
    s.isSleeping w = true ∨ t.phase (.inl w) = .checkFinished := by
  rcases h with h | h | h <;> cases h <;> grind [setFlag_isSleeping, setPhase_phase,
    setPhase_isSleeping, wake_isSleeping, setFlag_phase]

/-- A round of notifications comes to `w` unless the flag of `w` is down. -/
theorem Step.visits {lm : LocalityManager} {s t : State n X} (h : Step lm s t) {w : Fin n}
    {cause : Cause} {th : Thread n X} (hvisits : (s.phase th).Visits w cause)
    (hcause : cause.stopsAtFirst = false) (hflag : t.isSleeping w = true) :
    (t.phase th).Visits w cause := by
  rcases h with h | h | h
  · cases h with
    | signal actor v ts c hphase =>
      by_cases hth : th = actor
      · simp only [hth, hphase, Phase.Visits] at hvisits
        have hc : c.stopsAtFirst = false := hvisits.2.1
        simpa [hth, hc, Phase.Visits] using ⟨hvisits.1, hvisits.2.2⟩
      · rcases wake_phase s v th with heq | ⟨rfl, hblocked, -⟩
        · simpa [hth, heq] using hvisits
        · simp [hblocked, Phase.Visits] at hvisits
    | _ => grind [Phase.Visits, setPhase_phase, setFlag_isSleeping, setFlag_phase,
        setPhase_isSleeping]
  · cases h <;> grind [Phase.Visits, setPhase_phase, setFlag_phase]
  · cases h <;> grind [Phase.Visits, setPhase_phase]

/-- A worker gets further only by a check that finds nothing. -/
theorem Step.stage {lm : LocalityManager} {s t : State n X} (h : Step lm s t) (w : Fin n) :
    (t.phase (.inl w)).stage ≤ (s.phase (.inl w)).stage ∨
    (t.phase (.inl w)).stage = 1 ∨
    ((s.phase (.inl w)).stage = 1 ∧ (t.phase (.inl w)).stage = 2 ∧
      t.system.scheduler.unfinishedTaskCount ≠ 0) ∨
    ((s.phase (.inl w)).stage = 2 ∧ (t.phase (.inl w)).stage = 3 ∧ t.cancelled = false) ∨
    ((s.phase (.inl w)).stage = 3 ∧ (t.phase (.inl w)).stage = 4 ∧
      t.system.scheduler.queues (.unstealable w) = []) ∨
    ((s.phase (.inl w)).stage = 4 ∧ (t.phase (.inl w)).stage = 5) := by
  rcases h with h | h | h
  · cases h <;> grind [Phase.stage, setPhase_phase, setFlag_phase, wake_phase]
  · cases h <;> grind [Phase.stage, setPhase_phase, setFlag_phase, setPhase_system,
      setPhase_cancelled, Scheduler.isFinished]
  · cases h <;> grind [Phase.stage, setPhase_phase, afterDecrement, afterFinish]

/-! What the operations do to the queues and to the count of unfinished tasks. -/

omit [DecidableEq X] in
theorem scheduler_addDependency (system : System (Thread n X)) (p t : TaskId) :
    (system.addDependency p t).scheduler.queues = system.scheduler.queues ∧
    (system.addDependency p t).scheduler.unfinishedTaskCount =
      system.scheduler.unfinishedTaskCount := by
  unfold System.addDependency Scheduler.addDependency
  split
  · exact ⟨rfl, rfl⟩
  · next scheduler heq =>
    split at heq
    · cases heq
      exact ⟨rfl, rfl⟩
    · split at heq
      · cases heq
      · cases heq
        exact ⟨rfl, rfl⟩

theorem scheduler_beginCompletion (system : System (Thread n X)) (th : Thread n X) (t : TaskId) :
    (system.beginCompletion th t).scheduler.queues = system.scheduler.queues ∧
    (system.beginCompletion th t).scheduler.unfinishedTaskCount =
      system.scheduler.unfinishedTaskCount := by
  unfold System.beginCompletion Scheduler.eraseVertex
  split
  · exact ⟨rfl, rfl⟩
  · next scheduler successors heq =>
    split at heq
    · cases heq
    · cases heq
      exact ⟨rfl, rfl⟩

theorem unfinished_decrement (lm : LocalityManager) (draw : WorkerId)
    (system : System (Thread n X)) (th : Thread n X) (t : TaskId) (next : Call)
    (events : List Event) :
    (system.decrement lm draw th t next events).scheduler.unfinishedTaskCount =
      system.scheduler.unfinishedTaskCount := by
  unfold System.decrement Scheduler.decrementPredecessorCount
  split
  · rfl
  · next scheduler queue heq =>
    split at heq
    · cases heq
    · split at heq
      · split at heq
        · cases heq
        · cases heq
          rfl
      · cases heq
        rfl

/-- A queue that a decrement fills is the one whose push is notified next. -/
theorem queues_decrement {lm : LocalityManager} {draw : WorkerId} {system : System (Thread n X)}
    (th : Thread n X) {t : TaskId} (next : Call) (events : List Event) {v : PhysicalVertex}
    (hv : system.scheduler.vertices t = some v) {q : QueueRef}
    (hq : (system.decrement lm draw th t next events).scheduler.queues q ≠ []) :
    system.scheduler.queues q ≠ [] ∨
      q = Scheduler.targetQueue lm draw v.localityOption ∧
      (afterDecrement lm draw v : Phase n) =
        .load (pushTargets n draw v.localityOption) (.pushed q) := by
  unfold System.decrement at hq
  by_cases hone : v.predecessorCount = 1
  · cases htask : v.physicalTask with
    | none => exact Or.inl (by simpa [Scheduler.decrementPredecessorCount, hv, hone, htask] using hq)
    | some task =>
      rw [Scheduler.decrementPredecessorCount_push hv hone htask] at hq
      by_cases htarget : q = Scheduler.targetQueue lm draw v.localityOption
      · exact Or.inr ⟨htarget, by simp [afterDecrement, hone, htarget]⟩
      · left
        simpa [Scheduler.pushBack, Scheduler.setQueue, Scheduler.setVertex, htarget] using hq
  · rw [Scheduler.decrementPredecessorCount_keep hv hone] at hq
    exact Or.inl hq

theorem queues_of_pops {lm : LocalityManager} {w : WorkerId} {scheduler scheduler' : Scheduler}
    {q q' : QueueRef} {task : TaskId} (h : Scheduler.Pops lm w scheduler q' task scheduler')
    (hq : scheduler'.queues q ≠ []) : scheduler.queues q ≠ [] := by
  obtain ⟨rest, hperm, rfl⟩ := h.perm
  by_cases hqq : q = q'
  · intro hnil
    rw [← hqq, hnil] at hperm
    exact List.cons_ne_nil _ _ hperm.nil_eq.symm
  · simpa [Scheduler.setQueue, hqq] using hq

/-- A queue holds something after a step only if it did before, or its push is
to be notified next. -/
theorem Step.queues {lm : LocalityManager} {s t : State n X} (h : Step lm s t) {q : QueueRef}
    (hq : t.system.scheduler.queues q ≠ []) :
    s.system.scheduler.queues q ≠ [] ∨ ∃ th draw option,
      q = Scheduler.targetQueue lm draw option ∧
      t.phase th = .load (pushTargets n draw option) (.pushed q) := by
  rcases h with h | h | h
  · left
    cases h <;> simpa using hq
  · left
    rcases h.pops with heq | ⟨w, q', task, scheduler, -, hpop, heq⟩
    · rwa [heq] at hq
    · rw [heq] at hq
      exact queues_of_pops hpop hq
  · cases h with
    | createPhysicalTask => exact Or.inl hq
    | addDependency _ p t => exact Or.inl (by rwa [(scheduler_addDependency _ p t).1] at hq)
    | commitTask => exact Or.inl hq
    | commitDecrement th t draw v _ _ _ hv =>
      rcases queues_decrement th .idle [.committed t] hv hq with hold | ⟨htarget, hphase⟩
      · exact Or.inl hold
      · exact Or.inr ⟨th, draw, v.localityOption, htarget, by simp [hphase]⟩
    | notifyTaskCompletion th t =>
      exact Or.inl (by rwa [(scheduler_beginCompletion _ th t).1] at hq)
    | drain th t x rest draw v _ _ _ hv =>
      rcases queues_decrement th (.draining t rest) [] hv hq with hold | ⟨htarget, hphase⟩
      · exact Or.inl hold
      · exact Or.inr ⟨th, draw, v.localityOption, htarget, by simp [hphase]⟩
    | finishCompletion => exact Or.inl hq
    | notifyException => exact Or.inl hq

/-- The count comes to zero only by a decrement that is notified next. -/
theorem Step.unfinished {lm : LocalityManager} {s t : State n X} (h : Step lm s t)
    (hpos : 0 ≤ s.system.scheduler.unfinishedTaskCount)
    (hzero : t.system.scheduler.unfinishedTaskCount = 0) :
    s.system.scheduler.unfinishedTaskCount = 0 ∨
      ∃ th, t.phase th = .load (List.finRange n) .finished := by
  rcases h with h | h | h
  · left
    cases h <;> simpa using hzero
  · left
    rcases h.pops with heq | ⟨w, q', task, scheduler, -, hpop, heq⟩
    · rwa [heq] at hzero
    · obtain ⟨rest, -, rfl⟩ := hpop.perm
      rw [heq] at hzero
      exact hzero
  · cases h with
    | createPhysicalTask => exact Or.inl hzero
    | addDependency _ p t => exact Or.inl (by rwa [(scheduler_addDependency _ p t).2] at hzero)
    | commitTask =>
      have hsum : s.system.scheduler.unfinishedTaskCount + 1 = 0 := hzero
      omega
    | commitDecrement th t draw =>
      exact Or.inl (by rwa [← unfinished_decrement lm draw s.system th t .idle [.committed t]])
    | notifyTaskCompletion th t =>
      exact Or.inl (by rwa [(scheduler_beginCompletion _ th t).2] at hzero)
    | drain th t x rest draw =>
      exact Or.inl (by rwa [← unfinished_decrement lm draw s.system th x (.draining t rest) []])
    | finishCompletion th t =>
      have hfinished : s.system.scheduler.decrementUnfinished.isFinished = true := by
        simpa [Scheduler.isFinished, System.finishCompletion] using hzero
      exact Or.inr ⟨th, by simp [afterFinish, hfinished]⟩
    | notifyException => exact Or.inl hzero

theorem Step.cancelled {lm : LocalityManager} {s t : State n X} (h : Step lm s t)
    (hcancelled : t.cancelled = true) :
    s.cancelled = true ∨ ∃ th, t.phase th = .load (List.finRange n) .exception := by
  rcases h with h | h | h
  · left
    cases h <;> simpa using hcancelled
  · left
    cases h <;> simpa using hcancelled
  · cases h with
    | notifyException th => exact Or.inr ⟨th, by simp⟩
    | _ => exact Or.inl hcancelled

/-! A sleeper that would have to wake up is still to be visited. -/

/-- If a worker passes `level` only while `P` is false, and `P` becomes
true only together with a round of notifications that visits the worker, then a
sleeping worker past `level` for which it is true is still to be visited. -/
theorem visited_of_bad {lm : LocalityManager} {w : Fin n} {level : ℕ} {cause : Cause}
    {P : State n X → Prop} (hcause : cause.stopsAtFirst = false) (hlevel : 1 < level)
    (hpass : ∀ s t, Step lm s t → (s.phase (.inl w)).stage < level →
      level ≤ (t.phase (.inl w)).stage → ¬ P t)
    (hP : ∀ s t, Run lm s → Step lm s t → P t →
      P s ∨ ∃ th, (t.phase th).Visits w cause)
    {s : State n X} (hrun : Run lm s) (hflag : s.isSleeping w = true)
    (hstage : level ≤ (s.phase (.inl w)).stage) (hs : P s) :
    ∃ th, (s.phase th).Visits w cause := by
  induction hrun with
  | start h =>
    subst h
    simp [State.initial] at hflag
  | @next s t hrun hstep ih =>
    have hold : s.isSleeping w = true := by
      rcases hstep.sleeping hflag with h | h
      · exact h
      · rw [h] at hstage
        simp only [Phase.stage] at hstage
        omega
    rcases hP s t hrun hstep hs with hbefore | hnew
    · by_cases hpast : level ≤ (s.phase (.inl w)).stage
      · obtain ⟨th, hth⟩ := ih hold hpast hbefore
        exact ⟨th, hstep.visits hth hcause hflag⟩
      · exact absurd hs (hpass s t hstep (by omega) hstage)
    · exact hnew

variable {lm : LocalityManager} {s : State n X} {w : Fin n}

theorem visited_of_unstealable (hrun : Run lm s) (hflag : s.isSleeping w = true)
    (hstage : 4 ≤ (s.phase (.inl w)).stage)
    (hqueue : s.system.scheduler.queues (.unstealable w) ≠ []) :
    ∃ th, (s.phase th).Visits w (.pushed (.unstealable w)) := by
  refine visited_of_bad (P := fun s => s.system.scheduler.queues (.unstealable w) ≠ []) rfl (by omega) ?_ ?_
    hrun hflag hstage hqueue
  · intro s t hstep hbefore hafter
    rcases hstep.stage w with h | h | h | h | h | h <;> first | omega | exact not_not.mpr h.2.2
  · intro s t _ hstep hq
    rcases hstep.queues hq with h | ⟨th, draw, option, htarget, hphase⟩
    · exact Or.inl h
    · refine Or.inr ⟨th, ?_⟩
      have hstealable : option.isStealable = false := by
        by_contra hs
        rw [Bool.not_eq_false] at hs
        simp [Scheduler.targetQueue, hs] at htarget
      have hworker : option.recommendedWorker = w := by
        simpa [Scheduler.targetQueue, hstealable, eq_comm] using htarget
      simp [hphase, Phase.Visits, pushTargets, hstealable, hworker]

theorem visited_of_finished [Fintype X] (hrun : Run lm s) (hflag : s.isSleeping w = true)
    (hstage : 2 ≤ (s.phase (.inl w)).stage)
    (hzero : s.system.scheduler.unfinishedTaskCount = 0) :
    ∃ th, (s.phase th).Visits w .finished := by
  refine visited_of_bad (P := fun s => s.system.scheduler.unfinishedTaskCount = 0) rfl (by omega) ?_ ?_
    hrun hflag hstage hzero
  · intro s t hstep hbefore hafter
    rcases hstep.stage w with h | h | h | h | h | h <;> omega
  · intro s t hs hstep hzero
    have hpos : 0 ≤ s.system.scheduler.unfinishedTaskCount := by
      rw [(run_inv (run_system hs)).count.unfinished_eq]
      exact Int.natCast_nonneg _
    rcases hstep.unfinished hpos hzero with h | ⟨th, hphase⟩
    · exact Or.inl h
    · exact Or.inr ⟨th, by simp [hphase, Phase.Visits]⟩

theorem visited_of_cancelled (hrun : Run lm s) (hflag : s.isSleeping w = true)
    (hstage : 3 ≤ (s.phase (.inl w)).stage) (hcancelled : s.cancelled = true) :
    ∃ th, (s.phase th).Visits w .exception := by
  refine visited_of_bad (P := fun s => s.cancelled = true) rfl (by omega) ?_ ?_
    hrun hflag hstage hcancelled
  · intro s t hstep hbefore hafter
    rcases hstep.stage w with h | h | h | h | h | h <;> first | omega | simp [h.2.2]
  · intro s t _ hstep hc
    rcases hstep.cancelled hc with h | ⟨th, hphase⟩
    · exact Or.inl h
    · exact Or.inr ⟨th, by simp [hphase, Phase.Visits]⟩

/-! Stealable tasks. -/

/-- Worker `w` sleeps or is about to, and has seen the queue of node `k` empty
since it set its flag. -/
def Passed (lm : LocalityManager) (s : State n X) (w : Fin n) (k : NodeId) : Prop :=
  s.isSleeping w = true ∧
    ((∃ i, s.phase (.inl w) = .againSteal i ∧ ∃ j < i, stealQueue lm w j = .stealable k) ∨
      s.phase (.inl w) = .waitCheck ∨ s.phase (.inl w) = .blocked)

/-- Every worker is still to be visited for a push to `k`. -/
def VisitsAll (phase : Phase n) (k : NodeId) : Prop :=
  ∃ ts, (phase = .load ts (.pushed (.stealable k)) ∨ phase = .clear ts (.pushed (.stealable k))) ∧
    ∀ w, w ∈ ts

/-- A loop over `(a + j) % m` that makes `m` rounds comes to every residue. -/
theorem exists_add_mod_eq (a : ℕ) {c m : ℕ} (hc : c < m) : ∃ j < m, (a + j) % m = c := by
  have ha : a % m < m := Nat.mod_lt _ (by omega)
  by_cases hle : a % m ≤ c
  · refine ⟨c - a % m, by omega, ?_⟩
    rw [← Nat.mod_add_mod, Nat.add_sub_cancel' hle, Nat.mod_eq_of_lt hc]
  · refine ⟨m - a % m + c, by omega, ?_⟩
    rw [← Nat.mod_add_mod, show a % m + (m - a % m + c) = m + c by omega, Nat.add_mod_left,
      Nat.mod_eq_of_lt hc]

/-- The loop of `steal_task` tries the queue of every node. -/
theorem exists_stealQueue (lm : LocalityManager) (w : Fin n) {k : NodeId} (hk : k < lm.nodeCount) :
    ∃ j < lm.nodeCount, stealQueue lm w j = .stealable k := by
  obtain ⟨j, hj, heq⟩ := exists_add_mod_eq (lm.threadMapping w) hk
  exact ⟨j, hj, by rw [stealQueue, heq]⟩

/-- The round after a stealable push visits every synchronizer. -/
theorem mem_pushTargets (draw : WorkerId) {option : LocalityOption}
    (hstealable : option.isStealable = true) (w : Fin n) : w ∈ pushTargets n draw option := by
  obtain ⟨j, hj, heq⟩ := exists_add_mod_eq (Scheduler.placedWorker draw option) w.isLt
  simp only [pushTargets, hstealable, if_true, List.mem_map, List.mem_finRange, true_and]
  exact ⟨⟨j, hj⟩, Fin.ext heq⟩

/-- A queue of a node outside the range is never filled. -/
theorem node_lt_of_queue (hrun : Run lm s) {k : NodeId}
    (hq : s.system.scheduler.queues (.stealable k) ≠ []) : k < lm.nodeCount := by
  induction hrun with
  | start h =>
    subst h
    simp [State.initial, System.initial, Scheduler.empty] at hq
  | next _ hstep ih =>
    rcases hstep.queues hq with h | ⟨th, draw, option, htarget, -⟩
    · exact ih h
    · unfold Scheduler.targetQueue at htarget
      split at htarget
      · cases htarget
        exact lm.mapped _
      · cases htarget

/-- A worker passes a node only when it sees the node's queue empty. -/
theorem Step.passed {t : State n X} (h : Step lm s t) {k : NodeId}
    (hq : t.system.scheduler.queues (.stealable k) ≠ []) (hk : k < lm.nodeCount)
    (hpassed : Passed lm t w k) : Passed lm s w k := by
  obtain ⟨j, hj, hsteal⟩ := exists_stealQueue lm w hk
  obtain ⟨hflag, hphase⟩ := hpassed
  have hold : s.isSleeping w = true := by
    rcases h.sleeping hflag with h | h
    · exact h
    · simp [h] at hphase
  refine ⟨hold, ?_⟩
  rcases h with h | h | h
  · cases h <;> grind [setPhase_phase, setFlag_phase, wake_phase]
  · cases h with
    | againSteal v i hi hbefore hempty =>
      by_cases hv : w = v
      · subst hv
        obtain ⟨i', hi', j', hj', heq⟩ : ∃ i', Phase.againSteal (n := n) (i + 1) = .againSteal i' ∧
            ∃ j < i', stealQueue lm w j = .stealable k := by simpa using hphase
        cases hi'
        refine Or.inl ⟨i, hbefore, j', ?_, heq⟩
        by_contra hge
        have hij : j' = i := by omega
        rw [← hij, heq] at hempty
        exact hq hempty
      · simpa [hv] using hphase
    | wait v hbefore =>
      by_cases hv : w = v
      · subst hv
        exact Or.inl ⟨_, hbefore, j, hj, hsteal⟩
      · simpa [hv] using hphase
    | _ => grind [setPhase_phase, setFlag_phase]
  · cases h <;> grind [setPhase_phase, afterDecrement, afterFinish]

/-- A round after a stealable push leaves out no worker, unless the flag of
some worker is down. -/
theorem Step.visitsAll {t : State n X} (h : Step lm s t) {k : NodeId} {th : Thread n X}
    (hvisits : VisitsAll (s.phase th) k) (hpos : 0 < n) :
    VisitsAll (t.phase th) k ∨ ∃ w, ¬ Passed lm t w k := by
  obtain ⟨ts, hphase, hall⟩ := hvisits
  have hne : ts ≠ [] := List.ne_nil_of_mem (hall ⟨0, hpos⟩)
  by_cases hsame : t.phase th = s.phase th
  · exact Or.inl ⟨ts, by rwa [hsame], hall⟩
  · rcases h with h | h | h
    · cases h with
      | done => grind [setPhase_phase]
      | awake _ v _ _ _ hflag => exact Or.inr ⟨v, fun hp => by simp [Passed, hflag] at hp⟩
      | asleep => grind [setPhase_phase, VisitsAll]
      | tooLate _ v _ _ _ hflag => exact Or.inr ⟨v, fun hp => by simp [Passed, hflag] at hp⟩
      | clear _ v => exact Or.inr ⟨v, fun hp => by simp [Passed] at hp⟩
      | signal => grind [setPhase_phase, wake_phase]
    · cases h <;> grind [setPhase_phase, setFlag_phase]
    · cases h <;> grind [setPhase_phase]

theorem queue_passed_or_visited (hrun : Run lm s) (hpos : 0 < n) {k : NodeId}
    (hq : s.system.scheduler.queues (.stealable k) ≠ []) :
    (∃ w, ¬ Passed lm s w k) ∨ ∃ th, VisitsAll (s.phase th) k := by
  have hk := node_lt_of_queue hrun hq
  induction hrun with
  | start h =>
    subst h
    simp [State.initial, System.initial, Scheduler.empty] at hq
  | @next s t _ hstep ih =>
    rcases hstep.queues hq with hold | ⟨th, draw, option, htarget, hphase⟩
    · rcases ih hold with ⟨w, hw⟩ | ⟨th, hth⟩
      · exact Or.inl ⟨w, fun hp => hw (hstep.passed hq hk hp)⟩
      · rcases hstep.visitsAll hth hpos with h | h
        · exact Or.inr ⟨th, h⟩
        · exact Or.inl h
    · have hstealable : option.isStealable = true := by
        by_contra hs
        simp [Scheduler.targetQueue, hs] at htarget
      exact Or.inr ⟨th, _, Or.inl hphase, mem_pushTargets draw hstealable⟩

/-- A blocked worker whose flag is up has nothing to do: its own queue is empty,
tasks are unfinished and nothing is cancelled, up to a round of notifications
that is still going on. And while some queue holds a task, the workers are not
all blocked outside a decrement. -/
theorem no_lost_wakeup [Fintype X] (hrun : Run lm s) :
    (∀ w, s.phase (.inl w) = .blocked → s.isSleeping w = true →
      (s.system.scheduler.queues (.unstealable w) = [] ∨
        ∃ th, (s.phase th).Notifying (.pushed (.unstealable w))) ∧
      (s.system.scheduler.unfinishedTaskCount ≠ 0 ∨ ∃ th, (s.phase th).Notifying .finished) ∧
      (s.cancelled = false ∨ ∃ th, (s.phase th).Notifying .exception)) ∧
    ¬ (0 < n ∧ (∀ w, s.phase (.inl w) = .blocked ∧ s.isSleeping w = true) ∧
      (∀ th, ¬ s.InDecrement th) ∧ ∃ k, s.system.scheduler.queues (.stealable k) ≠ []) := by
  constructor
  · intro w hblocked hflag
    have hstage : (s.phase (.inl w)).stage = 5 := by rw [hblocked, Phase.stage]
    refine ⟨?_, ?_, ?_⟩
    · by_contra hno
      rw [not_or] at hno
      obtain ⟨th, hth⟩ := visited_of_unstealable hrun hflag (by omega) hno.1
      exact hno.2 ⟨th, hth.notifying⟩
    · by_contra hno
      rw [not_or, not_not] at hno
      obtain ⟨th, hth⟩ := visited_of_finished hrun hflag (by omega) hno.1
      exact hno.2 ⟨th, hth.notifying⟩
    · by_contra hno
      rw [not_or, Bool.not_eq_false] at hno
      obtain ⟨th, hth⟩ := visited_of_cancelled hrun hflag (by omega) hno.1
      exact hno.2 ⟨th, hth.notifying⟩
  · rintro ⟨hpos, hall, hgraph, k, hq⟩
    rcases queue_passed_or_visited hrun hpos hq with ⟨w, hw⟩ | ⟨th, ts, hphase, -⟩
    · exact hw ⟨(hall w).2, Or.inr (Or.inr (hall w).1)⟩
    · refine hgraph th ⟨.stealable k, ?_⟩
      rcases hphase with h | h
      · exact Or.inl ⟨ts, h⟩
      · exact Or.inr (Or.inl ⟨ts, h⟩)

/-- A worker that blocks between the two steps of a `commit_task`. -/
theorem no_lost_wakeup_between : ∃ s : State 1 Unit, Run LocalityManager.default s ∧
    s.phase (.inl 0) = .blocked ∧ s.isSleeping 0 = true ∧
    (s.system.scheduler.unfinishedTaskCount ≠ 0 ∨
      ∃ th, (s.phase th).Notifying .finished) := by
  have hrun : Run LocalityManager.default _ :=
    .next (.next (.start rfl)
      (.inr (.inr (.createPhysicalTask (State.initial : State 1 Unit) (.inr ()) {} rfl rfl
        (fun th h => by rcases h with ⟨q, ⟨ts, h⟩ | ⟨ts, h⟩ | ⟨w, ts, h⟩⟩ <;> cases h)))))
      (.inr (.inr (.commitTask _ (.inr ()) 0 rfl rfl (by decide) (by decide))))
  have htaking : Run LocalityManager.default _ := .next (.next (.next (.next (.next hrun
      (.inr (.inl (.enter _ 0 rfl rfl))))
      (.inr (.inl (.firstUnstealable _ 0 rfl rfl))))
      (.inr (.inl (.firstLocal _ 0 rfl rfl))))
      (.inr (.inl (.firstSteal _ 0 0 (by decide) rfl rfl))))
      (.inr (.inl (.attemptSleep _ 0 rfl)))
  have hsleeping : Run LocalityManager.default _ := .next (.next (.next (.next htaking
      (.inr (.inl (.setSleeping _ 0 rfl))))
      (.inr (.inl (.unfinished _ 0 rfl rfl))))
      (.inr (.inl (.uncancelled _ 0 rfl rfl))))
      (.inr (.inl (.againUnstealable _ 0 rfl rfl)))
  have hblocked : Run LocalityManager.default _ := .next (.next (.next hsleeping
      (.inr (.inl (.againSteal _ 0 0 (by decide) rfl rfl))))
      (.inr (.inl (.wait _ 0 rfl))))
      (.inr (.inl (.block _ 0 rfl rfl)))
  exact ⟨_, hblocked, rfl, rfl, ((no_lost_wakeup hblocked).1 0 rfl rfl).2.1⟩

end M3bp.Wakeup
