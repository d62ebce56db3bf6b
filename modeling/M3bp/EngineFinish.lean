import M3bp.EngineLedger
import M3bp.SchedulerProgress

/-!
When the scheduler is finished, every task that was created has been executed and
nothing is left to be carried out: a task that still waited in a gate would keep
a barrier or a terminal back that has been committed from the start.
-/
namespace M3bp.Engine

open SchedulerCalls Transition

variable {n : ℕ} {g : LogicalGraph} {lm : LocalityManager} {s : State n}

/-- The tasks of the set-up have been committed. -/
theorem run_fixed_called (hwaits : Waits g) (hrun : Run g lm s) {l : ℕ} {kind : TaskKind}
    (hkind : g.kindOf l = some kind) (place : PhysicalSuccessor) :
    .commitCalled ((s.ids l).get place) ∈ s.system.log := by
  refine @run_induction n g lm s hwaits
    (fun s => .commitCalled ((s.ids l).get place) ∈ s.system.log) ?_ ?_ ?_ hrun
  · intro draws
    have h := @setUp_spec n g lm draws hwaits.endpoints
    have hcommand := (h.laid l kind hkind).command place
    exact h.called _ (List.getElem?_eq_some_iff.mp hcommand).1
  · intro s w t op rest e _ h hcalled hrunning hcall hprogram heffect
    have hlog : (s.apply w rest e).system.log = e.action.events s.system ++ s.system.log :=
      (performed h.run hcall (h.action_valid hrunning hprogram heffect)).log
    rw [hlog]
    exact List.mem_append_right _ hcalled
  · intro s s' _ hcalled hbetween
    rw [hbetween.ids]
    exact hbetween.log hcalled

theorem Inv.not_running_of_finished (h : Inv g lm s)
    (hfinished : s.system.scheduler.isFinished = true) (w : Fin n) (t : TaskId) :
    (s.workers w).activity ≠ .running t := by
  intro hrunning
  have hdone := (run_inv h.run).finished_of_isFinished hfinished (h.running_called hrunning)
  exact (h.running w t hrunning).2.1 ((run_inv h.run).log.finished_completed t hdone)

theorem Inv.program_of_not_running (h : Inv g lm s) {w : Fin n}
    (hrest : ∀ t, (s.workers w).activity ≠ .running t) : (s.workers w).program = [] := by
  cases hactivity : (s.workers w).activity with
  | idle => exact (h.idle w (Or.inl hactivity)).1
  | returned => exact (h.idle w (Or.inr hactivity)).1
  | running t => exact absurd hactivity (hrest t)
  | completing t => exact (h.completing w t hactivity).1

/-- Only a running task has something to do. -/
theorem Inv.running_of_mem (h : Inv g lm s) {w : Fin n} {op : Op}
    (hop : op ∈ (s.workers w).program) : ∃ t, (s.workers w).activity = .running t := by
  by_contra hno
  push Not at hno
  rw [h.program_of_not_running hno] at hop
  cases hop

/-- Every task that was created has been executed. -/
theorem executed_of_finished (hwaits : Waits g) (hrun : Run g lm s)
    (hfinished : s.system.scheduler.isFinished = true) {t : TaskId}
    (ht : t < s.commands.length) : .finished t ∈ s.system.log := by
  have h := run_invariant hwaits hrun
  have hinv := run_inv h.run
  have hcalled : ∀ u, .commitCalled u ∈ s.system.log → .finished u ∈ s.system.log :=
    fun u => hinv.finished_of_isFinished hfinished
  have hc : s.commands[t]? = some s.commands[t] := List.getElem?_eq_getElem ht
  rcases h.static.kinds t _ hc with ⟨kind, place, hkind, -, hid⟩ | ⟨kind, hkind, hcreated⟩
  · rw [hid]
    exact hcalled _ (run_fixed_called hwaits hrun hkind place)
  · obtain ⟨place, hplace⟩ := before?_of_createdBy hcreated
    rcases h.linked t _ place hc hplace with hdep | ⟨w, deps, hop, -⟩
    · have hdone := hcalled _ (run_fixed_called hwaits hrun hkind place)
      have htaken := hinv.finished_taken hdone
      have hbefore := hinv.predecessor_completed (hinv.log.taken_released _ htaken) hdep
      exact hcalled t (hinv.taken_called (hinv.log.completed_taken t hbefore))
    · rw [h.program_of_not_running (h.not_running_of_finished hfinished w)] at hop
      cases hop

/-- Every ledger has come to zero. -/
theorem tokens_of_finished (hwaits : Waits g) (hrun : Run g lm s)
    (hfinished : s.system.scheduler.isFinished = true) (f : Op → ℕ) (k : Command → ℕ) :
    s.tokens f k = 0 := by
  have h := run_invariant hwaits hrun
  have hinv := run_inv h.run
  have hprograms : s.inPrograms f = 0 := Finset.sum_eq_zero fun w _ => by
    rw [h.program_of_not_running (h.not_running_of_finished hfinished w)]
    rfl
  have hcommands : s.inCommands k = 0 := Finset.sum_eq_zero fun t ht => by
    have hdone := executed_of_finished hwaits hrun hfinished (Finset.mem_range.mp ht)
    have htaken := hinv.finished_taken hdone
    rw [untaken, if_pos htaken, Nat.zero_mul]
  rw [State.tokens, hprograms, hcommands]

end M3bp.Engine
