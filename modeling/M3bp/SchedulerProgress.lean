import M3bp.Acyclic
import M3bp.DependencySafety

/-!
Termination detection and progress. While tasks are committed and none is
running, the live tasks are finitely many and their recorded edges have no
cycle, so one of them has no live predecessor; its count is zero and it is in
a queue.
-/
namespace M3bp.SchedulerCalls

open Finset Transition

/-- The edges that `add_dependency` recorded. -/
def Recorded (log : List Event) (p t : TaskId) : Prop := .dependency p t ∈ log

variable {Th : Type} [DecidableEq Th] [Fintype Th] {s : System Th}

omit [DecidableEq Th] in
/-- A committed task without live predecessors has been released, unless some
thread still holds a decrement for it. -/
theorem Inv.released_of_no_live_predecessor (h : Inv s) {t : TaskId}
    (hcommitted : .committed t ∈ s.log)
    (hpred : ∀ p, .dependency p t ∈ s.log → .completed p ∈ s.log)
    (hquiet : ∀ th u rest, s.calls th ≠ .draining u rest) : Released s.log t := by
  refine (h.count.released_iff t).mpr ⟨hcommitted, ?_⟩
  by_contra hne
  have hpos : 0 < recordedInto s.scheduler t ∨ 0 < drainingInto s.calls t := by
    unfold outstanding at hne
    omega
  rcases hpos with hr | hd
  · obtain ⟨p, hp⟩ := exists_recorded_of_pos hr
    have hlive := Scheduler.live_of_mem_successors hp
    exact ((h.data.live_iff p).mp hlive).2 (hpred p (h.data.recorded_dependency p t hp))
  · obtain ⟨th, -, hth⟩ := Counting.exists_pos_of_sum_pos hd
    cases hcall : s.calls th with
    | idle => simp [hcall, Call.remaining] at hth
    | committing u => simp [hcall, Call.remaining] at hth
    | draining u rest => exact hquiet th u rest hcall

omit [DecidableEq Th] in
theorem Inv.exists_queued (h : Inv s) (hacyclic : Acyclic (Recorded s.log))
    (hcommitted : ∀ t, .created t ∈ s.log → .committed t ∈ s.log)
    (hidle : ∀ t, .taken t ∈ s.log → .completed t ∈ s.log)
    (hquiet : ∀ th u rest, s.calls th ≠ .draining u rest)
    (hunfinished : s.scheduler.unfinishedTaskCount ≠ 0) :
    ∃ q, s.scheduler.queues q ≠ [] := by
  let live : Set TaskId := {t | .created t ∈ s.log ∧ .completed t ∉ s.log}
  have hfinite : live.Finite := by
    refine (Finset.finite_toSet (range s.scheduler.createdTaskCount)).subset ?_
    intro t ht
    simpa using (h.log.created_iff t).mp ht.1
  have hne : live.Nonempty := by
    have hpos : (unfinishedTasks s.scheduler.createdTaskCount s.log).Nonempty := by
      rw [← Finset.card_ne_zero]
      have heq := h.count.unfinished_eq
      omega
    obtain ⟨t, ht⟩ := hpos
    simp only [unfinishedTasks, Finset.mem_filter] at ht
    refine ⟨t, h.log.called_created t ht.2.1, fun hc => ?_⟩
    rcases h.log.completed_progress t hc with hf | ⟨th, rest, hcall⟩
    · exact ht.2.2 hf
    · exact hquiet th t rest hcall
  obtain ⟨m, hm, hmin⟩ := hacyclic.exists_minimal hfinite hne
  have hpred : ∀ p, .dependency p m ∈ s.log → .completed p ∈ s.log := by
    intro p hp
    by_contra hnot
    have hlive := Scheduler.live_of_mem_successors (h.data.dependency_recorded p m hp hnot)
    exact hmin p ((h.data.live_iff p).mp hlive) hp
  obtain ⟨q, hq⟩ := h.released_of_no_live_predecessor (hcommitted m hm.1) hpred hquiet
  have hmem := h.data.pushed_queued q m hq fun ht => hm.2 (hidle m ht)
  exact ⟨q, List.ne_nil_of_mem hmem⟩

omit [DecidableEq Th] in
/-- `is_finished` reads zero only when every task that was committed has been
finished. -/
theorem Inv.finished_of_isFinished (h : Inv s) (hfinished : s.scheduler.isFinished = true)
    {t : TaskId} (hcalled : .commitCalled t ∈ s.log) : .finished t ∈ s.log := by
  have hzero : s.scheduler.unfinishedTaskCount = 0 := by
    simpa [Scheduler.isFinished] using hfinished
  have hcard : (unfinishedTasks s.scheduler.createdTaskCount s.log).card = 0 := by
    have heq := h.count.unfinished_eq
    omega
  by_contra hnot
  have hlt := (h.log.created_iff t).mp (h.log.called_created t hcalled)
  have hmem : t ∈ unfinishedTasks s.scheduler.createdTaskCount s.log := by
    simp [unfinishedTasks, hlt, hcalled, hnot]
  rw [Finset.card_eq_zero.mp hcard] at hmem
  exact Finset.notMem_empty t hmem

/-- The number of unfinished tasks is exact in every reachable state, and a
reachable state in which everything is committed and nothing is taken or being
completed is either finished or has a task in some queue. -/
theorem termination_detection {lm : LocalityManager} (hrun : Run lm s) :
    s.scheduler.unfinishedTaskCount =
      (unfinishedTasks s.scheduler.createdTaskCount s.log).card ∧
    (s.scheduler.isFinished = true →
      ∀ t, .commitCalled t ∈ s.log → .finished t ∈ s.log) ∧
    (Acyclic (Recorded s.log) →
      (∀ t, .created t ∈ s.log → .committed t ∈ s.log) →
      (∀ t, .taken t ∈ s.log → .completed t ∈ s.log) →
      (∀ th t rest, s.calls th ≠ .draining t rest) →
      s.scheduler.unfinishedTaskCount = 0 ∨ ∃ q, s.scheduler.queues q ≠ []) := by
  have h := run_inv hrun
  refine ⟨h.count.unfinished_eq, fun hfinished t => h.finished_of_isFinished hfinished, ?_⟩
  intro hacyclic hcommitted hidle hquiet
  by_cases hzero : s.scheduler.unfinishedTaskCount = 0
  · exact Or.inl hzero
  · exact Or.inr (h.exists_queued hacyclic hcommitted hidle hquiet hzero)

/-- Tasks 0 and 1 are linked and committed, task 1 first. Both are unfinished,
and the recorded edge keeps task 1 out of the queues: the theorem finds
task 0. -/
theorem termination_detection_linked : ∃ s : System (Fin 1), Run LocalityManager.default s ∧
    Recorded s.log 0 1 ∧ s.scheduler.unfinishedTaskCount = 2 ∧ ¬ Released s.log 1 ∧
    ∃ q, s.scheduler.queues q ≠ [] := by
  have hunreleased : ¬ Released
      (((System.initial : System (Fin 1)).createPhysicalTask {}).createPhysicalTask {}).log 1 := by
    rintro ⟨q, hq⟩
    simp [System.createPhysicalTask, System.initial] at hq
  obtain ⟨s, hrun, hlog, hcount, hidle⟩ : ∃ s : System (Fin 1), Run LocalityManager.default s ∧
      s.log = [.pushed 0 (.stealable 0), .committed 0, .commitCalled 0, .committed 1,
        .commitCalled 1, .dependency 0 1, .created 1, .created 0] ∧
      s.scheduler.unfinishedTaskCount = 2 ∧ s.calls 0 = .idle :=
    ⟨_, .next (.next (.next (.next (.next (.next (.next (.start rfl)
      (.createPhysicalTask (System.initial : System (Fin 1)) 0 {} rfl))
      (.createPhysicalTask _ 0 {} rfl))
      (.addDependency _ 0 0 1 rfl (by decide) hunreleased))
      (.commitTask _ 0 1 rfl (by decide) (by decide)))
      (.commitDecrement _ 0 1 0 rfl))
      (.commitTask _ 0 0 rfl (by decide) (by decide)))
      (.commitDecrement _ 0 0 0 rfl), rfl, rfl, rfl⟩
  have hqueued := (termination_detection hrun).2.2
    (Acyclic.of_rank id fun p t h => by simp_all [Recorded])
    (by simp [hlog]) (by simp [hlog])
    fun th t rest => by simp [Subsingleton.elim th 0, hidle]
  refine ⟨s, hrun, by simp [Recorded, hlog], hcount, by simp [Released, hlog], ?_⟩
  exact hqueued.resolve_left (by omega)

end M3bp.SchedulerCalls
