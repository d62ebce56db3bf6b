import M3bp.DependencySafety

/-!
What each call of the scheduler adds to the log and does to the calls in
progress, for callers that only know the log.
-/
namespace M3bp.SchedulerCalls

open Relation Transition

variable {Th : Type} [DecidableEq Th] [Fintype Th] {s : System Th} {lm : LocalityManager}

/-- Events that push tasks to queues. -/
def OnlyPushes (events : List Event) : Prop := ∀ e ∈ events, ∃ t q, e = .pushed t q

theorem OnlyPushes.notMem {events : List Event} (h : OnlyPushes events) {e : Event}
    (he : ∀ t q, e ≠ .pushed t q) : e ∉ events := by
  intro hmem
  obtain ⟨t, q, heq⟩ := h e hmem
  exact he t q heq

theorem OnlyPushes.mem_append {events log : List Event} (h : OnlyPushes events) {e : Event}
    (he : ∀ t q, e ≠ .pushed t q) : e ∈ events ++ log ↔ e ∈ log := by
  rw [List.mem_append]
  exact or_iff_right (h.notMem he)

omit [DecidableEq Th] in
/-- A live predecessor: the edge is recorded. -/
theorem Inv.addDependency_live (h : Inv s) {p t : TaskId} (hp : .created p ∈ s.log)
    (hlive : .completed p ∉ s.log) (ht : .created t ∈ s.log) (hunreleased : ¬ Released s.log t) :
    (s.addDependency p t).log = .dependency p t :: s.log ∧
      (s.addDependency p t).calls = s.calls ∧
      (s.addDependency p t).scheduler.createdTaskCount = s.scheduler.createdTaskCount := by
  obtain ⟨pred, hpred⟩ := Option.isSome_iff_exists.mp ((h.data.live_iff p).mpr ⟨hp, hlive⟩)
  obtain ⟨v, hv, -⟩ := live_of_unreleased h.log h.data ht hunreleased
  simp [System.addDependency, Scheduler.addDependency_recorded hpred hv, hpred,
    Scheduler.recordEdge]

omit [DecidableEq Th] in
/-- A completed predecessor: the edge is dropped. -/
theorem Inv.addDependency_completed (h : Inv s) {p : TaskId} (t : TaskId)
    (hdone : .completed p ∈ s.log) : s.addDependency p t = s := by
  have hnone : s.scheduler.vertices p = none := by
    by_contra hsome
    have hlive := (h.data.live_iff p).mp (Option.isSome_iff_ne_none.mpr hsome)
    exact hlive.2 hdone
  simp [System.addDependency, Scheduler.addDependency_erased hnone, hnone]

theorem Inv.decrement_effect (h : Inv s) (draw : WorkerId) {th : Th} {t : TaskId} (next : Call)
    (events : List Event) (ht : .created t ∈ s.log) (hunreleased : ¬ Released s.log t) :
    ∃ pushes, OnlyPushes pushes ∧
      (s.decrement lm draw th t next events).log = pushes ++ (events ++ s.log) ∧
      (s.decrement lm draw th t next events).calls = Function.update s.calls th next ∧
      (s.decrement lm draw th t next events).scheduler.createdTaskCount =
        s.scheduler.createdTaskCount := by
  obtain ⟨v, hv, htask⟩ := live_of_unreleased h.log h.data ht hunreleased
  by_cases hone : v.predecessorCount = 1
  · rw [System.decrement_push hv hone htask]
    refine ⟨[.pushed t (Scheduler.targetQueue lm draw v.localityOption)], ?_, rfl, rfl, rfl⟩
    intro e he
    exact ⟨_, _, List.mem_singleton.mp he⟩
  · rw [System.decrement_keep hv hone]
    exact ⟨[], by simp [OnlyPushes], rfl, rfl, rfl⟩

theorem Inv.commitDecrement_effect (h : Inv s) (lm : LocalityManager) (draw : WorkerId) {th : Th} {t : TaskId}
    (hcall : s.calls th = .committing t) :
    ∃ pushes, OnlyPushes pushes ∧
      (s.commitDecrement lm draw th t).log = pushes ++ (.committed t :: s.log) ∧
      (s.commitDecrement lm draw th t).calls = Function.update s.calls th .idle ∧
      (s.commitDecrement lm draw th t).scheduler.createdTaskCount =
        s.scheduler.createdTaskCount := by
  obtain ⟨hcalled, hnot⟩ := h.log.committing th t hcall
  exact h.decrement_effect draw .idle [.committed t] (h.log.called_created t hcalled)
    (h.count.unreleased_of_not_committed hnot)

theorem Inv.drain_effect (h : Inv s) (lm : LocalityManager) (draw : WorkerId) {th : Th} {t x : TaskId}
    {rest : List TaskId} (hcall : s.calls th = .draining t (x :: rest)) :
    ∃ pushes, OnlyPushes pushes ∧
      (s.drain lm draw th t x rest).log = pushes ++ s.log ∧
      (s.drain lm draw th t x rest).calls = Function.update s.calls th (.draining t rest) ∧
      (s.drain lm draw th t x rest).scheduler.createdTaskCount = s.scheduler.createdTaskCount := by
  have hdep := (h.log.draining th t _ hcall).2.2 x List.mem_cons_self
  have hpos : 0 < outstanding s.scheduler s.calls x :=
    Nat.add_pos_right _ (drainingInto_pos th (by simp [hcall, Call.remaining]))
  exact h.decrement_effect draw (.draining t rest) [] (h.log.dependency_created t x hdep)
    (h.count.unreleased_of_outstanding hpos)

theorem Inv.beginCompletion_effect (h : Inv s) (th : Th) {t : TaskId} (htaken : .taken t ∈ s.log)
    (honce : .completed t ∉ s.log) :
    ∃ rest, (s.beginCompletion th t).log = .completed t :: s.log ∧
      (s.beginCompletion th t).calls = Function.update s.calls th (.draining t rest) ∧
      (s.beginCompletion th t).scheduler.createdTaskCount = s.scheduler.createdTaskCount := by
  have hcreated : .created t ∈ s.log := h.log.called_created t (h.log.committed_called t
    ((h.count.released_iff t).mp (h.log.taken_released t htaken)).1)
  obtain ⟨v, hv⟩ := Option.isSome_iff_exists.mp ((h.data.live_iff t).mpr ⟨hcreated, honce⟩)
  refine ⟨v.successors, ?_, ?_, ?_⟩ <;>
    simp [System.beginCompletion, Scheduler.eraseVertex_eq hv, Scheduler.setVertex]

omit [DecidableEq Th] in
/-- What is taken was released, committed and created. -/
theorem Inv.released_called (h : Inv s) {t : TaskId} (hreleased : Released s.log t) :
    .commitCalled t ∈ s.log :=
  h.log.committed_called t ((h.count.released_iff t).mp hreleased).1

omit [DecidableEq Th] in
theorem Inv.taken_called (h : Inv s) {t : TaskId} (htaken : .taken t ∈ s.log) :
    .commitCalled t ∈ s.log := h.released_called (h.log.taken_released t htaken)

omit [DecidableEq Th] in
theorem Inv.finished_taken (h : Inv s) {t : TaskId} (hdone : .finished t ∈ s.log) :
    .taken t ∈ s.log := h.log.completed_taken t (h.log.finished_completed t hdone)

omit [DecidableEq Th] in
theorem Inv.unreleased_of_uncalled (h : Inv s) {t : TaskId} (hcalled : .commitCalled t ∉ s.log) :
    ¬ Released s.log t := fun hreleased => hcalled (h.released_called hreleased)

omit [DecidableEq Th] in
theorem Inv.live_of_uncalled (h : Inv s) {t : TaskId} (hcalled : .commitCalled t ∉ s.log) :
    .completed t ∉ s.log := fun hdone =>
  hcalled (h.taken_called (h.log.completed_taken t hdone))

/-- `a` stands before `b` in the recorded dependencies. -/
def Before (log : List Event) : TaskId → TaskId → Prop :=
  TransGen fun p t => .dependency p t ∈ log

theorem Before.mono {log log' : List Event} (hsub : log ⊆ log') {a b : TaskId}
    (h : Before log a b) : Before log' a b :=
  TransGen.mono (fun _ _ hdep => hsub hdep) _ _ h

omit [DecidableEq Th] in
/-- As long as a task is not complete, nothing behind it is released. -/
theorem Inv.unreleased_of_before (h : Inv s) {a b : TaskId} (hbefore : Before s.log a b)
    (hlive : .completed a ∉ s.log) : ¬ Released s.log b := by
  induction hbefore with
  | single hdep => exact fun hreleased => hlive (h.predecessor_completed hreleased hdep)
  | tail _ hdep ih =>
    intro hreleased
    have hdone := h.predecessor_completed hreleased hdep
    exact ih (h.log.taken_released _ (h.log.completed_taken _ hdone))

end M3bp.SchedulerCalls
