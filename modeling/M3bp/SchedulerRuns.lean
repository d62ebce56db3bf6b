import M3bp.SchedulerCounters

/-!
Every operation of a permitted caller keeps the invariant, and so does every
run. The lookups of the scheduler are total along the way: a vertex that still
has an outstanding decrement, or whose commit is outstanding, is not released
and therefore not erased.
-/
namespace M3bp.SchedulerCalls

open Finset Transition

variable {Th : Type} [DecidableEq Th] [Fintype Th] {s : System Th}

omit [DecidableEq Th] in
theorem Inv.createPhysicalTask (h : Inv s) (option : LocalityOption) :
    Inv (s.createPhysicalTask option) := by
  have hfresh : Event.created s.scheduler.createdTaskCount ∉ s.log := by
    rw [h.log.created_iff]
    exact lt_irrefl _
  have hunreleased : ¬ Released s.log s.scheduler.createdTaskCount := fun hr =>
    hfresh (h.log.called_created _ (h.log.committed_called _ ((h.count.released_iff _).mp hr).1))
  have hlive : Event.completed s.scheduler.createdTaskCount ∉ s.log := fun hc =>
    hunreleased (h.log.taken_released _ (h.log.completed_taken _ hc))
  exact ⟨h.safe, h.log.create, h.data.create option hfresh hunreleased hlive,
    h.count.create h.log h.data option⟩

omit [DecidableEq Th] in
theorem Inv.addDependency (h : Inv s) {p t : TaskId} (hcreated : .created t ∈ s.log)
    (hunreleased : ¬ Released s.log t) : Inv (s.addDependency p t) := by
  cases hp : s.scheduler.vertices p with
  | none =>
    have heq : s.addDependency p t = s := by
      simp [System.addDependency, Scheduler.addDependency_erased hp, hp]
    rw [heq]
    exact h
  | some pred =>
    obtain ⟨v, hv, -⟩ := live_of_unreleased h.log h.data hcreated hunreleased
    have hlt : p < s.scheduler.createdTaskCount := (h.log.created_iff p).mp
      ((h.data.live_iff p).mp (by simp [hp])).1
    have heq : s.addDependency p t =
        { s with
          scheduler := s.scheduler.recordEdge p t
          log := .dependency p t :: s.log } := by
      simp [System.addDependency, Scheduler.addDependency_recorded hp hv, hp]
    rw [heq]
    exact ⟨h.safe, h.log.depend hcreated, h.data.depend hp, h.count.depend hp hlt hunreleased⟩

theorem Inv.beginCommit (h : Inv s) {th : Th} {t : TaskId} (hidle : s.calls th = .idle)
    (hcreated : .created t ∈ s.log) (honce : .commitCalled t ∉ s.log) :
    Inv (s.beginCommit th t) := by
  have hunreleased : ¬ Released s.log t := fun hr =>
    honce (h.log.committed_called t ((h.count.released_iff t).mp hr).1)
  have hfinished : Event.finished t ∉ s.log := fun hf =>
    hunreleased (h.log.taken_released t (h.log.completed_taken t (h.log.finished_completed t hf)))
  exact ⟨h.safe, h.log.callCommit hidle hcreated honce, h.data.callCommit t,
    h.count.callCommit hidle ((h.log.created_iff t).mp hcreated) honce hfinished⟩

omit [Fintype Th] in
/-- A decrement that releases `t` pushes its pointer to one queue. -/
theorem System.decrement_push {lm : LocalityManager} {draw : WorkerId} {th : Th} {t : TaskId}
    {next : Call} {events : List Event} {v : PhysicalVertex}
    (hv : s.scheduler.vertices t = some v) (hcount : v.predecessorCount = 1)
    (htask : v.physicalTask = some t) :
    s.decrement lm draw th t next events =
      { s with
        scheduler := (s.scheduler.setVertex t
          (some { v with predecessorCount := 0, physicalTask := none })).pushBack
            (Scheduler.targetQueue lm draw v.localityOption) t
        calls := Function.update s.calls th next
        log := .pushed t (Scheduler.targetQueue lm draw v.localityOption) :: (events ++ s.log) } := by
  simp [System.decrement, Scheduler.decrementPredecessorCount_push hv hcount htask]

omit [Fintype Th] in
theorem System.decrement_keep {lm : LocalityManager} {draw : WorkerId} {th : Th} {t : TaskId}
    {next : Call} {events : List Event} {v : PhysicalVertex}
    (hv : s.scheduler.vertices t = some v) (hcount : v.predecessorCount ≠ 1) :
    s.decrement lm draw th t next events =
      { s with
        scheduler := s.scheduler.setVertex t
          (some { v with predecessorCount := v.predecessorCount - 1 })
        calls := Function.update s.calls th next
        log := events ++ s.log } := by
  simp [System.decrement, Scheduler.decrementPredecessorCount_keep hv hcount]

theorem Inv.commitDecrement (h : Inv s) (lm : LocalityManager) (draw : WorkerId) {th : Th}
    {t : TaskId} (hcall : s.calls th = .committing t) :
    Inv (s.commitDecrement lm draw th t) := by
  obtain ⟨hcalled, hnot⟩ := h.log.committing th t hcall
  have hunreleased := h.count.unreleased_of_not_committed hnot
  obtain ⟨v, hv, htask⟩ :=
    live_of_unreleased h.log h.data (h.log.called_created t hcalled) hunreleased
  have hcount := h.count.count_eq t v hv
  simp only [hnot, if_false] at hcount
  have hout : ∀ x, outstanding s.scheduler (Function.update s.calls th .idle) x =
      outstanding s.scheduler s.calls x := by
    intro x
    have hdrain := drainingInto_update s.calls th .idle x
    simp only [hcall, Call.remaining, List.count_nil, Nat.add_zero] at hdrain
    simp only [outstanding, hdrain]
  have hlog := h.log.commit hcall
  unfold System.commitDecrement
  by_cases hone : v.predecessorCount = 1
  · rw [System.decrement_push hv hone htask]
    have htaken : Event.taken t ∉ s.log := fun ht => hunreleased (h.log.taken_released t ht)
    refine ⟨h.safe, hlog.push t _,
      (h.data.commit t).push hv (by simpa [Released] using hunreleased) (by simpa using htaken),
      h.count.push hv ?_ ?_ ?_ ⟨_, List.mem_cons_self⟩ ?_⟩
    · refine ⟨by simp, ?_⟩
      rw [hout]
      omega
    · intro x hx
      exact ⟨hout x, by simp [hx]⟩
    · intro x hx
      simp [Released, hx]
    · simp [unfinishedTasks]
  · rw [System.decrement_keep hv hone]
    refine ⟨h.safe, hlog, (h.data.commit t).keep hv _,
      h.count.keep hv ?_ hone hunreleased ?_ ?_ ?_⟩
    · rw [hout]
      simp only [List.singleton_append, List.mem_cons, true_or, if_true]
      omega
    · intro x hx
      exact ⟨hout x, by simp [hx]⟩
    · intro x
      simp [Released]
    · simp [unfinishedTasks]

theorem Inv.drain (h : Inv s) (lm : LocalityManager) (draw : WorkerId) {th : Th}
    {t x : TaskId} {rest : List TaskId} (hcall : s.calls th = .draining t (x :: rest)) :
    Inv (s.drain lm draw th t x rest) := by
  have hdep := (h.log.draining th t _ hcall).2.2 x List.mem_cons_self
  have hpos : 0 < outstanding s.scheduler s.calls x :=
    Nat.add_pos_right _ (drainingInto_pos th (by simp [hcall, Call.remaining]))
  have hunreleased := h.count.unreleased_of_outstanding hpos
  obtain ⟨v, hv, htask⟩ :=
    live_of_unreleased h.log h.data (h.log.dependency_created t x hdep) hunreleased
  have hcount := h.count.count_eq x v hv
  have hout : ∀ y, outstanding s.scheduler (Function.update s.calls th (.draining t rest)) y +
      (if x = y then 1 else 0) = outstanding s.scheduler s.calls y := by
    intro y
    have hdrain := drainingInto_update s.calls th (.draining t rest) y
    simp only [hcall, Call.remaining, List.count_cons, beq_iff_eq] at hdrain
    simp only [outstanding]
    omega
  have hself := hout x
  simp only [if_true] at hself
  have hother : ∀ y, y ≠ x →
      outstanding s.scheduler (Function.update s.calls th (.draining t rest)) y =
        outstanding s.scheduler s.calls y := by
    intro y hy
    simpa [Ne.symm hy] using hout y
  have hlog := h.log.drain hcall
  unfold System.drain
  by_cases hone : v.predecessorCount = 1
  · rw [System.decrement_push hv hone htask]
    have htaken : Event.taken x ∉ s.log := fun ht => hunreleased (h.log.taken_released x ht)
    have hcommitted : Event.committed x ∈ s.log := by
      by_contra hnot
      simp only [hnot, if_false] at hcount
      omega
    simp only [hcommitted, if_true] at hcount
    have hzero : outstanding s.scheduler (Function.update s.calls th (.draining t rest)) x = 0 := by
      omega
    refine ⟨h.safe, hlog.push x _, h.data.push hv hunreleased htaken,
      h.count.push hv ⟨by simpa using hcommitted, hzero⟩ ?_ ?_ ⟨_, List.mem_cons_self⟩ ?_⟩
    · intro y hy
      exact ⟨hother y hy, by simp⟩
    · intro y hy
      simp [Released, hy]
    · simp [unfinishedTasks]
  · rw [System.decrement_keep hv hone]
    have hkept : (if .committed x ∈ s.log then 0 else 1) +
        (outstanding s.scheduler (Function.update s.calls th (.draining t rest)) x : ℤ) =
        v.predecessorCount - 1 := by
      omega
    refine ⟨h.safe, hlog, h.data.keep hv _,
      h.count.keep hv hkept hone hunreleased ?_ ?_ rfl⟩
    · intro y hy
      exact ⟨hother y hy, by simp⟩
    · intro y
      simp

theorem Inv.beginCompletion (h : Inv s) {th : Th} {t : TaskId} (hidle : s.calls th = .idle)
    (htaken : .taken t ∈ s.log) (honce : .completed t ∉ s.log) :
    Inv (s.beginCompletion th t) := by
  have hcommitted := ((h.count.released_iff t).mp (h.log.taken_released t htaken)).1
  have hcreated := h.log.called_created t (h.log.committed_called t hcommitted)
  obtain ⟨v, hv⟩ := Option.isSome_iff_exists.mp ((h.data.live_iff t).mpr ⟨hcreated, honce⟩)
  have heq : s.beginCompletion th t =
      { s with
        scheduler := s.scheduler.setVertex t none
        calls := Function.update s.calls th (.draining t v.successors)
        log := .completed t :: s.log } := by
    simp [System.beginCompletion, Scheduler.eraseVertex_eq hv]
  rw [heq]
  have hrest : ∀ x ∈ v.successors, Event.dependency t x ∈ s.log := by
    intro x hx
    exact h.data.recorded_dependency t x (by rwa [Scheduler.successors_eq hv])
  exact ⟨h.safe, h.log.complete hidle htaken honce hrest, h.data.erase t,
    h.count.complete hidle hv ((h.log.created_iff t).mp hcreated)⟩

theorem Inv.finishCompletion (h : Inv s) {th : Th} {t : TaskId}
    (hcall : s.calls th = .draining t []) : Inv (s.finishCompletion th t) := by
  obtain ⟨hcompleted, hfinished, -⟩ := h.log.draining th t [] hcall
  have hreleased := h.log.taken_released t (h.log.completed_taken t hcompleted)
  have hcalled := h.log.committed_called t ((h.count.released_iff t).mp hreleased).1
  have hlt := (h.log.created_iff t).mp (h.log.called_created t hcalled)
  exact ⟨h.safe, h.log.finish hcall, h.data.finish t,
    h.count.finish hcall hlt hcalled hfinished⟩

omit [DecidableEq Th] in
theorem Inv.take (h : Inv s) {q : QueueRef} {t : TaskId} {rest : List TaskId}
    (hperm : (s.scheduler.queues q).Perm (t :: rest)) :
    Inv (s.take (s.scheduler.setQueue q rest) t) := by
  have hmem : t ∈ s.scheduler.queues q := hperm.mem_iff.mpr List.mem_cons_self
  have hreleased : Released s.log t := ⟨q, (h.data.queued q t hmem).1⟩
  exact ⟨h.safe, h.log.take hreleased, h.data.take hperm, h.count.take q t rest⟩

omit [DecidableEq Th] in
theorem initial_inv : Inv (System.initial : System Th) := by
  refine ⟨rfl, ?_, ?_, ?_⟩
  · constructor <;> simp [System.initial, Scheduler.empty]
  · constructor <;> simp [System.initial, Scheduler.empty, Scheduler.successors]
  · constructor <;> simp [System.initial, Scheduler.empty, Released, unfinishedTasks]

theorem step_inv {lm : LocalityManager} {s' : System Th} (hstep : Step lm s s') (h : Inv s) :
    Inv s' := by
  cases hstep with
  | createPhysicalTask th option hidle => exact h.createPhysicalTask option
  | addDependency th p t hidle hcreated hunreleased => exact h.addDependency hcreated hunreleased
  | commitTask th t hidle hcreated honce => exact h.beginCommit hidle hcreated honce
  | commitDecrement th t draw hcall => exact h.commitDecrement lm draw hcall
  | takeRunnableTask th worker q t scheduler hidle hpop =>
    obtain ⟨rest, hperm, rfl⟩ := hpop.perm
    exact h.take hperm
  | notifyTaskCompletion th t hidle htaken honce => exact h.beginCompletion hidle htaken honce
  | drain th t x rest draw hcall => exact h.drain lm draw hcall
  | finishCompletion th t hcall => exact h.finishCompletion hcall

theorem run_inv {lm : LocalityManager} (hrun : Run lm s) : Inv s := by
  have hind : Inductive (fun s => s = System.initial) (Step lm) (Inv : System Th → Prop) := by
    constructor
    · rintro s rfl
      exact initial_inv
    · intro s s' h hstep
      exact step_inv hstep h
  exact hind.reachable hrun

end M3bp.SchedulerCalls
