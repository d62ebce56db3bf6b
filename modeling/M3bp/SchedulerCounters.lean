import M3bp.SchedulerInvariant
import Mathlib.Tactic.Ring

/-!
The predecessor counts and the number of unfinished tasks under each kind of
step, and from them the invariant of every run. A thread that completes a task
moves the edges out of it from the successor list into its own hands, so the
number of outstanding edges into a task changes only when an edge is recorded
and when one is drained.
-/
namespace M3bp.SchedulerCalls

open Finset Transition

variable {Th : Type} {scheduler : Scheduler} {calls : Th → Call} {log : List Event}

theorem recordedInto_congr {scheduler' : Scheduler}
    (hn : scheduler'.createdTaskCount = scheduler.createdTaskCount)
    (hsucc : ∀ p, scheduler'.successors p = scheduler.successors p) (t : TaskId) :
    recordedInto scheduler' t = recordedInto scheduler t := by
  simp only [recordedInto, hn, hsucc]

theorem recordedInto_create (option : LocalityOption)
    (hnone : scheduler.vertices scheduler.createdTaskCount = none) (t : TaskId) :
    recordedInto (scheduler.createPhysicalTask option) t = recordedInto scheduler t := by
  have hsucc : ∀ p, (scheduler.createPhysicalTask option).successors p =
      scheduler.successors p := by
    intro p
    by_cases hp : p = scheduler.createdTaskCount
    · subst p
      simp [Scheduler.successors, Scheduler.createPhysicalTask, Scheduler.setVertex, hnone,
        PhysicalVertex.new]
    · simp [Scheduler.successors, Scheduler.createPhysicalTask, Scheduler.setVertex, hp]
  unfold recordedInto
  simp only [hsucc]
  change ∑ p ∈ range (scheduler.createdTaskCount + 1), _ = _
  rw [Finset.sum_range_succ, Scheduler.successors_eq_nil hnone]
  simp

theorem recordedInto_recordEdge {p : TaskId} (t : TaskId) {pred : PhysicalVertex}
    (hp : scheduler.vertices p = some pred) (hlt : p < scheduler.createdTaskCount) (x : TaskId) :
    recordedInto (scheduler.recordEdge p t) x =
      recordedInto scheduler x + if t = x then 1 else 0 := by
  have hsum := Counting.sum_add_of_eq_off (range scheduler.createdTaskCount)
    (fun y => ((scheduler.recordEdge p t).successors y).count x)
    (fun y => (scheduler.successors y).count x) p (by simpa using hlt) (by
      intro y _ hy
      simp [Scheduler.successors_recordEdge t hp, hy])
  have hself : ((scheduler.recordEdge p t).successors p).count x =
      (scheduler.successors p).count x + if t = x then 1 else 0 := by
    simp only [Scheduler.successors_recordEdge t hp, if_true, List.count_append,
      List.count_singleton, beq_iff_eq]
  change recordedInto (scheduler.recordEdge p t) x + _ = recordedInto scheduler x + _ at hsum
  simp only [hself] at hsum
  omega

theorem recordedInto_erase {t : TaskId} {v : PhysicalVertex}
    (hv : scheduler.vertices t = some v) (hlt : t < scheduler.createdTaskCount) (x : TaskId) :
    recordedInto (scheduler.setVertex t none) x + v.successors.count x =
      recordedInto scheduler x := by
  have hsum := Counting.sum_add_of_eq_off (range scheduler.createdTaskCount)
    (fun y => ((scheduler.setVertex t none).successors y).count x)
    (fun y => (scheduler.successors y).count x) t (by simpa using hlt) (by
      intro y _ hy
      simp [Scheduler.successors, Scheduler.setVertex, hy])
  have hself : ((scheduler.setVertex t none).successors t).count x = 0 := by
    simp [Scheduler.successors, Scheduler.setVertex]
  simp only [hself, Scheduler.successors_eq hv] at hsum
  exact hsum

theorem exists_recorded_of_pos {t : TaskId} (h : 0 < recordedInto scheduler t) :
    ∃ p, t ∈ scheduler.successors p := by
  obtain ⟨p, -, hp⟩ := Counting.exists_pos_of_sum_pos h
  exact ⟨p, List.count_pos_iff.mp hp⟩

section Draining

variable [Fintype Th] [DecidableEq Th]

theorem drainingInto_update (calls : Th → Call) (th : Th) (next : Call) (x : TaskId) :
    drainingInto (Function.update calls th next) x + (calls th).remaining.count x =
      drainingInto calls x + next.remaining.count x := by
  have hsum := Counting.sum_univ_add_of_eq_off
    (fun th' => (Function.update calls th next th').remaining.count x)
    (fun th' => (calls th').remaining.count x) th (by
      intro th' hne
      simp [hne])
  simpa [drainingInto] using hsum

omit [DecidableEq Th] in
theorem drainingInto_pos (th : Th) {x : TaskId} (h : x ∈ (calls th).remaining) :
    0 < drainingInto calls x :=
  lt_of_lt_of_le (List.count_pos_iff.mpr h)
    (Finset.single_le_sum (f := fun th => (calls th).remaining.count x)
      (fun _ _ => Nat.zero_le _) (Finset.mem_univ th))

omit [DecidableEq Th] in
/-- An outstanding edge was recorded. -/
theorem exists_dependency_of_pos (hlog : LogInv scheduler.createdTaskCount calls log)
    (hdata : DataInv scheduler log) {t : TaskId} (h : 0 < outstanding scheduler calls t) :
    ∃ p, .dependency p t ∈ log := by
  unfold outstanding at h
  by_cases hr : 0 < recordedInto scheduler t
  · obtain ⟨p, hp⟩ := exists_recorded_of_pos hr
    exact ⟨p, hdata.recorded_dependency p t hp⟩
  · obtain ⟨th, -, hth⟩ := Counting.exists_pos_of_sum_pos
      (show 0 < drainingInto calls t by omega)
    have hmem := List.count_pos_iff.mp hth
    cases hcall : calls th with
    | idle => simp [hcall, Call.remaining] at hmem
    | committing u => simp [hcall, Call.remaining] at hmem
    | draining u rest =>
      rw [hcall] at hmem
      exact ⟨u, (hlog.draining th u rest hcall).2.2 t hmem⟩

end Draining

/-! The counters under each kind of step. -/

section Counts

variable [Fintype Th]

theorem CountInv.unreleased_of_not_committed (h : CountInv scheduler calls log) {t : TaskId}
    (hc : .committed t ∉ log) : ¬ Released log t := fun hr => hc ((h.released_iff t).mp hr).1

theorem CountInv.unreleased_of_outstanding (h : CountInv scheduler calls log) {t : TaskId}
    (hpos : 0 < outstanding scheduler calls t) : ¬ Released log t := fun hr => by
  have hzero := ((h.released_iff t).mp hr).2
  omega

omit [Fintype Th] in
/-- A task that is not released is not erased. -/
theorem live_of_unreleased (hlog : LogInv scheduler.createdTaskCount calls log)
    (hdata : DataInv scheduler log) {t : TaskId} (hcreated : .created t ∈ log)
    (hunreleased : ¬ Released log t) :
    ∃ v, scheduler.vertices t = some v ∧ v.physicalTask = some t := by
  have hsome : (scheduler.vertices t).isSome := (hdata.live_iff t).mpr
    ⟨hcreated, fun hcompleted =>
      hunreleased (hlog.taken_released t (hlog.completed_taken t hcompleted))⟩
  obtain ⟨v, hv⟩ := Option.isSome_iff_exists.mp hsome
  exact ⟨v, hv, (hdata.pointer t v hv).2 hunreleased⟩

theorem CountInv.create (h : CountInv scheduler calls log)
    (hlog : LogInv scheduler.createdTaskCount calls log) (hdata : DataInv scheduler log)
    (option : LocalityOption) :
    CountInv (scheduler.createPhysicalTask option) calls
      (.created scheduler.createdTaskCount :: log) := by
  have hfresh : Event.created scheduler.createdTaskCount ∉ log := by
    rw [hlog.created_iff]
    exact lt_irrefl _
  have hnone : scheduler.vertices scheduler.createdTaskCount = none := by
    by_contra hne
    exact hfresh ((hdata.live_iff _).mp (Option.isSome_iff_ne_none.mpr hne)).1
  have hout : ∀ t, outstanding (scheduler.createPhysicalTask option) calls t =
      outstanding scheduler calls t := by
    intro t
    simp only [outstanding, recordedInto_create option hnone]
  have hcalled : Event.commitCalled scheduler.createdTaskCount ∉ log := fun hc =>
    hfresh (hlog.called_created _ hc)
  constructor
  case count_eq =>
    intro t v hv
    simp only [List.mem_cons, reduceCtorEq, false_or, hout]
    by_cases ht : t = scheduler.createdTaskCount
    · subst t
      simp only [Scheduler.createPhysicalTask, Scheduler.setVertex, Function.update_self,
        Option.some.injEq] at hv
      subst v
      have hcommitted : Event.committed scheduler.createdTaskCount ∉ log := fun hc =>
        hcalled (hlog.committed_called _ hc)
      have hzero : outstanding scheduler calls scheduler.createdTaskCount = 0 := by
        by_contra hne
        obtain ⟨p, hp⟩ := exists_dependency_of_pos hlog hdata (Nat.pos_of_ne_zero hne)
        exact hfresh (hlog.dependency_created p _ hp)
      simp [PhysicalVertex.new, hcommitted, hzero]
    · simp only [Scheduler.createPhysicalTask, Scheduler.setVertex,
        Function.update_of_ne ht] at hv
      exact h.count_eq t v hv
  case released_iff =>
    intro t
    simpa only [Released, List.mem_cons, reduceCtorEq, false_or, hout] using h.released_iff t
  case unfinished_eq =>
    have hset : unfinishedTasks (scheduler.createdTaskCount + 1)
        (.created scheduler.createdTaskCount :: log) =
        unfinishedTasks scheduler.createdTaskCount log := by
      ext t
      simp only [unfinishedTasks, Finset.mem_filter, Finset.mem_range, List.mem_cons,
        reduceCtorEq, false_or]
      constructor
      · rintro ⟨hlt, hc, hf⟩
        refine ⟨?_, hc, hf⟩
        rcases Nat.lt_succ_iff_lt_or_eq.mp hlt with hlt | heq
        · exact hlt
        · exact absurd (heq ▸ hc) hcalled
      · rintro ⟨hlt, hc, hf⟩
        exact ⟨Nat.lt_succ_of_lt hlt, hc, hf⟩
    change scheduler.unfinishedTaskCount = _
    rw [h.unfinished_eq]
    exact congrArg (fun s : Finset ℕ => (s.card : ℤ)) hset.symm

theorem CountInv.depend (h : CountInv scheduler calls log) {p t : TaskId} {pred : PhysicalVertex}
    (hp : scheduler.vertices p = some pred) (hlt : p < scheduler.createdTaskCount)
    (hunreleased : ¬ Released log t) :
    CountInv (scheduler.recordEdge p t) calls (.dependency p t :: log) := by
  have hout : ∀ x, outstanding (scheduler.recordEdge p t) calls x =
      outstanding scheduler calls x + if t = x then 1 else 0 := by
    intro x
    simp only [outstanding, recordedInto_recordEdge t hp hlt]
    omega
  constructor
  case count_eq =>
    intro x v hv
    simp only [Scheduler.recordEdge, Option.map_eq_some_iff] at hv
    obtain ⟨u, hu, rfl⟩ := hv
    have hold := h.count_eq x u hu
    simp only [List.mem_cons, reduceCtorEq, false_or, hout, Scheduler.linked]
    by_cases hx : x = t
    · simp only [hx, if_true] at hold ⊢
      rw [hold]
      push_cast
      ring
    · simpa only [hx, Ne.symm hx, if_false, Nat.add_zero] using hold
  case released_iff =>
    intro x
    have hsame : Released (.dependency p t :: log) x ↔ Released log x := by
      simp [Released]
    simp only [hsame, List.mem_cons, reduceCtorEq, false_or, hout]
    by_cases hx : x = t
    · subst x
      simp [hunreleased]
    · simpa only [Ne.symm hx, if_false, Nat.add_zero] using h.released_iff x
  case unfinished_eq =>
    change scheduler.unfinishedTaskCount = _
    rw [h.unfinished_eq]
    simp [unfinishedTasks, Scheduler.recordEdge]

/-- A decrement of `t` to a positive count. -/
theorem CountInv.keep (h : CountInv scheduler calls log) {calls' : Th → Call}
    {log' : List Event} {t : TaskId} {v : PhysicalVertex} (hv : scheduler.vertices t = some v)
    (hself : (if .committed t ∈ log' then 0 else 1) + (outstanding scheduler calls' t : ℤ) =
      v.predecessorCount - 1)
    (hne : v.predecessorCount ≠ 1) (hunreleased : ¬ Released log t)
    (hother : ∀ x, x ≠ t → outstanding scheduler calls' x = outstanding scheduler calls x ∧
      (.committed x ∈ log' ↔ .committed x ∈ log))
    (hreleased : ∀ x, Released log' x ↔ Released log x)
    (hunfinished : unfinishedTasks scheduler.createdTaskCount log' =
      unfinishedTasks scheduler.createdTaskCount log) :
    CountInv (scheduler.setVertex t
      (some { v with predecessorCount := v.predecessorCount - 1 })) calls' log' := by
  have hout : ∀ x, outstanding (scheduler.setVertex t
      (some { v with predecessorCount := v.predecessorCount - 1 })) calls' x =
      outstanding scheduler calls' x := by
    intro x
    refine congrArg (· + drainingInto calls' x) (recordedInto_congr (by rfl) ?_ x)
    intro p
    by_cases hp : p = t
    · subst p
      simp [Scheduler.successors, Scheduler.setVertex, hv]
    · simp [Scheduler.successors, Scheduler.setVertex, hp]
  constructor
  case count_eq =>
    intro x u hu
    rw [hout]
    by_cases hx : x = t
    · subst x
      simp only [Scheduler.setVertex, Function.update_self, Option.some.injEq] at hu
      subst u
      exact hself.symm
    · simp only [Scheduler.setVertex, Function.update_of_ne hx] at hu
      rw [(hother x hx).1]
      simp only [(hother x hx).2]
      exact h.count_eq x u hu
  case released_iff =>
    intro x
    rw [hout, hreleased]
    by_cases hx : x = t
    · subst x
      constructor
      · intro hr
        exact absurd hr hunreleased
      · rintro ⟨hc, hz⟩
        simp only [hc, if_true, hz] at hself
        omega
    · rw [(hother x hx).1, (hother x hx).2]
      exact h.released_iff x
  case unfinished_eq =>
    change scheduler.unfinishedTaskCount = _
    rw [h.unfinished_eq]
    exact congrArg (fun s : Finset ℕ => (s.card : ℤ)) hunfinished.symm

/-- A decrement of `t` to zero, which releases it. -/
theorem CountInv.push (h : CountInv scheduler calls log) {calls' : Th → Call}
    {log' : List Event} {t : TaskId} {v : PhysicalVertex} {q : QueueRef}
    (hv : scheduler.vertices t = some v)
    (hself : .committed t ∈ log' ∧ outstanding scheduler calls' t = 0)
    (hother : ∀ x, x ≠ t → outstanding scheduler calls' x = outstanding scheduler calls x ∧
      (.committed x ∈ log' ↔ .committed x ∈ log))
    (hreleased : ∀ x, x ≠ t → (Released log' x ↔ Released log x))
    (hpushed : Released log' t)
    (hunfinished : unfinishedTasks scheduler.createdTaskCount log' =
      unfinishedTasks scheduler.createdTaskCount log) :
    CountInv ((scheduler.setVertex t
      (some { v with predecessorCount := 0, physicalTask := none })).pushBack q t) calls' log' := by
  have hout : ∀ x, outstanding ((scheduler.setVertex t
      (some { v with predecessorCount := 0, physicalTask := none })).pushBack q t) calls' x =
      outstanding scheduler calls' x := by
    intro x
    refine congrArg (· + drainingInto calls' x) (recordedInto_congr (by rfl) ?_ x)
    intro p
    by_cases hp : p = t
    · subst p
      simp [Scheduler.successors, Scheduler.setVertex, Scheduler.pushBack, Scheduler.setQueue, hv]
    · simp [Scheduler.successors, Scheduler.setVertex, Scheduler.pushBack, Scheduler.setQueue, hp]
  constructor
  case count_eq =>
    intro x u hu
    rw [hout]
    by_cases hx : x = t
    · subst x
      simp only [Scheduler.pushBack, Scheduler.setQueue, Scheduler.setVertex,
        Function.update_self, Option.some.injEq] at hu
      subst u
      simp [hself.1, hself.2]
    · simp only [Scheduler.pushBack, Scheduler.setQueue, Scheduler.setVertex,
        Function.update_of_ne hx] at hu
      rw [(hother x hx).1]
      simp only [(hother x hx).2]
      exact h.count_eq x u hu
  case released_iff =>
    intro x
    rw [hout]
    by_cases hx : x = t
    · subst x
      exact ⟨fun _ => hself, fun _ => hpushed⟩
    · rw [hreleased x hx, (hother x hx).1, (hother x hx).2]
      exact h.released_iff x
  case unfinished_eq =>
    change scheduler.unfinishedTaskCount = _
    rw [h.unfinished_eq]
    exact congrArg (fun s : Finset ℕ => (s.card : ℤ)) hunfinished.symm

theorem CountInv.take (h : CountInv scheduler calls log) (q : QueueRef) (t : TaskId)
    (rest : List TaskId) :
    CountInv (scheduler.setQueue q rest) calls (.taken t :: log) := by
  have hout : ∀ x, outstanding (scheduler.setQueue q rest) calls x =
      outstanding scheduler calls x := fun _ => rfl
  constructor
  case count_eq =>
    intro x v hv
    simpa only [List.mem_cons, reduceCtorEq, false_or, hout] using h.count_eq x v hv
  case released_iff =>
    intro x
    have hsame : Released (.taken t :: log) x ↔ Released log x := by
      simp [Released]
    simpa only [hsame, List.mem_cons, reduceCtorEq, false_or, hout] using h.released_iff x
  case unfinished_eq =>
    change scheduler.unfinishedTaskCount = _
    rw [h.unfinished_eq]
    simp [unfinishedTasks, Scheduler.setQueue]

variable [DecidableEq Th]

theorem CountInv.callCommit (h : CountInv scheduler calls log)
    {th : Th} {t : TaskId} (hidle : calls th = .idle) (hlt : t < scheduler.createdTaskCount)
    (honce : .commitCalled t ∉ log) (hfinished : .finished t ∉ log) :
    CountInv scheduler.incrementUnfinished (Function.update calls th (.committing t))
      (.commitCalled t :: log) := by
  have hout : ∀ x, outstanding scheduler.incrementUnfinished
      (Function.update calls th (.committing t)) x = outstanding scheduler calls x := by
    intro x
    have hdrain := drainingInto_update calls th (.committing t) x
    simp only [hidle, Call.remaining, List.count_nil, Nat.add_zero] at hdrain
    simp only [outstanding, hdrain]
    rfl
  constructor
  case count_eq =>
    intro x v hv
    simp only [hout, List.mem_cons, reduceCtorEq, false_or]
    exact h.count_eq x v hv
  case released_iff =>
    intro x
    simpa only [Released, hout, List.mem_cons, reduceCtorEq, false_or] using h.released_iff x
  case unfinished_eq =>
    have hcard : (unfinishedTasks scheduler.createdTaskCount (.commitCalled t :: log)).card =
        (unfinishedTasks scheduler.createdTaskCount log).card + 1 := by
      apply Counting.card_filter_insert (i := t) (by simpa using hlt)
      · simp [honce]
      · simp [hfinished]
      · intro x _ hx
        simp [hx]
    change scheduler.unfinishedTaskCount + 1 = _
    rw [h.unfinished_eq]
    exact_mod_cast hcard.symm

theorem CountInv.complete (h : CountInv scheduler calls log) {th : Th} {t : TaskId}
    {v : PhysicalVertex} (hidle : calls th = .idle) (hv : scheduler.vertices t = some v)
    (hlt : t < scheduler.createdTaskCount) :
    CountInv (scheduler.setVertex t none) (Function.update calls th (.draining t v.successors))
      (.completed t :: log) := by
  have hout : ∀ x, outstanding (scheduler.setVertex t none)
      (Function.update calls th (.draining t v.successors)) x = outstanding scheduler calls x := by
    intro x
    have hdrain := drainingInto_update calls th (.draining t v.successors) x
    have hrecorded := recordedInto_erase hv hlt x
    simp only [hidle, Call.remaining, List.count_nil, Nat.add_zero] at hdrain
    simp only [outstanding]
    omega
  constructor
  case count_eq =>
    intro x u hu
    simp only [hout, List.mem_cons, reduceCtorEq, false_or]
    by_cases hx : x = t
    · subst x
      simp [Scheduler.setVertex] at hu
    · simp only [Scheduler.setVertex, Function.update_of_ne hx] at hu
      exact h.count_eq x u hu
  case released_iff =>
    intro x
    simpa only [Released, hout, List.mem_cons, reduceCtorEq, false_or] using h.released_iff x
  case unfinished_eq =>
    change scheduler.unfinishedTaskCount = _
    rw [h.unfinished_eq]
    simp [unfinishedTasks, Scheduler.setVertex]

theorem CountInv.finish (h : CountInv scheduler calls log) {th : Th} {t : TaskId}
    (hcall : calls th = .draining t []) (hlt : t < scheduler.createdTaskCount)
    (hcalled : .commitCalled t ∈ log) (hfinished : .finished t ∉ log) :
    CountInv scheduler.decrementUnfinished (Function.update calls th .idle)
      (.finished t :: log) := by
  have hout : ∀ x, outstanding scheduler.decrementUnfinished
      (Function.update calls th .idle) x = outstanding scheduler calls x := by
    intro x
    have hdrain := drainingInto_update calls th .idle x
    simp only [hcall, Call.remaining, List.count_nil, Nat.add_zero] at hdrain
    simp only [outstanding, hdrain]
    rfl
  constructor
  case count_eq =>
    intro x v hv
    simp only [hout, List.mem_cons, reduceCtorEq, false_or]
    exact h.count_eq x v hv
  case released_iff =>
    intro x
    simpa only [Released, hout, List.mem_cons, reduceCtorEq, false_or] using h.released_iff x
  case unfinished_eq =>
    have hcard : (unfinishedTasks scheduler.createdTaskCount log).card =
        (unfinishedTasks scheduler.createdTaskCount (.finished t :: log)).card + 1 := by
      apply Counting.card_filter_insert (i := t) (by simpa using hlt)
      · simp
      · exact ⟨hcalled, hfinished⟩
      · intro x _ hx
        simp [hx]
    change scheduler.unfinishedTaskCount - 1 = _
    rw [h.unfinished_eq, hcard]
    push_cast
    change _ = ((unfinishedTasks scheduler.createdTaskCount (.finished t :: log)).card : ℤ)
    ring

end Counts

end M3bp.SchedulerCalls
