import M3bp.SchedulerRuns

/-!
Dependency safety and exactly-once release. The order of events is read off
the log: what stands behind a push in the log happened before it.
-/
namespace M3bp.SchedulerCalls

open Finset Transition

def isPush (t : TaskId) : Event → Bool
  | .pushed u _ => u == t
  | _ => false

/-- How often `t` was pushed to any queue. -/
def pushCount (log : List Event) (t : TaskId) : ℕ := log.countP (isPush t)

/-- Each task is pushed at most once, after its commit and after every
predecessor whose edge to it was recorded. -/
structure PushOrder (log : List Event) : Prop where
  once : ∀ t, pushCount log t ≤ 1
  after : ∀ newer older t q, log = newer ++ .pushed t q :: older →
    .committed t ∈ older ∧ ∀ p, .dependency p t ∈ log → .completed p ∈ older

theorem pushCount_eq_zero {log : List Event} {t : TaskId} (h : ¬ Released log t) :
    pushCount log t = 0 := by
  rw [pushCount, List.countP_eq_zero]
  intro e he
  cases e <;> simp only [isPush, Bool.false_eq_true, not_false_eq_true]
  case pushed u q =>
    intro heq
    exact h ⟨q, beq_iff_eq.mp heq ▸ he⟩

theorem PushOrder.other {log : List Event} (h : PushOrder log) {e : Event}
    (hpush : ∀ t q, e ≠ .pushed t q) (hdep : ∀ p t, e = .dependency p t → ¬ Released log t) :
    PushOrder (e :: log) := by
  constructor
  · intro t
    have hzero : isPush t e = false := by
      cases e <;> simp only [isPush]
      case pushed u q => exact absurd rfl (hpush u q)
    simpa [pushCount, hzero] using h.once t
  · intro newer older t q heq
    cases newer with
    | nil =>
      simp only [List.nil_append, List.cons.injEq] at heq
      exact absurd heq.1 (hpush t q)
    | cons e' newer =>
      simp only [List.cons_append, List.cons.injEq] at heq
      obtain ⟨rfl, hlog⟩ := heq
      obtain ⟨hcommitted, hdone⟩ := h.after newer older t q hlog
      refine ⟨hcommitted, fun p hp => hdone p ?_⟩
      rcases List.mem_cons.mp hp with heq | hp
      · exact absurd ⟨q, by rw [hlog]; simp⟩ (hdep p t heq.symm)
      · exact hp

theorem PushOrder.push {log : List Event} (h : PushOrder log) {t : TaskId} {q : QueueRef}
    (hfresh : ¬ Released log t) (hcommitted : .committed t ∈ log)
    (hdone : ∀ p, .dependency p t ∈ log → .completed p ∈ log) :
    PushOrder (.pushed t q :: log) := by
  constructor
  · intro u
    by_cases hu : t = u
    · subst u
      have hzero := pushCount_eq_zero hfresh
      simp only [pushCount] at hzero
      simp [pushCount, isPush, hzero]
    · simpa [pushCount, isPush, hu] using h.once u
  · intro newer older u r heq
    cases newer with
    | nil =>
      simp only [List.nil_append, List.cons.injEq, Event.pushed.injEq] at heq
      obtain ⟨⟨rfl, rfl⟩, rfl⟩ := heq
      exact ⟨hcommitted, fun p hp => hdone p (by simpa using hp)⟩
    | cons e newer =>
      simp only [List.cons_append, List.cons.injEq] at heq
      obtain ⟨rfl, hlog⟩ := heq
      obtain ⟨hc, hd⟩ := h.after newer older u r hlog
      exact ⟨hc, fun p hp => hd p (by simpa using hp)⟩

variable {Th : Type} [Fintype Th] {s : System Th}

/-- Once a task is released, every predecessor with a recorded edge is complete. -/
theorem Inv.predecessor_completed (h : Inv s) {p t : TaskId} (hreleased : Released s.log t)
    (hdep : .dependency p t ∈ s.log) : .completed p ∈ s.log := by
  by_contra hlive
  have hmem := h.data.dependency_recorded p t hdep hlive
  have hsome := Scheduler.live_of_mem_successors hmem
  have hlt := (h.log.created_iff p).mp ((h.data.live_iff p).mp hsome).1
  have hzero := ((h.count.released_iff t).mp hreleased).2
  have hle : (s.scheduler.successors p).count t ≤ recordedInto s.scheduler t :=
    Finset.single_le_sum (f := fun p => (s.scheduler.successors p).count t)
      (fun _ _ => Nat.zero_le _) (by simpa using hlt)
  have hpos := List.count_pos_iff.mpr hmem
  unfold outstanding at hzero
  omega

variable [DecidableEq Th]

/-- What one decrement adds to the log. -/
theorem decrement_pushOrder {lm : LocalityManager} {draw : WorkerId} {th : Th} {t : TaskId}
    {next : Call} {events : List Event} (h : Inv s) (hcreated : .created t ∈ s.log)
    (hunreleased : ¬ Released s.log t)
    (hinv : Inv (s.decrement lm draw th t next events))
    (hpush : ∀ u q, .pushed u q ∉ events) (horder : PushOrder (events ++ s.log)) :
    PushOrder (s.decrement lm draw th t next events).log := by
  obtain ⟨v, hv, htask⟩ := live_of_unreleased h.log h.data hcreated hunreleased
  by_cases hone : v.predecessorCount = 1
  · rw [System.decrement_push hv hone htask] at hinv ⊢
    have hreleased : Released (.pushed t (Scheduler.targetQueue lm draw v.localityOption) ::
        (events ++ s.log)) t := ⟨_, List.mem_cons_self⟩
    have hfresh : ¬ Released (events ++ s.log) t := by
      rintro ⟨q, hq⟩
      rcases List.mem_append.mp hq with hq | hq
      · exact hpush t q hq
      · exact hunreleased ⟨q, hq⟩
    apply horder.push hfresh
    · simpa using ((hinv.count.released_iff t).mp hreleased).1
    · intro p hp
      simpa using hinv.predecessor_completed (p := p) hreleased (List.mem_cons_of_mem _ hp)
  · rw [System.decrement_keep hv hone]
    exact horder

theorem step_pushOrder {lm : LocalityManager} {s' : System Th} (hstep : Step lm s s')
    (h : Inv s) (horder : PushOrder s.log) : PushOrder s'.log := by
  have hinv := step_inv hstep h
  cases hstep with
  | createPhysicalTask th option hidle => exact horder.other (by simp) (by simp)
  | addDependency th p t hidle hcreated hunreleased =>
    have hcons : PushOrder (.dependency p t :: s.log) :=
      horder.other (by simp) (by rintro p' t' heq; cases heq; exact hunreleased)
    unfold System.addDependency
    split
    · exact horder
    · split
      · exact hcons
      · exact horder
  | commitTask th t hidle hcreated honce => exact horder.other (by simp) (by simp)
  | commitDecrement th t draw hcall =>
    obtain ⟨hcalled, hnot⟩ := h.log.committing th t hcall
    exact decrement_pushOrder h (h.log.called_created t hcalled)
      (h.count.unreleased_of_not_committed hnot) hinv (by simp) (horder.other (by simp) (by simp))
  | takeRunnableTask th worker q t scheduler hidle hpop => exact horder.other (by simp) (by simp)
  | notifyTaskCompletion th t hidle htaken honce =>
    unfold System.beginCompletion
    split
    · exact horder
    · exact horder.other (by simp) (by simp)
  | drain th t x rest draw hcall =>
    have hdep := (h.log.draining th t _ hcall).2.2 x List.mem_cons_self
    have hpos : 0 < outstanding s.scheduler s.calls x :=
      Nat.add_pos_right _ (drainingInto_pos th (by simp [hcall, Call.remaining]))
    exact decrement_pushOrder h (h.log.dependency_created t x hdep)
      (h.count.unreleased_of_outstanding hpos) hinv (by simp) horder
  | finishCompletion th t hcall => exact horder.other (by simp) (by simp)

theorem run_pushOrder {lm : LocalityManager} (hrun : Run lm s) : PushOrder s.log := by
  refine Reachable.invariant_under (Q := Inv) (P := fun s => PushOrder s.log)
    (fun _ => run_inv) ?_ ?_ hrun
  · rintro s rfl
    constructor <;> simp [System.initial, pushCount]
  · intro s s' h _ horder hstep
    exact step_pushOrder hstep h horder

/-- No assertion of the scheduler fails in any run of permitted callers, every
count is the commit that is owed plus the edges that are owed, and tasks are
pushed at most once, after their commit and after their recorded predecessors. -/
theorem dependency_safety {lm : LocalityManager} (hrun : Run lm s) :
    (∀ t, pushCount s.log t ≤ 1) ∧
    (∀ q t, t ∈ s.scheduler.queues q ↔ .pushed t q ∈ s.log ∧ .taken t ∉ s.log) ∧
    (∀ newer older t q, s.log = newer ++ .pushed t q :: older →
      .committed t ∈ older ∧ ∀ p, .dependency p t ∈ s.log → .completed p ∈ older) ∧
    (∀ t v, s.scheduler.vertices t = some v →
      v.predecessorCount = (if .committed t ∈ s.log then 0 else 1) +
        (outstanding s.scheduler s.calls t : ℤ) ∧ 0 ≤ v.predecessorCount) ∧
    s.asserted = false := by
  have h := run_inv hrun
  have horder := run_pushOrder hrun
  refine ⟨horder.once, ?_, horder.after, ?_, h.safe⟩
  · intro q t
    exact ⟨h.data.queued q t, fun ⟨hp, ht⟩ => h.data.pushed_queued q t hp ht⟩
  · intro t v hv
    have hcount := h.count.count_eq t v hv
    refine ⟨hcount, ?_⟩
    rw [hcount]
    split <;> omega

/-- One thread links task 0 to task 1, commits both, and runs task 0: the
drained edge releases task 1. -/
theorem dependency_safety_chain : ∃ s : System (Fin 1), Run LocalityManager.default s ∧
    .pushed 1 (.stealable 0) ∈ s.log ∧ pushCount s.log 1 ≤ 1 ∧ s.asserted = false := by
  have hunreleased : ¬ Released
      (((System.initial : System (Fin 1)).createPhysicalTask {}).createPhysicalTask {}).log 1 := by
    rintro ⟨q, hq⟩
    simp [System.createPhysicalTask, System.initial] at hq
  have hrun : Run LocalityManager.default _ :=
    .next (.next (.next (.next (.next (.next (.next (.next (.next (.next (.start rfl)
      (.createPhysicalTask _ 0 {} rfl))
      (.createPhysicalTask _ 0 {} rfl))
      (.addDependency _ 0 0 1 rfl (by decide) hunreleased))
      (.commitTask _ 0 1 rfl (by decide) (by decide)))
      (.commitDecrement _ 0 1 0 rfl))
      (.commitTask _ 0 0 rfl (by decide) (by decide)))
      (.commitDecrement _ 0 0 0 rfl))
      (.takeRunnableTask _ 0 0 (.stealable 0) 0 _ rfl (.localStealable rfl)))
      (.notifyTaskCompletion _ 0 0 rfl (by decide) (by decide)))
      (.drain _ 0 0 1 [] 0 rfl)
  exact ⟨_, hrun, by decide, (dependency_safety hrun).1 1, (dependency_safety hrun).2.2.2.2⟩

end M3bp.SchedulerCalls
