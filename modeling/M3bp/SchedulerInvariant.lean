import M3bp.SchedulerCalls

/-!
The invariant of the scheduler under concurrent calls. The count of a live
vertex is one for its own commit, while that is outstanding, plus the recorded
edges into it whose decrement is outstanding; such an edge is either still in
the successor list of a live predecessor or in the list that a completing
thread is draining.
-/
namespace M3bp.SchedulerCalls

open Finset Transition

variable {Th : Type}

/-- What the events of the log say about one another and about the calls.
The number `n` is the number of tasks created so far. -/
structure LogInv (n : ℕ) (calls : Th → Call) (log : List Event) : Prop where
  created_iff : ∀ t, .created t ∈ log ↔ t < n
  dependency_created : ∀ p t, .dependency p t ∈ log → .created t ∈ log
  called_created : ∀ t, .commitCalled t ∈ log → .created t ∈ log
  committed_called : ∀ t, .committed t ∈ log → .commitCalled t ∈ log
  called_progress : ∀ t, .commitCalled t ∈ log →
    .committed t ∈ log ∨ ∃ th, calls th = .committing t
  committing : ∀ th t, calls th = .committing t → .commitCalled t ∈ log ∧ .committed t ∉ log
  committing_unique : ∀ th th' t, calls th = .committing t → calls th' = .committing t → th = th'
  taken_released : ∀ t, .taken t ∈ log → Released log t
  completed_taken : ∀ t, .completed t ∈ log → .taken t ∈ log
  finished_completed : ∀ t, .finished t ∈ log → .completed t ∈ log
  completed_progress : ∀ t, .completed t ∈ log →
    .finished t ∈ log ∨ ∃ th rest, calls th = .draining t rest
  draining : ∀ th t rest, calls th = .draining t rest →
    .completed t ∈ log ∧ .finished t ∉ log ∧ ∀ x ∈ rest, .dependency t x ∈ log
  draining_unique : ∀ th th' t rest rest', calls th = .draining t rest →
    calls th' = .draining t rest' → th = th'

/-- What the queues and the vertices hold. -/
structure DataInv (scheduler : Scheduler) (log : List Event) : Prop where
  live_iff : ∀ t, (scheduler.vertices t).isSome ↔ .created t ∈ log ∧ .completed t ∉ log
  pointer : ∀ t v, scheduler.vertices t = some v →
    (Released log t → v.physicalTask = none) ∧ (¬ Released log t → v.physicalTask = some t)
  dependency_recorded : ∀ p t, .dependency p t ∈ log → .completed p ∉ log →
    t ∈ scheduler.successors p
  recorded_dependency : ∀ p t, t ∈ scheduler.successors p → .dependency p t ∈ log
  queued : ∀ q t, t ∈ scheduler.queues q → .pushed t q ∈ log ∧ .taken t ∉ log
  queue_nodup : ∀ q, (scheduler.queues q).Nodup
  pushed_queued : ∀ q t, .pushed t q ∈ log → .taken t ∉ log → t ∈ scheduler.queues q
  pushed_unique : ∀ q q' t, .pushed t q ∈ log → .pushed t q' ∈ log → q = q'

/-- Edges into `t` held in the successor lists of live vertices. -/
def recordedInto (scheduler : Scheduler) (t : TaskId) : ℕ :=
  ∑ p ∈ range scheduler.createdTaskCount, (scheduler.successors p).count t

/-- Edges into `t` that completing threads have moved out and not yet drained. -/
def drainingInto [Fintype Th] (calls : Th → Call) (t : TaskId) : ℕ :=
  ∑ th, (calls th).remaining.count t

/-- Recorded edges into `t` whose decrement is still outstanding. -/
def outstanding [Fintype Th] (scheduler : Scheduler) (calls : Th → Call) (t : TaskId) : ℕ :=
  recordedInto scheduler t + drainingInto calls t

/-- Tasks that are counted as unfinished: committed, and not through with
`notify_task_completion`. -/
def unfinishedTasks (n : ℕ) (log : List Event) : Finset TaskId :=
  (range n).filter fun t => .commitCalled t ∈ log ∧ .finished t ∉ log

/-- The counters. -/
structure CountInv [Fintype Th] (scheduler : Scheduler) (calls : Th → Call)
    (log : List Event) : Prop where
  count_eq : ∀ t v, scheduler.vertices t = some v →
    v.predecessorCount =
      (if .committed t ∈ log then 0 else 1) + (outstanding scheduler calls t : ℤ)
  released_iff : ∀ t, Released log t ↔
    .committed t ∈ log ∧ outstanding scheduler calls t = 0
  unfinished_eq : scheduler.unfinishedTaskCount =
    (unfinishedTasks scheduler.createdTaskCount log).card

structure Inv [Fintype Th] (s : System Th) : Prop where
  safe : s.asserted = false
  log : LogInv s.scheduler.createdTaskCount s.calls s.log
  data : DataInv s.scheduler s.log
  count : CountInv s.scheduler s.calls s.log

/-! The log under each kind of step. -/

section Log

variable {n : ℕ} {calls : Th → Call} {log : List Event}

theorem LogInv.create (h : LogInv n calls log) : LogInv (n + 1) calls (.created n :: log) := by
  obtain ⟨h1, h2, h3, h4, h5, h6, h7, h8, h9, h10, h11, h12, h13⟩ := h
  constructor <;> try simp only [Released, List.mem_cons, reduceCtorEq, Event.created.injEq,
    false_or]
  case created_iff =>
    intro t
    rw [h1]
    grind
  all_goals grind [Released]

theorem LogInv.depend (h : LogInv n calls log) {p t : TaskId} (ht : .created t ∈ log) :
    LogInv n calls (.dependency p t :: log) := by
  obtain ⟨h1, h2, h3, h4, h5, h6, h7, h8, h9, h10, h11, h12, h13⟩ := h
  constructor <;> try simp only [Released, List.mem_cons, reduceCtorEq, Event.dependency.injEq,
    false_or]
  all_goals grind [Released]

theorem LogInv.push (h : LogInv n calls log) (t : TaskId) (q : QueueRef) :
    LogInv n calls (.pushed t q :: log) := by
  obtain ⟨h1, h2, h3, h4, h5, h6, h7, h8, h9, h10, h11, h12, h13⟩ := h
  constructor <;> try simp only [Released, List.mem_cons, reduceCtorEq, Event.pushed.injEq,
    false_or]
  all_goals grind [Released]

theorem LogInv.take (h : LogInv n calls log) {t : TaskId} (ht : Released log t) :
    LogInv n calls (.taken t :: log) := by
  obtain ⟨h1, h2, h3, h4, h5, h6, h7, h8, h9, h10, h11, h12, h13⟩ := h
  constructor <;> try simp only [Released, List.mem_cons, reduceCtorEq, Event.taken.injEq,
    false_or]
  all_goals grind [Released]

variable [DecidableEq Th]

/-- A change of one thread's call keeps what some other call witnesses. -/
theorem exists_call_update {th : Th} {next : Call} {P : Call → Prop}
    (h : ∃ th', P (calls th')) (hth : P (calls th) → P next) :
    ∃ th', P (Function.update calls th next th') := by
  obtain ⟨th', hP⟩ := h
  by_cases heq : th' = th
  · subst th'
    exact ⟨th, by simpa using hth hP⟩
  · exact ⟨th', by simpa [heq] using hP⟩

theorem LogInv.callCommit (h : LogInv n calls log) {th : Th} {t : TaskId}
    (hidle : calls th = .idle) (hcreated : .created t ∈ log) (honce : .commitCalled t ∉ log) :
    LogInv n (Function.update calls th (.committing t)) (.commitCalled t :: log) := by
  obtain ⟨h1, h2, h3, h4, h5, h6, h7, h8, h9, h10, h11, h12, h13⟩ := h
  constructor <;> try simp only [Released, List.mem_cons, reduceCtorEq, Event.commitCalled.injEq,
    false_or]
  case called_progress =>
    rintro t' (rfl | ht')
    · exact Or.inr ⟨th, by simp⟩
    · exact (h5 t' ht').imp id fun hp =>
        exists_call_update (P := fun c => c = .committing t') hp (by simp [hidle])
  case completed_progress =>
    intro t' ht'
    exact (h11 t' ht').imp id fun hp =>
      exists_call_update (P := fun c => ∃ rest, c = .draining t' rest) hp (by simp [hidle])
  all_goals grind [Function.update_apply, Released]

theorem LogInv.commit (h : LogInv n calls log) {th : Th} {t : TaskId}
    (hcall : calls th = .committing t) :
    LogInv n (Function.update calls th .idle) (.committed t :: log) := by
  obtain ⟨h1, h2, h3, h4, h5, h6, h7, h8, h9, h10, h11, h12, h13⟩ := h
  constructor <;> try simp only [Released, List.mem_cons, reduceCtorEq, Event.committed.injEq,
    false_or]
  case called_progress =>
    intro t' ht'
    by_cases heq : t' = t
    · exact Or.inl (Or.inl heq)
    · rcases h5 t' ht' with hc | hp
      · exact Or.inl (Or.inr hc)
      · exact Or.inr (exists_call_update (P := fun c => c = .committing t') hp
          (by rw [hcall]; simp [Ne.symm heq]))
  case completed_progress =>
    intro t' ht'
    exact (h11 t' ht').imp id fun hp =>
      exists_call_update (P := fun c => ∃ rest, c = .draining t' rest) hp (by simp [hcall])
  all_goals grind [Function.update_apply, Released]

theorem LogInv.complete (h : LogInv n calls log) {th : Th} {t : TaskId} {rest : List TaskId}
    (hidle : calls th = .idle) (htaken : .taken t ∈ log) (honce : .completed t ∉ log)
    (hrest : ∀ x ∈ rest, .dependency t x ∈ log) :
    LogInv n (Function.update calls th (.draining t rest)) (.completed t :: log) := by
  obtain ⟨h1, h2, h3, h4, h5, h6, h7, h8, h9, h10, h11, h12, h13⟩ := h
  constructor <;> try simp only [Released, List.mem_cons, reduceCtorEq, Event.completed.injEq,
    false_or]
  case called_progress =>
    intro t' ht'
    exact (h5 t' ht').imp id fun hp =>
      exists_call_update (P := fun c => c = .committing t') hp (by simp [hidle])
  case completed_progress =>
    rintro t' (rfl | ht')
    · exact Or.inr ⟨th, rest, by simp⟩
    · exact (h11 t' ht').imp id fun hp =>
        exists_call_update (P := fun c => ∃ rest, c = .draining t' rest) hp (by simp [hidle])
  all_goals grind [Function.update_apply, Released]

theorem LogInv.drain (h : LogInv n calls log) {th : Th} {t x : TaskId} {rest : List TaskId}
    (hcall : calls th = .draining t (x :: rest)) :
    LogInv n (Function.update calls th (.draining t rest)) log := by
  obtain ⟨h1, h2, h3, h4, h5, h6, h7, h8, h9, h10, h11, h12, h13⟩ := h
  constructor
  case called_progress =>
    intro t' ht'
    exact (h5 t' ht').imp id fun hp =>
      exists_call_update (P := fun c => c = .committing t') hp (by simp [hcall])
  case completed_progress =>
    intro t' ht'
    exact (h11 t' ht').imp id fun hp =>
      exists_call_update (P := fun c => ∃ rest, c = .draining t' rest) hp
        (by rw [hcall]; rintro ⟨r, hr⟩; cases hr; exact ⟨rest, rfl⟩)
  all_goals grind [Function.update_apply]

theorem LogInv.finish (h : LogInv n calls log) {th : Th} {t : TaskId}
    (hcall : calls th = .draining t []) :
    LogInv n (Function.update calls th .idle) (.finished t :: log) := by
  obtain ⟨h1, h2, h3, h4, h5, h6, h7, h8, h9, h10, h11, h12, h13⟩ := h
  constructor <;> try simp only [Released, List.mem_cons, reduceCtorEq, Event.finished.injEq,
    false_or]
  case called_progress =>
    intro t' ht'
    exact (h5 t' ht').imp id fun hp =>
      exists_call_update (P := fun c => c = .committing t') hp (by simp [hcall])
  case completed_progress =>
    intro t' ht'
    by_cases heq : t' = t
    · exact Or.inl (Or.inl heq)
    · rcases h11 t' ht' with hf | hp
      · exact Or.inl (Or.inr hf)
      · exact Or.inr (exists_call_update (P := fun c => ∃ rest, c = .draining t' rest) hp
          (by rw [hcall]; rintro ⟨r, hr⟩; cases hr; exact absurd rfl heq))
  all_goals grind [Function.update_apply, Released]

end Log

/-! The vertices and the queues under each kind of step. -/

section Data

variable {scheduler : Scheduler} {log : List Event}

/-- Only these events are read by `DataInv`. -/
theorem DataInv.log_congr {log' : List Event} (h : DataInv scheduler log)
    (hcreated : ∀ t, .created t ∈ log' ↔ .created t ∈ log)
    (hcompleted : ∀ t, .completed t ∈ log' ↔ .completed t ∈ log)
    (hdependency : ∀ p t, .dependency p t ∈ log' ↔ .dependency p t ∈ log)
    (hpushed : ∀ t q, .pushed t q ∈ log' ↔ .pushed t q ∈ log)
    (htaken : ∀ t, .taken t ∈ log' ↔ .taken t ∈ log) : DataInv scheduler log' := by
  obtain ⟨h1, h2, h3, h4, h5, h6, h7, h8⟩ := h
  constructor <;> try simp only [Released, hcreated, hcompleted, hdependency, hpushed, htaken]
  all_goals assumption

theorem DataInv.callCommit (h : DataInv scheduler log) (t : TaskId) :
    DataInv scheduler.incrementUnfinished (.commitCalled t :: log) :=
  (h.log_congr (by simp) (by simp) (by simp) (by simp) (by simp) :
    DataInv scheduler (.commitCalled t :: log)) |> fun h => ⟨h.1, h.2, h.3, h.4, h.5, h.6, h.7, h.8⟩

theorem DataInv.finish (h : DataInv scheduler log) (t : TaskId) :
    DataInv scheduler.decrementUnfinished (.finished t :: log) :=
  (h.log_congr (by simp) (by simp) (by simp) (by simp) (by simp) :
    DataInv scheduler (.finished t :: log)) |> fun h => ⟨h.1, h.2, h.3, h.4, h.5, h.6, h.7, h.8⟩

theorem DataInv.commit (h : DataInv scheduler log) (t : TaskId) :
    DataInv scheduler (.committed t :: log) :=
  h.log_congr (by simp) (by simp) (by simp) (by simp) (by simp)

theorem DataInv.create (h : DataInv scheduler log) (option : LocalityOption)
    (hfresh : .created scheduler.createdTaskCount ∉ log)
    (hunreleased : ¬ Released log scheduler.createdTaskCount)
    (hlive : .completed scheduler.createdTaskCount ∉ log) :
    DataInv (scheduler.createPhysicalTask option)
      (.created scheduler.createdTaskCount :: log) := by
  have hnone : scheduler.vertices scheduler.createdTaskCount = none := by
    have h1 := h.live_iff scheduler.createdTaskCount
    simp only [hfresh, false_and, iff_false, Bool.not_eq_true, Option.isSome_eq_false_iff,
      Option.isNone_iff_eq_none] at h1
    exact h1
  have hsucc : ∀ p, (scheduler.createPhysicalTask option).successors p =
      scheduler.successors p := by
    intro p
    by_cases hp : p = scheduler.createdTaskCount
    · subst p
      simp [Scheduler.successors, Scheduler.createPhysicalTask, Scheduler.setVertex, hnone,
        PhysicalVertex.new]
    · simp [Scheduler.successors, Scheduler.createPhysicalTask, Scheduler.setVertex, hp]
  obtain ⟨h1, h2, h3, h4, h5, h6, h7, h8⟩ := h
  constructor
  case live_iff =>
    intro t
    by_cases ht : t = scheduler.createdTaskCount
    · subst t
      simp [Scheduler.createPhysicalTask, Scheduler.setVertex, hlive]
    · simpa [Scheduler.createPhysicalTask, Scheduler.setVertex, ht] using h1 t
  case pointer =>
    intro t v hv
    by_cases ht : t = scheduler.createdTaskCount
    · subst t
      simp only [Scheduler.createPhysicalTask, Scheduler.setVertex, Function.update_self,
        Option.some.injEq] at hv
      subst v
      simp only [Released, List.mem_cons, reduceCtorEq, false_or]
      exact ⟨fun hr => absurd hr hunreleased, fun _ => rfl⟩
    · simp only [Scheduler.createPhysicalTask, Scheduler.setVertex,
        Function.update_of_ne ht] at hv
      simpa only [Released, List.mem_cons, reduceCtorEq, false_or] using h2 t v hv
  case dependency_recorded => simpa [hsucc] using h3
  case recorded_dependency => simpa [hsucc] using h4
  case queued => simpa [Scheduler.createPhysicalTask, Scheduler.setVertex] using h5
  case queue_nodup => exact h6
  case pushed_queued => simpa [Scheduler.createPhysicalTask, Scheduler.setVertex] using h7
  case pushed_unique => simpa using h8

theorem DataInv.depend (h : DataInv scheduler log) {p t : TaskId} {pred : PhysicalVertex}
    (hp : scheduler.vertices p = some pred) :
    DataInv (scheduler.recordEdge p t) (.dependency p t :: log) := by
  have hsucc := fun x => Scheduler.successors_recordEdge t hp x
  obtain ⟨h1, h2, h3, h4, h5, h6, h7, h8⟩ := h
  constructor
  case live_iff => simpa [Scheduler.recordEdge] using h1
  case pointer =>
    intro x v hv
    simp only [Scheduler.recordEdge, Option.map_eq_some_iff] at hv
    obtain ⟨u, hu, rfl⟩ := hv
    simpa only [Released, List.mem_cons, reduceCtorEq, false_or, Scheduler.linked] using h2 x u hu
  case dependency_recorded =>
    intro x y hdep hlive
    rw [hsucc]
    grind
  case recorded_dependency =>
    intro x y hmem
    rw [hsucc] at hmem
    grind
  case queued => simpa [Scheduler.recordEdge] using h5
  case queue_nodup => exact h6
  case pushed_queued => simpa [Scheduler.recordEdge] using h7
  case pushed_unique => simpa using h8

/-- A decrement that leaves a positive count changes only the count. -/
theorem DataInv.keep (h : DataInv scheduler log) {t : TaskId} {v : PhysicalVertex}
    (hv : scheduler.vertices t = some v) (count : ℤ) :
    DataInv (scheduler.setVertex t (some { v with predecessorCount := count })) log := by
  have hsucc : ∀ x, (scheduler.setVertex t (some { v with predecessorCount := count })).successors x
      = scheduler.successors x := by
    intro x
    by_cases hx : x = t
    · subst x
      simp [Scheduler.successors, Scheduler.setVertex, hv]
    · simp [Scheduler.successors, Scheduler.setVertex, hx]
  obtain ⟨h1, h2, h3, h4, h5, h6, h7, h8⟩ := h
  constructor
  case live_iff =>
    intro x
    by_cases hx : x = t
    · subst x
      simpa [Scheduler.setVertex, hv] using h1 t
    · simpa [Scheduler.setVertex, hx] using h1 x
  case pointer =>
    intro x u hu
    by_cases hx : x = t
    · subst x
      simp only [Scheduler.setVertex, Function.update_self, Option.some.injEq] at hu
      subst u
      exact h2 t v hv
    · simp only [Scheduler.setVertex, Function.update_of_ne hx] at hu
      exact h2 x u hu
  case dependency_recorded => simpa only [hsucc] using h3
  case recorded_dependency => simpa only [hsucc] using h4
  case queued => exact h5
  case queue_nodup => exact h6
  case pushed_queued => exact h7
  case pushed_unique => exact h8

/-- A decrement to zero moves the task pointer from the vertex to one queue. -/
theorem DataInv.push (h : DataInv scheduler log) {t : TaskId} {v : PhysicalVertex}
    {q : QueueRef} (hv : scheduler.vertices t = some v) (hunreleased : ¬ Released log t)
    (htaken : .taken t ∉ log) :
    DataInv ((scheduler.setVertex t
      (some { v with predecessorCount := 0, physicalTask := none })).pushBack q t)
      (.pushed t q :: log) := by
  have hkept := h.keep hv 0
  have hsucc : ∀ x, ((scheduler.setVertex t
      (some { v with predecessorCount := 0, physicalTask := none })).pushBack q t).successors x
      = scheduler.successors x := by
    intro x
    by_cases hx : x = t
    · subst x
      simp [Scheduler.successors, Scheduler.setVertex, Scheduler.pushBack, Scheduler.setQueue, hv]
    · simp [Scheduler.successors, Scheduler.setVertex, Scheduler.pushBack, Scheduler.setQueue, hx]
  have hnotQueued : ∀ q', t ∉ scheduler.queues q' := fun q' hmem =>
    hunreleased ⟨q', (h.queued q' t hmem).1⟩
  obtain ⟨h1, h2, h3, h4, h5, h6, h7, h8⟩ := h
  constructor
  case live_iff =>
    intro x
    by_cases hx : x = t
    · subst x
      simpa [Scheduler.setVertex, Scheduler.pushBack, Scheduler.setQueue, hv] using h1 t
    · simpa [Scheduler.setVertex, Scheduler.pushBack, Scheduler.setQueue, hx] using h1 x
  case pointer =>
    intro x u hu
    by_cases hx : x = t
    · subst x
      simp only [Scheduler.setVertex, Scheduler.pushBack, Scheduler.setQueue,
        Function.update_self, Option.some.injEq] at hu
      subst u
      exact ⟨fun _ => rfl, fun hn => absurd ⟨q, List.mem_cons_self⟩ hn⟩
    · simp only [Scheduler.setVertex, Scheduler.pushBack, Scheduler.setQueue,
        Function.update_of_ne hx] at hu
      have hiff : Released (.pushed t q :: log) x ↔ Released log x := by
        simp [Released, hx]
      rw [hiff]
      exact h2 x u hu
  case dependency_recorded =>
    intro p x hdep hlive
    rw [hsucc]
    exact h3 p x (by simpa using hdep) (by simpa using hlive)
  case recorded_dependency =>
    intro p x hmem
    rw [hsucc] at hmem
    exact List.mem_cons_of_mem _ (h4 p x hmem)
  case queued =>
    intro q' x hmem
    simp only [Scheduler.setVertex, Scheduler.pushBack, Scheduler.setQueue] at hmem
    grind [Function.update_apply]
  case queue_nodup =>
    intro q'
    by_cases hq : q' = q
    · subst q'
      simp only [Scheduler.setVertex, Scheduler.pushBack, Scheduler.setQueue, Function.update_self]
      exact List.nodup_append'.mpr ⟨h6 q, by simp, by simpa using hnotQueued q⟩
    · simpa [Scheduler.setVertex, Scheduler.pushBack, Scheduler.setQueue, hq] using h6 q'
  case pushed_queued =>
    intro q' x hpush htk
    simp only [Scheduler.setVertex, Scheduler.pushBack, Scheduler.setQueue]
    grind [Function.update_apply]
  case pushed_unique =>
    intro q' q'' x hq' hq''
    have hreleased : ∀ r, Event.pushed t r ∉ log := fun r hr => hunreleased ⟨r, hr⟩
    grind

theorem DataInv.erase (h : DataInv scheduler log) (t : TaskId) :
    DataInv (scheduler.setVertex t none) (.completed t :: log) := by
  have hsucc : ∀ x, (scheduler.setVertex t none).successors x =
      if x = t then [] else scheduler.successors x := by
    intro x
    by_cases hx : x = t
    · subst x
      simp [Scheduler.successors, Scheduler.setVertex]
    · simp [Scheduler.successors, Scheduler.setVertex, hx]
  obtain ⟨h1, h2, h3, h4, h5, h6, h7, h8⟩ := h
  constructor
  case live_iff =>
    intro x
    by_cases hx : x = t
    · subst x
      simp [Scheduler.setVertex]
    · simpa [Scheduler.setVertex, hx] using h1 x
  case pointer =>
    intro x u hu
    by_cases hx : x = t
    · subst x
      simp [Scheduler.setVertex] at hu
    · simp only [Scheduler.setVertex, Function.update_of_ne hx] at hu
      simpa only [Released, List.mem_cons, reduceCtorEq, false_or] using h2 x u hu
  case dependency_recorded =>
    intro p x hdep hlive
    rw [hsucc]
    grind
  case recorded_dependency =>
    intro p x hmem
    rw [hsucc] at hmem
    grind
  case queued => simpa [Scheduler.setVertex] using h5
  case queue_nodup => exact h6
  case pushed_queued => simpa [Scheduler.setVertex] using h7
  case pushed_unique => simpa using h8

theorem DataInv.take (h : DataInv scheduler log) {q : QueueRef} {t : TaskId}
    {rest : List TaskId} (hperm : (scheduler.queues q).Perm (t :: rest)) :
    DataInv (scheduler.setQueue q rest) (.taken t :: log) := by
  have hnodup : (t :: rest).Nodup := hperm.nodup_iff.mp (h.queue_nodup q)
  have hmem : ∀ x, x ∈ scheduler.queues q ↔ x = t ∨ x ∈ rest := by
    intro x
    rw [hperm.mem_iff, List.mem_cons]
  obtain ⟨hnot, hrest⟩ := List.nodup_cons.mp hnodup
  obtain ⟨h1, h2, h3, h4, h5, h6, h7, h8⟩ := h
  have hpushed : Event.pushed t q ∈ log := (h5 q t ((hmem t).mpr (Or.inl rfl))).1
  constructor
  case live_iff => simpa [Scheduler.setQueue] using h1
  case pointer =>
    intro x u hu
    simpa only [Released, List.mem_cons, reduceCtorEq, false_or] using h2 x u hu
  case dependency_recorded =>
    intro p x hdep hlive
    exact h3 p x (by simpa using hdep) (by simpa using hlive)
  case recorded_dependency => exact fun p x hx => List.mem_cons_of_mem _ (h4 p x hx)
  case queued =>
    intro q' x hx
    simp only [Scheduler.setQueue] at hx
    grind [Function.update_apply]
  case queue_nodup =>
    intro q'
    by_cases hq : q' = q
    · subst q'
      simpa [Scheduler.setQueue] using hrest
    · simpa [Scheduler.setQueue, hq] using h6 q'
  case pushed_queued =>
    intro q' x hpush htk
    simp only [Scheduler.setQueue]
    grind [Function.update_apply]
  case pushed_unique => simpa using h8

end Data

end M3bp.SchedulerCalls
