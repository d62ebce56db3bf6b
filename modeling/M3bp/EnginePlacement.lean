import M3bp.EngineProgress

/-!
Where released tasks are put. A stealable task goes to a queue of a node, any other to the
queue of the worker it is meant for, and only finalizers are meant for a worker. So whatever
is in a queue is within the reach of some worker.
-/
namespace M3bp.Engine

open SchedulerCalls Transition

variable {n : ℕ}

/-- A queue that the scheduler of `n` workers has. -/
def Served (n : ℕ) (lm : LocalityManager) : QueueRef → Prop
  | .stealable node => node < lm.nodeCount
  | .unstealable worker => worker < n

/-- The tasks that are meant for a worker are meant for one of the `n` workers. -/
def Placeable (n : ℕ) (option : LocalityOption) : Prop :=
  option.isStealable = true ∨ option.recommendedWorker < n

/-- Every queue in use is there, and every vertex leads to one. -/
structure Placed (n : ℕ) (lm : LocalityManager) (s : Scheduler) : Prop where
  options : ∀ t v, s.vertices t = some v → Placeable n v.localityOption
  queues : ∀ q, s.queues q ≠ [] → Served n lm q

section Scheduler

variable {lm : LocalityManager} {s s' : Scheduler} {t : TaskId} {draw : WorkerId}

theorem served_targetQueue {option : LocalityOption} (h : Placeable n option) :
    Served n lm (Scheduler.targetQueue lm draw option) := by
  unfold Scheduler.targetQueue
  split
  · exact lm.mapped _
  · next hstealable => exact h.resolve_left hstealable

theorem placed_empty : Placed n lm Scheduler.empty :=
  ⟨fun _ _ => nofun, fun _ hq => absurd rfl hq⟩

theorem Placed.congr (h : Placed n lm s) (hvertices : s'.vertices = s.vertices)
    (hqueues : s'.queues = s.queues) : Placed n lm s' := by
  refine ⟨?_, ?_⟩
  · rw [hvertices]
    exact h.options
  · rw [hqueues]
    exact h.queues

theorem Placed.setVertex (h : Placed n lm s) {v : Option PhysicalVertex}
    (hv : ∀ v', v = some v' → Placeable n v'.localityOption) : Placed n lm (s.setVertex t v) := by
  refine ⟨fun u v' hv' => ?_, h.queues⟩
  by_cases hu : u = t
  · subst hu
    simp only [Scheduler.setVertex, Function.update_self] at hv'
    exact hv v' hv'
  · simp only [Scheduler.setVertex, Function.update_of_ne hu] at hv'
    exact h.options u v' hv'

theorem Placed.setQueue (h : Placed n lm s) {q : QueueRef} {tasks : List TaskId}
    (hq : tasks ≠ [] → Served n lm q) : Placed n lm (s.setQueue q tasks) := by
  refine ⟨h.options, fun q' hq' => ?_⟩
  by_cases heq : q' = q
  · subst heq
    simp only [Scheduler.setQueue, Function.update_self] at hq'
    exact hq hq'
  · simp only [Scheduler.setQueue, Function.update_of_ne heq] at hq'
    exact h.queues q' hq'

theorem Placed.create (h : Placed n lm s) {option : LocalityOption} (hoption : Placeable n option) :
    Placed n lm (s.createPhysicalTask option) := by
  have hvertex : Placed n lm (s.setVertex s.createdTaskCount
      (some (PhysicalVertex.new option s.createdTaskCount))) := by
    apply h.setVertex
    intro v' hv'
    cases hv'
    exact hoption
  exact hvertex.congr rfl rfl

theorem Placed.addDependency (h : Placed n lm s) {p : TaskId}
    (hs' : s.addDependency p t = some s') : Placed n lm s' := by
  unfold Scheduler.addDependency at hs'
  split at hs'
  · cases hs'
    exact h
  · next pred hpred =>
    split at hs'
    · cases hs'
    · cases hs'
      have hfirst : Placed n lm (s.setVertex p
          (some { pred with successors := pred.successors ++ [t] })) := by
        apply h.setVertex
        intro v' hv'
        cases hv'
        exact h.options p pred hpred
      apply hfirst.setVertex
      intro v' hv'
      obtain ⟨v, hv, rfl⟩ := Option.map_eq_some_iff.mp hv'
      exact hfirst.options t v hv

theorem Placed.decrement (h : Placed n lm s) {q : Option QueueRef}
    (hs' : s.decrementPredecessorCount lm draw t = some (s', q)) : Placed n lm s' := by
  unfold Scheduler.decrementPredecessorCount at hs'
  split at hs'
  · cases hs'
  · next v hv =>
    have hkept : ∀ v' : PhysicalVertex, v'.localityOption = v.localityOption →
        Placed n lm (s.setVertex t (some v')) := by
      intro v' hv'
      apply h.setVertex
      intro v'' hv''
      cases hv''
      rw [hv']
      exact h.options t v hv
    split at hs'
    · split at hs'
      · cases hs'
      · cases hs'
        refine Placed.setQueue ?_ fun _ => served_targetQueue (h.options t v hv)
        exact hkept _ rfl
    · cases hs'
      exact hkept _ rfl

theorem Placed.pops (h : Placed n lm s) {worker : WorkerId} {q : QueueRef}
    (hpop : Scheduler.Pops lm worker s q t s') : Placed n lm s' := by
  obtain ⟨rest, hperm, rfl⟩ := hpop.perm
  apply h.setQueue
  intro _
  apply h.queues q
  intro hnil
  rw [hnil] at hperm
  exact absurd hperm.symm (List.not_perm_cons_nil)

end Scheduler

section System

variable {Th : Type} [DecidableEq Th] {lm : LocalityManager} {s : System Th}

omit [DecidableEq Th] in
theorem Placed.dependency (h : Placed n lm s.scheduler) (p t : TaskId) :
    Placed n lm (s.addDependency p t).scheduler := by
  unfold System.addDependency
  split
  · exact h
  · next scheduler hscheduler => exact h.addDependency hscheduler

theorem Placed.decremented (h : Placed n lm s.scheduler) (draw : WorkerId) (th : Th) (t : TaskId)
    (next : Call) (events : List Event) :
    Placed n lm (s.decrement lm draw th t next events).scheduler := by
  unfold System.decrement
  split
  · exact h
  · next scheduler queue hscheduler => exact h.decrement hscheduler

theorem Placed.completed (h : Placed n lm s.scheduler) (th : Th) (t : TaskId) :
    Placed n lm (s.beginCompletion th t).scheduler := by
  unfold System.beginCompletion Scheduler.eraseVertex
  cases s.scheduler.vertices t with
  | none => exact h
  | some v =>
    apply h.setVertex
    intro v' hv'
    cases hv'

end System

section SetUp

variable {g : LogicalGraph} {lm : LocalityManager} {p : Plan n}

theorem Placed.planCreate (h : Placed n lm p.system.scheduler) (c : Command) :
    Placed n lm (p.create c).system.scheduler := h.create (Or.inl rfl)

theorem Placed.planDepend (h : Placed n lm p.system.scheduler) (a b : TaskId) :
    Placed n lm (p.depend a b).system.scheduler := h.dependency a b

theorem Placed.planCommit (h : Placed n lm p.system.scheduler) (draws : TaskId → WorkerId)
    (t : TaskId) : Placed n lm (p.commit lm draws t).system.scheduler := by
  have hcalled : Placed n lm (p.system.beginCommit none t).scheduler := h.congr rfl rfl
  exact hcalled.decremented (draws t) none t .idle [.committed t]

theorem Placed.planTasks (h : Placed n lm p.system.scheduler) (l : ℕ) (kind : TaskKind) :
    Placed n lm (p.createPhysicalTasks l kind).system.scheduler := by
  cases kind with
  | gather => exact h.planCreate (.gather l)
  | valueSort comparator =>
    apply Placed.planDepend
    exact (h.planCreate _).planCreate _
  | _ =>
    apply Placed.planDepend
    apply Placed.planDepend
    exact ((h.planCreate _).planCreate _).planCreate _

theorem Placed.planCommits (h : Placed n lm p.system.scheduler) (draws : TaskId → WorkerId) (l : ℕ)
    (kind : TaskKind) : Placed n lm (p.commitPhysicalTasks lm draws l kind).system.scheduler := by
  cases kind with
  | gather => exact h.planCommit draws _
  | valueSort comparator => exact (h.planCommit draws _).planCommit draws _
  | _ => exact ((h.planCommit draws _).planCommit draws _).planCommit draws _

theorem placed_setUp (g : LogicalGraph) (lm : LocalityManager) (draws : TaskId → WorkerId) :
    Placed n lm (Plan.setUp g lm draws : Plan n).system.scheduler := by
  exact Plan.setUp_induction g lm draws (P := fun p : Plan n => Placed n lm p.system.scheduler)
    placed_empty (fun p x hp => Placed.planTasks hp x.2 x.1.kind) (fun p e hp => Placed.planDepend hp _ _)
    fun p x hp => Placed.planCommits hp draws x.2 x.1.kind

end SetUp

section Runs

variable {g : LogicalGraph} {lm : LocalityManager} {s s' : State n} {w : Fin n} {t : TaskId}

theorem placeable_of_allows {c : Command} {option : LocalityOption} (h : c.Allows option)
    (hworker : ∀ l worker, c = .threadLocalFinalize l worker → worker < n) :
    Placeable n option := by
  cases c with
  | threadLocalFinalize l worker =>
    right
    have hoption : option = { recommendedWorker := worker, isStealable := false } := h
    rw [hoption]
    exact hworker l worker rfl
  | oneToOneRun | scatterGatherRun | shufflePartition | valueSort => exact Or.inl h
  | _ =>
    left
    have hoption : option = {} := h
    rw [hoption]

theorem run_placed (hwaits : Waits g) (hrun : Run g lm s) : Placed n lm s.system.scheduler := by
  induction hrun with
  | start hinit =>
    obtain ⟨draws, rfl⟩ := hinit
    exact placed_setUp g lm draws
  | @next s s' hrun hstep ih =>
    have h := run_invariant hwaits hrun
    cases hstep with
    | take hidle hpop => exact ih.pops hpop
    | @perform w t op rest e hrunning hcall hprogram heffect =>
      have hmem : op ∈ (s.workers w).program := mem_program hprogram
      rcases heffect.action with hnone | ⟨c, choice, rfl, hallows, haction⟩ |
          ⟨t', c', d, deps, rfl, haction⟩ | ⟨t', rfl, haction⟩
      · simp only [State.apply, hnone]
        exact ih
      · obtain ⟨-, -, -, c₀, hc₀, -⟩ := h.running w t hrunning
        have hfrom := run_fromBarrier hwaits hrun w t c₀ hrunning hc₀ _ hmem
        simp only [State.apply, haction]
        refine ih.create (placeable_of_allows hallows ?_)
        rintro l worker rfl
        exact hfrom.2
      · simp only [State.apply, haction]
        exact ih.dependency _ _
      · simp only [State.apply, haction]
        exact ih.congr rfl rfl
    | complete hrunning hcall hprogram => exact ih.completed _ _
    | commitDecrement hcall => exact ih.decremented _ _ _ _ _
    | drain hcall => exact ih.decremented _ _ _ _ _
    | finish hcall => exact ih.congr rfl rfl
    | leave hidle hfinished => exact ih

end Runs

end M3bp.Engine
