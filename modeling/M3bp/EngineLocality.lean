import M3bp.EnginePartitions
import M3bp.EngineReferences
import M3bp.RandomWorker

/-!
The node that each memory object is bound to, and the nodes that the engine asks a worker
for when it creates a task: the node of a fragment, or that of a partition. All of them have
workers, so that there is always one to recommend.
-/
namespace M3bp.Engine

open SchedulerCalls Transition WorkerPlacement

variable {n : ℕ}

/-- The target node of an allocation. A callback allocates on the node of its worker, a
gather and a value sort without a target. -/
def Op.target (m : WorkerPlacement.LocalityManager) (worker : ℕ) : Op → Option ℕ
  | inCallback _ _ | partitionFragment _ _ => some (m.threadNode worker)
  | sortRecords _ p => some (m.partitionNode p)
  | _ => none

/-- `m_locality` of an object that is allocated for a target. -/
def allocatedOn (affinity : AffinityMode) : Option ℕ → ℕ
  | none => 0
  | some node => if affinity = .none then 0 else node

/-- The engine with the node of each object. -/
structure Localized (n : ℕ) where
  engine : State n
  localities : List ℕ

/-- New objects are bound by the worker that allocates them; those that exist stay where
they are. -/
inductive Localized.Step (g : LogicalGraph) (lm : M3bp.LocalityManager)
    (m : WorkerPlacement.LocalityManager) (affinity : AffinityMode) :
    Localized n → Localized n → Prop
  | perform {x : Localized n} {w : Fin n} {t : TaskId} {op : Op} {rest : List Op} {e : Effect}
      (hrunning : (x.engine.workers w).activity = .running t)
      (hcall : x.engine.system.calls (some w) = .idle)
      (hprogram : (x.engine.workers w).program = op :: rest)
      (heffect : Performs g x.engine w op e) :
      Localized.Step g lm m affinity x
        { engine := x.engine.apply w rest e
          localities := x.localities ++ e.allocated.map fun _ => allocatedOn affinity (op.target m w) }
  | other {x : Localized n} {s : State n} (hstep : Engine.Step g lm x.engine s)
      (hobjects : s.objectSizes = x.engine.objectSizes) :
      Localized.Step g lm m affinity x { engine := s, localities := x.localities }

def Localized.Run (g : LogicalGraph) (lm : M3bp.LocalityManager)
    (m : WorkerPlacement.LocalityManager) (affinity : AffinityMode) : Localized n → Prop :=
  Reachable (fun x => (∃ draws, x.engine = State.start g (Plan.setUp g lm draws)) ∧
    x.localities = []) (Localized.Step g lm m affinity)

/-- Whether `receive_fragment` asks for a worker when it creates the task. -/
def Command.asks : Command → Bool
  | oneToOneRun .. | scatterGatherRun .. | shufflePartition .. | valueSort .. => true
  | _ => false

/-- The argument of `random_worker_from_node`, where the reference is to an object and the
partition passes the assertion of `partition_mapping`. -/
def Command.requestedNode (m : WorkerPlacement.LocalityManager) (localities : List ℕ) :
    Command → Option ℕ
  | oneToOneRun _ o _ | shufflePartition _ o | valueSort _ o _ => localities[o]?
  | scatterGatherRun _ _ p => if m.partitionMapping = [] then some 0 else m.partitionMapping[p]?
  | _ => none

section Runs

variable {g : LogicalGraph} {lm : M3bp.LocalityManager} {m : WorkerPlacement.LocalityManager}
  {affinity : AffinityMode} {x : Localized n} {s : State n}

theorem Localized.run_engine (hrun : Localized.Run g lm m affinity x) :
    Engine.Run g lm x.engine := by
  induction hrun with
  | start h =>
    obtain ⟨hstart, -⟩ := h
    exact .start hstart
  | next _ hstep ih =>
    cases hstep with
    | perform hrunning hcall hprogram heffect =>
      exact ih.next (.perform hrunning hcall hprogram heffect)
    | other hstep hobjects => exact ih.next hstep

/-- Every run of the engine binds its objects to nodes. -/
theorem exists_localized (hrun : Engine.Run g lm s) :
    ∃ x, Localized.Run g lm m affinity x ∧ x.engine = s := by
  induction hrun with
  | @start s h => exact ⟨{ engine := s, localities := [] }, .start ⟨h, rfl⟩, rfl⟩
  | @next s s' _ hstep ih =>
    obtain ⟨x, hx, rfl⟩ := ih
    by_cases hobjects : s'.objectSizes = x.engine.objectSizes
    · exact ⟨_, hx.next (.other hstep hobjects), rfl⟩
    · cases hstep with
      | perform hrunning hcall hprogram heffect =>
        exact ⟨_, hx.next (.perform hrunning hcall hprogram heffect), rfl⟩
      | _ => exact absurd rfl hobjects

variable {config : Configuration}

/-- Every object is bound to a node with workers. -/
structure Bound (config : Configuration) (m : WorkerPlacement.LocalityManager)
    (x : Localized n) : Prop where
  length : x.localities.length = x.engine.objectSizes.length
  occupied : ∀ node ∈ x.localities, m.Occupied config node
  allocated : Allocated x.engine
  inRange : InRange config.partitionCount x.engine

/-- The nodes that a target can be have workers. -/
structure Targets (config : Configuration) (m : WorkerPlacement.LocalityManager) : Prop where
  zero : m.Occupied config 0
  partition : ∀ p, m.Occupied config (m.partitionNode p)

theorem Targets.allocatedOn (h : Targets config m) (op : Op) {w : ℕ}
    (hw : w < config.maxConcurrency) :
    m.Occupied config (allocatedOn affinity (op.target m w)) := by
  have hnode : ∀ node, m.Occupied config node →
      m.Occupied config (Engine.allocatedOn affinity (some node)) := by
    intro node hnode
    by_cases hnone : affinity = .none
    · rw [Engine.allocatedOn, if_pos hnone]
      exact h.zero
    · rw [Engine.allocatedOn, if_neg hnone]
      exact hnode
  cases op with
  | inCallback l callback => exact hnode _ ⟨w, hw, rfl⟩
  | partitionFragment l o => exact hnode _ ⟨w, hw, rfl⟩
  | sortRecords l p => exact hnode _ (h.partition p)
  | _ => exact h.zero

theorem step_bound {x x' : Localized config.maxConcurrency} (htargets : Targets config m)
    (hsized : SizedGraph config.partitionCount g) (h : Bound config m x)
    (hstep : Localized.Step g lm m affinity x x') : Bound config m x' := by
  cases hstep with
  | @perform w t op rest e hrunning hcall hprogram heffect =>
    have hengine : Engine.Step g lm x.engine (x.engine.apply w rest e) :=
      .perform hrunning hcall hprogram heffect
    refine ⟨?_, fun node hnode => ?_, step_allocated h.allocated hengine,
      step_inRange hsized h.inRange hengine⟩
    · simp [State.apply, h.length]
    · rcases List.mem_append.mp hnode with hnode | hnode
      · exact h.occupied node hnode
      · obtain ⟨size, -, rfl⟩ := List.mem_map.mp hnode
        exact htargets.allocatedOn op w.isLt
  | other hstep hobjects =>
    exact ⟨h.length.trans (congrArg List.length hobjects.symm), h.occupied,
      step_allocated h.allocated hstep, step_inRange hsized h.inRange hstep⟩

theorem run_bound {x : Localized config.maxConcurrency} (htargets : Targets config m)
    (hsized : SizedGraph config.partitionCount g) (hrun : Localized.Run g lm m affinity x) :
    Bound config m x := by
  induction hrun with
  | @start x h =>
    obtain ⟨⟨draws, hstart⟩, hnil⟩ := h
    refine ⟨?_, ?_, ?_, ?_⟩
    · rw [hnil, hstart]
      rfl
    · rw [hnil]
      nofun
    · rw [hstart]
      exact allocated_start draws
    · rw [hstart]
      exact inRange_start hsized draws
  | next _ hstep ih => exact step_bound htargets hsized ih hstep

/-- What is asked for is the node of an object, or that of a configured partition. -/
theorem Bound.requestedNode {x : Localized config.maxConcurrency} (h : Bound config m x)
    (htargets : Targets config m) (hpartitions : m.partitionMapping.length = config.partitionCount)
    {w : Fin config.maxConcurrency} {c : Command}
    (hspawn : .spawn c ∈ (x.engine.workers w).program) (hasks : c.asks = true) :
    ∃ node, c.requestedNode m x.localities = some node ∧ m.Occupied config node := by
  have hobject : ∀ o ∈ c.references,
      ∃ node, x.localities[o]? = some node ∧ m.Occupied config node := by
    intro o ho
    have hlt : o < x.localities.length := by
      rw [h.length]
      exact h.allocated.operations w _ hspawn o ho
    exact ⟨_, List.getElem?_eq_getElem hlt, h.occupied _ (List.getElem_mem hlt)⟩
  cases c with
  | oneToOneRun l o port => exact hobject o (List.mem_singleton.mpr rfl)
  | shufflePartition l o => exact hobject o (List.mem_singleton.mpr rfl)
  | valueSort l o p => exact hobject o (List.mem_singleton.mpr rfl)
  | scatterGatherRun l inputs p =>
    have hp : p < config.partitionCount := h.inRange.operations w _ hspawn
    have hlt : p < m.partitionMapping.length := hpartitions ▸ hp
    have hnode : m.partitionNode p = m.partitionMapping[p] := by
      rw [LocalityManager.partitionNode, List.getD_eq_getElem?_getD, List.getElem?_eq_getElem hlt,
        Option.getD_some]
    refine ⟨m.partitionNode p, ?_, htargets.partition p⟩
    rw [hnode, Command.requestedNode, if_neg (List.ne_nil_of_length_pos (Nat.zero_lt_of_lt hlt)),
      List.getElem?_eq_getElem hlt]
  | _ => cases hasks

end Runs

/-- A placement on nodes that all have a unit has workers on every node that the engine can
ask for. -/
theorem targets_of_construct {machine : Machine} {topology : Topology} {fuel : ℕ}
    {affinity : AffinityMode} {config : Configuration} {m : WorkerPlacement.LocalityManager}
    (hcreate : Topology.create machine = .ok topology)
    (husable : Topology.NodesUsable machine topology) (haffinity : affinity ≠ .none)
    (hthreads : 1 ≤ config.maxConcurrency)
    (hconstruct : construct fuel affinity config topology.processingUnitsPerNode = .ok m) :
    Listing topology.processingUnitsPerNode config.maxConcurrency m ∧ Targets config m ∧
      m.partitionMapping.length = config.partitionCount := by
  have hzero : StartsAtZero topology.processingUnitsPerNode := by
    rcases Topology.units_pos hcreate husable with hone | hpos
    · exact Or.inl hone.le
    · rcases Nat.eq_zero_or_pos topology.processingUnitsPerNode.length with hnone | hlength
      · exact Or.inl (hnone ▸ Nat.zero_le 1)
      · exact Or.inr (hpos 0 hlength)
  obtain ⟨m', hlisting, rfl⟩ := listing_of_construct haffinity hthreads hzero hconstruct
  have hmapped := hlisting.mapPartitions config.maxConcurrency config.partitionCount
  refine ⟨hmapped, ⟨hmapped.occupied_zero hthreads, hlisting.occupied_partitionNode hthreads⟩, ?_⟩
  simp [LocalityManager.mapPartitions]

/-- There is always a worker to recommend, and it is on the node that is asked for: on node
`0`, on the node of a worker and on that of a partition, and so on every node that a run asks
for when it creates a task. -/
theorem recommended_worker_local {machine : Machine} {topology : Topology} {fuel : ℕ}
    {affinity : AffinityMode} {config : Configuration} {m : WorkerPlacement.LocalityManager}
    (hcreate : Topology.create machine = .ok topology)
    (husable : Topology.NodesUsable machine topology) (haffinity : affinity ≠ .none)
    (hthreads : 1 ≤ config.maxConcurrency)
    (hconstruct : construct fuel affinity config topology.processingUnitsPerNode = .ok m) :
    m.Recommends config 0 ∧ (∀ w < config.maxConcurrency, m.Recommends config (m.threadNode w)) ∧
      (∀ p < config.partitionCount, m.Recommends config (m.partitionNode p)) ∧
      ∀ fg g lm (x : Localized config.maxConcurrency),
        GraphBuilder.buildLogicalGraph config fg = .ok g → Localized.Run g lm m affinity x →
        ∀ w, (∀ c, .spawn c ∈ (x.engine.workers w).program → c.asks = true →
            ∃ node, c.requestedNode m x.localities = some node ∧ m.Recommends config node) ∧
          ∀ l p, .sortRecords l p ∈ (x.engine.workers w).program → p < config.partitionCount := by
  obtain ⟨hlisting, htargets, hpartitions⟩ :=
    targets_of_construct hcreate husable haffinity hthreads hconstruct
  refine ⟨hlisting.recommends htargets.zero, fun w hw => hlisting.recommends ⟨w, hw, rfl⟩,
    fun p _ => hlisting.recommends (htargets.partition p), fun fg g lm x hbuild hrun w => ?_⟩
  have hbound := run_bound htargets (sized_of_build hbuild) hrun
  refine ⟨fun c hspawn hasks => ?_, fun l p hsort => hbound.inRange.operations w _ hsort⟩
  obtain ⟨node, hnode, hoccupied⟩ := hbound.requestedNode htargets hpartitions hspawn hasks
  exact ⟨node, hnode, hlisting.recommends hoccupied⟩

/-- Two nodes with a unit each, and one worker. -/
def twoNodes : Machine :=
  .hwloc
    { unitCount := some 2, unitBindable := fun _ => true, hasNodes := true, nodeCount := some 2
      nodeBindable := fun _ => true, nodeOf := some }

theorem recommended_worker_local_pipe :
    ∃ m, construct 1 .compact { maxConcurrency := 1, partitionCount := 1 } [1, 1] = .ok m ∧
      ∃ x : Localized 1, .spawn (.oneToOneRun 1 0 0) ∈ (x.engine.workers 0).program ∧
        ∃ node, (Command.oneToOneRun 1 0 0).requestedNode m x.localities = some node ∧
          m.Recommends { maxConcurrency := 1, partitionCount := 1 } node := by
  have husable : Topology.NodesUsable twoNodes ⟨[0, 1], [0, 1], [1, 1]⟩ :=
    fun node hnode => ⟨node, hnode, fun _ => rfl⟩
  have hreplay : ((replay? pipeGraph .default 1 (pipeMoves.take 37)).any
      fun s => (s.workers 0).program.contains (.spawn (.oneToOneRun 1 0 0))) = true := by
    decide +kernel
  obtain ⟨s, hrun, hspawn⟩ := exists_of_replay? hreplay
  have hconstruct : construct 1 .compact { maxConcurrency := 1, partitionCount := 1 } [1, 1] =
      .ok
        { maxConcurrency := 1, numaNodeCount := 2, threadMapping := [0], partitionMapping := [0]
          nodeToWorker := [[0], []] } := rfl
  refine ⟨_, hconstruct, ?_⟩
  obtain ⟨x, hx, rfl⟩ := exists_localized hrun
  have hmem : .spawn (.oneToOneRun 1 0 0) ∈ (x.engine.workers 0).program := by
    simpa using hspawn
  have hlocal := recommended_worker_local
    (show Topology.create twoNodes = .ok ⟨[0, 1], [0, 1], [1, 1]⟩ from rfl) husable
    (show AffinityMode.compact ≠ .none by decide) (le_refl 1) hconstruct
  exact ⟨x, hmem, (hlocal.2.2.2 pipe pipeGraph .default x build_pipe hx 0).1 _ hmem rfl⟩

end M3bp.Engine
