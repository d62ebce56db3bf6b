import M3bp.LogicalGraph
import Mathlib.Data.Int.DivMod
import Mathlib.Algebra.BigOperators.Group.List.Basic

/-!
The constructor of `LocalityManager`, which places the workers on the nodes and maps each
partition to the node of a worker. The inner loops, which skip nodes without a free unit,
run on fuel. The processing units of the nodes come from the topology.
-/
namespace M3bp.WorkerPlacement

inductive AffinityMode
  | none
  | compact
  | scatter
  deriving DecidableEq, Repr

inductive Failure
  | outOfFuel
  | divisionByZero
  deriving DecidableEq, Repr

structure LocalityManager where
  maxConcurrency : ℕ
  numaNodeCount : ℕ
  threadMapping : List ℕ
  partitionMapping : List ℕ
  nodeToWorker : List (List ℕ)
  deriving DecidableEq, Repr

/-- The conversion of a `size_type` to `int`, in which `std::accumulate` sums because its
initial value is the literal `0`. -/
def toInt (x : ℕ) : ℤ := Int.bmod x (2 ^ 32)

def toSizeType (x : ℤ) : ℕ := (x % 2 ^ 64).toNat

def accumulate (pu : List ℕ) : ℤ :=
  pu.foldl (fun sum x => toInt ((toSizeType sum + x) % 2 ^ 64)) 0

def totalPuCount (pu : List ℕ) : ℕ := toSizeType (accumulate pu)

namespace LocalityManager

/-- `push_back` on the mapping and on the list of the node. -/
def assign (m : LocalityManager) (node i : ℕ) : LocalityManager :=
  { m with
    threadMapping := m.threadMapping ++ [node]
    nodeToWorker := m.nodeToWorker.modify node (· ++ [i]) }

def mapPartitions (m : LocalityManager) (numThreads numPartitions : ℕ) : LocalityManager :=
  { m with
    partitionMapping :=
      (List.range numPartitions).map fun i => m.threadMapping.getD (i % numThreads) 0 }

end LocalityManager

/-- `while(j == pu_per_node[node])`. -/
def skipFull (pu : List ℕ) : ℕ → ℕ → ℕ → Except Failure (ℕ × ℕ)
  | 0, _, _ => .error .outOfFuel
  | fuel + 1, j, node =>
    if j = pu.getD node 0 then skipFull pu fuel 0 ((node + 1) % pu.length) else .ok (j, node)

structure CompactState where
  manager : LocalityManager
  j : ℕ
  node : ℕ

def compactStep (fuel : ℕ) (pu : List ℕ) (st : CompactState) (i : ℕ) :
    Except Failure CompactState := do
  let (j, node) ← skipFull pu fuel st.j st.node
  return { manager := st.manager.assign node i, j := j + 1, node := node }

def compact (fuel : ℕ) (pu : List ℕ) (m : LocalityManager) (numThreads : ℕ) :
    Except Failure CompactState :=
  (List.range numThreads).foldlM (compactStep fuel pu) { manager := m, j := 0, node := 0 }

/-- `while(remains[node] == 0)`. -/
def skipEmpty (remains : List ℕ) : ℕ → ℕ → Except Failure ℕ
  | 0, _ => .error .outOfFuel
  | fuel + 1, node =>
    if remains.getD node 0 = 0 then skipEmpty remains fuel ((node + 1) % remains.length)
    else .ok node

structure ScatterState where
  manager : LocalityManager
  remains : List ℕ
  node : ℕ

/-- The reset at the start of a round. -/
def ScatterState.renew (st : ScatterState) (pu : List ℕ) (i : ℕ) : ScatterState :=
  if i % totalPuCount pu = 0 then { st with remains := pu, node := 0 } else st

def scatterStep (fuel : ℕ) (pu : List ℕ) (st : ScatterState) (i : ℕ) :
    Except Failure ScatterState := do
  if totalPuCount pu = 0 then
    throw .divisionByZero
  let st := st.renew pu i
  let node ← skipEmpty st.remains fuel st.node
  return {
    manager := st.manager.assign node i
    remains := st.remains.set node (st.remains.getD node 0 - 1)
    node := (node + 1) % pu.length }

def scatter (fuel : ℕ) (pu : List ℕ) (m : LocalityManager) (numThreads : ℕ) :
    Except Failure ScatterState :=
  (List.range numThreads).foldlM (scatterStep fuel pu) { manager := m, remains := pu, node := 0 }

/-- The loop over the partitions, which takes a remainder even where there is no worker. -/
def LocalityManager.placePartitions (m : LocalityManager) (config : Configuration) :
    Except Failure LocalityManager :=
  if config.maxConcurrency = 0 ∧ config.partitionCount ≠ 0 then .error .divisionByZero
  else .ok (m.mapPartitions config.maxConcurrency config.partitionCount)

/-- The members before the loops, with one empty list for each node. -/
def nodes (config : Configuration) (pu : List ℕ) : LocalityManager :=
  { maxConcurrency := config.maxConcurrency
    numaNodeCount := pu.length
    threadMapping := []
    partitionMapping := []
    nodeToWorker := List.replicate pu.length [] }

def construct (fuel : ℕ) (affinity : AffinityMode) (config : Configuration) (pu : List ℕ) :
    Except Failure LocalityManager :=
  match affinity with
  | .none =>
    .ok
      { maxConcurrency := config.maxConcurrency
        numaNodeCount := 1
        threadMapping := []
        partitionMapping := []
        nodeToWorker := [] }
  | .compact => do
    let st ← compact fuel pu (nodes config pu) config.maxConcurrency
    st.manager.placePartitions config
  | .scatter => do
    let st ← scatter fuel pu (nodes config pu) config.maxConcurrency
    st.manager.placePartitions config

namespace LocalityManager

theorem placePartitions_eq (m : LocalityManager) {config : Configuration}
    (h : 1 ≤ config.maxConcurrency) : m.placePartitions config =
      .ok (m.mapPartitions config.maxConcurrency config.partitionCount) :=
  if_neg fun hzero => Nat.ne_of_gt h hzero.1

/-- `thread_mapping`. -/
def threadNode (m : LocalityManager) (workerId : ℕ) : ℕ := m.threadMapping.getD workerId 0

/-- `partition_mapping`. -/
def partitionNode (m : LocalityManager) (partitionId : ℕ) : ℕ :=
  m.partitionMapping.getD partitionId 0

/-- The number of workers on a node among `k` consecutive ones. -/
def workersOn (m : LocalityManager) (node start k : ℕ) : ℕ :=
  (List.range' start k).countP fun i => m.threadNode i = node

end LocalityManager

/-- What the placement is for: blocks of as many workers as there are units fill the nodes
exactly, and within a block no node takes more workers than it has units. -/
structure Balanced (config : Configuration) (pu : List ℕ) (m : LocalityManager) : Prop where
  node_count : m.numaNodeCount = pu.length ∧ m.nodeToWorker.length = pu.length
  mapped : ∀ i < config.maxConcurrency, m.threadNode i < pu.length ∧ 0 < pu.getD (m.threadNode i) 0
  listed : ∀ n < pu.length, ∀ i, i ∈ m.nodeToWorker.getD n [] ↔
    i < config.maxConcurrency ∧ m.threadNode i = n
  block : ∀ q, (q + 1) * pu.sum ≤ config.maxConcurrency → ∀ n < pu.length,
    m.workersOn n (q * pu.sum) pu.sum = pu.getD n 0
  within : ∀ q k, k ≤ pu.sum → q * pu.sum + k ≤ config.maxConcurrency → ∀ n < pu.length,
    m.workersOn n (q * pu.sum) k ≤ pu.getD n 0
  partitions : ∀ p < config.partitionCount, ∃ i < config.maxConcurrency,
    m.partitionNode p = m.threadNode i

/-- The constructor terminates, with a balanced placement. -/
def Places (affinity : AffinityMode) (config : Configuration) (pu : List ℕ) : Prop :=
  ∃ fuel m, construct fuel affinity config pu = .ok m ∧ Balanced config pu m

example : (construct 4 .compact ⟨7, 3⟩ [2, 0, 3]).map (·.threadMapping) =
    .ok [0, 0, 2, 2, 2, 0, 0] := rfl

example : (construct 4 .scatter ⟨7, 3⟩ [2, 0, 3]).map (·.threadMapping) =
    .ok [0, 2, 0, 2, 2, 0, 2] := rfl

end M3bp.WorkerPlacement
