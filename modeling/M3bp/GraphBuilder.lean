import M3bp.LogicalGraph

/-!
`build_logical_graph`. It makes the process task of every vertex, then a shuffle or
gather node for every set of source ports that a port needs one for, and last the
edges into the input ports, with a value-sort node before a port that has a
comparator.
-/
namespace M3bp.GraphBuilder

abbrev PortSet := List PortKey

/-- The map has one entry for each key. -/
abbrev PortSetToTaskMap := List (PortSet × ℕ)

/-- The order of `std::pair`. -/
def portLe (a b : PortKey) : Bool := a.1 < b.1 || (a.1 == b.1 && a.2 ≤ b.2)

def normalizePortSet (sources : List PortKey) : PortSet := sources.mergeSort portLe

/-- What the loops over vertices and input ports look at. -/
structure InputSlot where
  key : PortKey
  vertexName : String
  port : InputPort
  sources : List PortKey

/-- The input ports in the order of the loops. -/
def inputSlots (vertices : List Vertex) : List InputSlot :=
  vertices.zipIdx.flatMap fun (v, i) =>
    v.processor.inputPorts.zipIdx.map fun (iport, j) =>
      { key := (i, j), vertexName := v.name, port := iport, sources := (v.sources[j]?).getD [] }

structure State where
  graph : LogicalGraph
  shuffleNodes : PortSetToTaskMap
  gatherNodes : PortSetToTaskMap

def createProcessTask (config : Configuration) (proc : Processor) : TaskKind :=
  if proc.inputPorts.any fun p => p.movement = .oneToOne then
    .oneToOneProcess proc config.maxConcurrency
  else if proc.inputPorts.any fun p => p.movement = .scatterGather then
    .scatterGatherProcess proc config.maxConcurrency config.partitionCount
  else
    .inputProcess proc config.maxConcurrency

def createProcessorNodes (config : Configuration) (vertices : List Vertex) : LogicalGraph :=
  vertices.foldl (fun g v => g.addTask (createProcessTask config v.processor) v.name)
    LogicalGraph.empty

def portName (vertices : List Vertex) (p : PortKey) : String :=
  (vertices[p.1]?.bind fun v =>
    (v.processor.outputPorts[p.2]?).map fun oport => v.name ++ "." ++ oport.name).getD ""

def concatPortNames (vertices : List Vertex) (ps : PortSet) : String :=
  "(" ++ String.intercalate "+" (ps.map (portName vertices)) ++ ")"

/-- The node of a port set is looked up, or created and connected. -/
def createNode (kind : TaskKind) (name : String) (succ : PhysicalSuccessor) (ps : PortSet)
    (graph : LogicalGraph) (nodes : PortSetToTaskMap) : LogicalGraph × PortSetToTaskMap :=
  match nodes.lookup ps with
  | some _ => (graph, nodes)
  | none =>
    let lid := graph.tasks.length
    ((graph.addTask kind name).addEdges ps (lid, 0) succ, (ps, lid) :: nodes)

def createShuffleNode (config : Configuration) (vertices : List Vertex) (ps : PortSet)
    (b : State) : State :=
  let (graph, nodes) := createNode (.shuffle config.partitionCount)
    (concatPortNames vertices ps ++ ".shuffle") .barrier ps b.graph b.shuffleNodes
  { b with graph := graph, shuffleNodes := nodes }

def createGatherNode (vertices : List Vertex) (ps : PortSet) (b : State) : State :=
  let (graph, nodes) := createNode .gather (concatPortNames vertices ps ++ ".gather") .entry ps
    b.graph b.gatherNodes
  { b with graph := graph, gatherNodes := nodes }

def createIntermediateNode (config : Configuration) (vertices : List Vertex) (b : State)
    (slot : InputSlot) : State :=
  match slot.port.movement with
  | .scatterGather => createShuffleNode config vertices (normalizePortSet slot.sources) b
  | .broadcast => createGatherNode vertices (normalizePortSet slot.sources) b
  | .oneToOne | .undefined => b

/-- The edges into one input port; `at` throws when there is no node. -/
def createPortEdges (b : State) (slot : InputSlot) : Except String State :=
  let ps := normalizePortSet slot.sources
  match slot.port.movement with
  | .oneToOne => .ok { b with graph := b.graph.addEdges slot.sources slot.key .barrier }
  | .broadcast =>
    match b.gatherNodes.lookup ps with
    | none => .error "map::at"
    | some gid => .ok { b with graph := b.graph.addEdges [(gid, 0)] slot.key .entry }
  | .scatterGather | .undefined =>
    match b.shuffleNodes.lookup ps, slot.port.valueComparator with
    | none, _ => .error "map::at"
    | some lid, some comparator =>
      -- scatter-gather with in-group sorting
      let sortId := b.graph.tasks.length
      let name := slot.vertexName ++ "." ++ slot.port.name ++ "." ++ "value_sort"
      let graph := (b.graph.addTask (.valueSort comparator) name).addEdges [(lid, 0)] (sortId, 0)
        .terminal
      .ok { b with graph := graph.addEdges [(sortId, 0)] slot.key .barrier }
    | some lid, none => .ok { b with graph := b.graph.addEdges [(lid, 0)] slot.key .barrier }

def buildLogicalGraph (config : Configuration) (g : FlowGraph) : Except String LogicalGraph := do
  let start : State :=
    { graph := createProcessorNodes config g.vertices, shuffleNodes := [], gatherNodes := [] }
  let slots := inputSlots g.vertices
  let b ← slots.foldlM createPortEdges
    (slots.foldl (createIntermediateNode config g.vertices) start)
  return b.graph

/-! The order of the ports and the slots. -/

theorem portLe_trans (a b c : PortKey) (h : portLe a b = true) (h' : portLe b c = true) :
    portLe a c = true := by
  simp only [portLe, Bool.or_eq_true, Bool.and_eq_true, decide_eq_true_eq, beq_iff_eq] at h h' ⊢
  omega

theorem portLe_total (a b : PortKey) : (portLe a b || portLe b a) = true := by
  simp only [portLe, Bool.or_eq_true, Bool.and_eq_true, decide_eq_true_eq, beq_iff_eq]
  omega

theorem portLe_antisymm (a b : PortKey) (h : portLe a b = true) (h' : portLe b a = true) : a = b := by
  simp only [portLe, Bool.or_eq_true, Bool.and_eq_true, decide_eq_true_eq, beq_iff_eq] at h h'
  exact Prod.ext (by omega) (by omega)

theorem normalizePortSet_perm (sources : List PortKey) : (normalizePortSet sources).Perm sources :=
  List.mergeSort_perm sources portLe

/-- Equal port sets are equal multisets of sources. -/
theorem normalizePortSet_eq_iff {sources sources' : List PortKey} :
    normalizePortSet sources = normalizePortSet sources' ↔ sources.Perm sources' := by
  constructor
  · intro h
    exact (normalizePortSet_perm sources).symm.trans (h ▸ normalizePortSet_perm sources')
  · intro h
    have hperm := (normalizePortSet_perm sources).trans
      (h.trans (normalizePortSet_perm sources').symm)
    refine hperm.eq_of_pairwise (fun a b _ _ => portLe_antisymm a b) ?_ ?_
    · exact List.pairwise_mergeSort portLe_trans portLe_total sources
    · exact List.pairwise_mergeSort portLe_trans portLe_total sources'

theorem mem_inputSlots {vertices : List Vertex} {slot : InputSlot}
    (h : slot ∈ inputSlots vertices) :
    inputPort? vertices slot.key = some slot.port ∧
      slot.sources = sourcesOf vertices slot.key := by
  obtain ⟨⟨v, i⟩, hv, hslot⟩ := List.mem_flatMap.mp h
  obtain ⟨⟨iport, j⟩, hport, rfl⟩ := List.mem_map.mp hslot
  have hv' := List.mem_zipIdx_iff_getElem?.mp hv
  have hport' := List.mem_zipIdx_iff_getElem?.mp hport
  simp only at hv' hport'
  simp [inputPort?, sourcesOf, hv', hport']

theorem exists_slot {vertices : List Vertex} {x : PortKey} {iport : InputPort}
    (h : inputPort? vertices x = some iport) :
    ∃ slot ∈ inputSlots vertices, slot.key = x ∧ slot.port = iport := by
  obtain ⟨v, hv, hport⟩ := Option.bind_eq_some_iff.mp h
  refine ⟨_, List.mem_flatMap.mpr ⟨(v, x.1), List.mem_zipIdx_iff_getElem?.mpr hv,
    List.mem_map.mpr ⟨(iport, x.2), List.mem_zipIdx_iff_getElem?.mpr hport, rfl⟩⟩, rfl, rfl⟩

theorem nodup_inputSlots (vertices : List Vertex) :
    ((inputSlots vertices).map InputSlot.key).Nodup := by
  have hzip : ∀ {α : Type} (l : List α), (l.zipIdx.map Prod.snd).Nodup := by
    intro α l
    rw [List.zipIdx_map_snd]
    exact List.nodup_range'
  rw [inputSlots, List.map_flatMap, List.nodup_flatMap]
  constructor
  · rintro ⟨v, i⟩ -
    rw [List.map_map]
    refine List.Nodup.of_map Prod.snd ?_
    rw [List.map_map]
    exact hzip v.processor.inputPorts
  · have hdistinct : vertices.zipIdx.Pairwise fun a b => a.2 ≠ b.2 :=
      List.pairwise_map.mp (hzip vertices)
    refine hdistinct.imp fun {a b} hne x hx hx' => ?_
    obtain ⟨s, hs, rfl⟩ := List.mem_map.mp hx
    obtain ⟨s', hs', heq⟩ := List.mem_map.mp hx'
    obtain ⟨p, -, rfl⟩ := List.mem_map.mp hs
    obtain ⟨p', -, rfl⟩ := List.mem_map.mp hs'
    exact hne (Prod.mk.inj heq).1.symm

end M3bp.GraphBuilder
