import M3bp.GraphBuilder

/-!
What the builder has wired after each of its loops. Every node is known by what
comes in at its ports: a shuffle or gather node is fed by its port set, an input
port by what its movement asks for, and nothing else comes in anywhere.
-/
namespace M3bp.GraphBuilder

/-- The nodes of one of the two maps. -/
structure NodesWired (g : LogicalGraph) (n : ℕ) (kind : TaskKind) (succ : PhysicalSuccessor)
    (nodes : PortSetToTaskMap) : Prop where
  keys : (nodes.map Prod.fst).Nodup
  ids : (nodes.map Prod.snd).Nodup
  old : ∀ node ∈ nodes, n ≤ node.2
  kinds : ∀ node ∈ nodes, g.kindOf node.2 = some kind
  sources : ∀ node ∈ nodes, ∀ p ∈ node.1, p.1 < n
  fed : ∀ node ∈ nodes, g.incoming (node.2, 0) = node.1.map fun p => (p, succ)
  unfed : ∀ node ∈ nodes, ∀ q, q ≠ 0 → g.incoming (node.2, q) = []

def outgoing (g : LogicalGraph) (t : ℕ) : List Edge := g.edges.filter fun e => e.producer.1 = t

/-- The value-sort node `t` stands between the shuffle node `s` and a port. -/
structure SortNode (g : LogicalGraph) (x : PortKey) (comparator : ValueComparator) (s t : ℕ) :
    Prop where
  kind : g.kindOf t = some (.valueSort comparator)
  shuffle : ∃ count, g.kindOf s = some (.shuffle count)
  fed : g.incoming (t, 0) = [((s, 0), .terminal)]
  unfed : ∀ q, q ≠ 0 → g.incoming (t, q) = []
  feeds : outgoing g t = [⟨(t, 0), x, .barrier⟩]
  last : g.incoming x = [((t, 0), .barrier)]

/-- What comes in at an input port. -/
def Fed (b : State) (slot : InputSlot) : Prop :=
  match slot.port.movement, slot.port.valueComparator with
  | .oneToOne, _ => b.graph.incoming slot.key = slot.sources.map fun p => (p, .barrier)
  | .broadcast, _ => ∃ t, (normalizePortSet slot.sources, t) ∈ b.gatherNodes ∧
      b.graph.incoming slot.key = [((t, 0), .entry)]
  | _, none => ∃ t, (normalizePortSet slot.sources, t) ∈ b.shuffleNodes ∧
      b.graph.incoming slot.key = [((t, 0), .barrier)]
  | _, some comparator => ∃ s t, (normalizePortSet slot.sources, s) ∈ b.shuffleNodes ∧
      SortNode b.graph slot.key comparator s t

/-- After the edges into the ports `done` have been made. -/
structure Wired (config : Configuration) (vertices : List Vertex) (b : State)
    (done : List InputSlot) : Prop where
  processes : ∀ i v, vertices[i]? = some v →
    b.graph.kindOf i = some (createProcessTask config v.processor) ∧ b.graph.nameOf i = some v.name
  size : vertices.length ≤ b.graph.tasks.length
  endpoints : ∀ e ∈ b.graph.edges,
    e.producer.1 < b.graph.tasks.length ∧ e.consumer.1 < b.graph.tasks.length
  delivers : b.graph.DeliversAlongEdges
  shuffles : NodesWired b.graph vertices.length (.shuffle config.partitionCount) .barrier
    b.shuffleNodes
  gathers : NodesWired b.graph vertices.length .gather .entry b.gatherNodes
  fed : ∀ slot ∈ done, Fed b slot
  unfed : ∀ x, x.1 < vertices.length → x ∉ done.map InputSlot.key → b.graph.incoming x = []
  covered : ∀ t, vertices.length ≤ t → t < b.graph.tasks.length →
    t ∈ b.shuffleNodes.map Prod.snd ∨ t ∈ b.gatherNodes.map Prod.snd ∨
      ∃ slot ∈ done, ∃ comparator s, SortNode b.graph slot.key comparator s t

section Frames

variable {g g' : LogicalGraph} {n : ℕ} {kind : TaskKind} {succ : PhysicalSuccessor}
  {nodes : PortSetToTaskMap}

theorem incoming_eq_nil {x : PortKey} (h : ∀ e ∈ g.edges, e.consumer.1 < g.tasks.length)
    (hx : g.tasks.length ≤ x.1) : g.incoming x = [] := by
  rw [LogicalGraph.incoming, List.map_eq_nil_iff, List.filter_eq_nil_iff]
  intro e he heq
  have hlt := h e he
  rw [of_decide_eq_true heq] at hlt
  omega

theorem outgoing_addEdges (ps : List PortKey) (c : PortKey) {t : ℕ} (h : ∀ p ∈ ps, p.1 ≠ t) :
    outgoing (g.addEdges ps c succ) t = outgoing g t := by
  have hnone : (ps.map fun p => (⟨p, c, succ⟩ : Edge)).filter (fun e => e.producer.1 = t) = [] := by
    rw [List.filter_eq_nil_iff]
    intro e he
    obtain ⟨p, hp, rfl⟩ := List.mem_map.mp he
    simpa using h p hp
  rw [outgoing, LogicalGraph.edges_addEdges, List.filter_append, hnone, List.append_nil, outgoing]

theorem outgoing_eq_nil {t : ℕ} (h : ∀ e ∈ g.edges, e.producer.1 < g.tasks.length)
    (ht : g.tasks.length ≤ t) : outgoing g t = [] := by
  rw [outgoing, List.filter_eq_nil_iff]
  intro e he heq
  have hlt := h e he
  rw [of_decide_eq_true heq] at hlt
  omega

/-- Nodes that exist are not disturbed by tasks and edges that come later. -/
theorem NodesWired.mono (h : NodesWired g n kind succ nodes)
    (hkind : ∀ t < g.tasks.length, g'.kindOf t = g.kindOf t)
    (hin : ∀ x : PortKey, n ≤ x.1 → x.1 < g.tasks.length → g'.incoming x = g.incoming x) :
    NodesWired g' n kind succ nodes := by
  have hlt : ∀ node ∈ nodes, node.2 < g.tasks.length := fun node hnode =>
    g.lt_of_kindOf (h.kinds node hnode)
  refine ⟨h.keys, h.ids, h.old, ?_, h.sources, ?_, ?_⟩
  · intro node hnode
    rw [hkind _ (hlt node hnode), h.kinds node hnode]
  · intro node hnode
    rw [hin _ (h.old node hnode) (hlt node hnode), h.fed node hnode]
  · intro node hnode q hq
    rw [hin _ (h.old node hnode) (hlt node hnode), h.unfed node hnode q hq]

theorem SortNode.mono {x : PortKey} {comparator : ValueComparator} {s t : ℕ}
    (h : SortNode g x comparator s t) (hkind : ∀ u < g.tasks.length, g'.kindOf u = g.kindOf u)
    (hin : ∀ y : PortKey, y = x ∨ y.1 = t → g'.incoming y = g.incoming y)
    (hout : outgoing g' t = outgoing g t) : SortNode g' x comparator s t := by
  obtain ⟨count, hcount⟩ := h.shuffle
  refine ⟨?_, ⟨count, ?_⟩, ?_, ?_, ?_, ?_⟩
  · rw [hkind t (g.lt_of_kindOf h.kind), h.kind]
  · rw [hkind s (g.lt_of_kindOf hcount), hcount]
  · rw [hin _ (Or.inr rfl), h.fed]
  · intro q hq
    rw [hin _ (Or.inr rfl), h.unfed q hq]
  · rw [hout, h.feeds]
  · rw [hin _ (Or.inl rfl), h.last]

theorem mem_of_lookup {ps : PortSet} {t : ℕ} (h : nodes.lookup ps = some t) : (ps, t) ∈ nodes := by
  induction nodes with
  | nil => cases h
  | cons node nodes ih =>
    obtain ⟨ps', t'⟩ := node
    rw [List.lookup_cons] at h
    by_cases heq : ps = ps'
    · simp only [heq, beq_self_eq_true, Option.some.injEq] at h
      simp [heq, h]
    · have hne : (ps == ps') = false := by simpa using heq
      simp only [hne] at h
      exact List.mem_cons_of_mem _ (ih h)

theorem lookup_isSome_iff {ps : PortSet} : (∃ t, nodes.lookup ps = some t) ↔ ∃ t, (ps, t) ∈ nodes := by
  constructor
  · exact fun ⟨t, h⟩ => ⟨t, mem_of_lookup h⟩
  · rintro ⟨t, h⟩
    induction nodes with
    | nil => cases h
    | cons node nodes ih =>
      obtain ⟨ps', t'⟩ := node
      rw [List.lookup_cons]
      by_cases heq : ps = ps'
      · exact ⟨t', by simp [heq]⟩
      · have hne : (ps == ps') = false := by simpa using heq
        rcases List.mem_cons.mp h with h | h
        · exact absurd (Prod.mk.inj h).1 heq
        · obtain ⟨u, hu⟩ := ih h
          exact ⟨u, by simp [hne, hu]⟩

end Frames

/-! The loop over the vertices. -/

theorem tasks_createProcessorNodes (config : Configuration) (vertices : List Vertex) :
    createProcessorNodes config vertices =
      { tasks := vertices.map fun v =>
          { kind := createProcessTask config v.processor, taskName := v.name, successors := [] }
        edges := [] } := by
  have hrun : ∀ (l : List Vertex) (g : LogicalGraph),
      l.foldl (fun g v => g.addTask (createProcessTask config v.processor) v.name) g =
        { tasks := g.tasks ++ l.map fun v =>
            { kind := createProcessTask config v.processor, taskName := v.name, successors := [] }
          edges := g.edges } := by
    intro l
    induction l with
    | nil => intro g; simp
    | cons v l ih => intro g; rw [List.foldl_cons, ih]; simp [LogicalGraph.addTask]
  rw [createProcessorNodes, hrun]
  simp [LogicalGraph.empty]

theorem wired_start (config : Configuration) (vertices : List Vertex) :
    Wired config vertices
      { graph := createProcessorNodes config vertices, shuffleNodes := [], gatherNodes := [] } [] := by
  rw [tasks_createProcessorNodes]
  refine ⟨?_, by simp, by simp, ?_, ?_, ?_, by simp, ?_, ?_⟩
  · intro i v hv
    simp [LogicalGraph.kindOf, LogicalGraph.nameOf, hv]
  · intro x
    simp only [LogicalGraph.successorsOf, List.getElem?_map, List.filter_nil, List.map_nil]
    rcases vertices[x.1]? with _ | v <;> rfl
  · exact ⟨by simp, by simp, by simp, by simp, by simp, by simp, by simp⟩
  · exact ⟨by simp, by simp, by simp, by simp, by simp, by simp, by simp⟩
  · exact fun x _ _ => rfl
  · intro t hle hlt
    simp only [List.length_map] at hlt
    omega

/-! The loop that makes the shuffle and gather nodes. -/

section CreateNode

variable {config : Configuration} {vertices : List Vertex} {g : LogicalGraph} {kind : TaskKind}
  {name : String} {succ : PhysicalSuccessor} {ps : PortSet} {nodes : PortSetToTaskMap}

/-- A new node with its edges. -/
theorem NodesWired.cons {n : ℕ} (h : NodesWired g n kind succ nodes) (hnew : nodes.lookup ps = none)
    (hsize : n ≤ g.tasks.length) (hends : ∀ e ∈ g.edges, e.consumer.1 < g.tasks.length)
    (hps : ∀ p ∈ ps, p.1 < n) :
    NodesWired ((g.addTask kind name).addEdges ps (g.tasks.length, 0) succ) n kind succ
      ((ps, g.tasks.length) :: nodes) := by
  let g' := (g.addTask kind name).addEdges ps (g.tasks.length, 0) succ
  have hlt : ∀ node ∈ nodes, node.2 < g.tasks.length := fun node hnode =>
    g.lt_of_kindOf (h.kinds node hnode)
  have hin : ∀ x : PortKey, x.1 ≠ g.tasks.length → g'.incoming x = g.incoming x := by
    intro x hx
    have hne : x ≠ (g.tasks.length, 0) := fun heq => hx (by rw [heq])
    exact (LogicalGraph.incoming_addEdges _ _ _ _ hne).trans (g.incoming_addTask kind name x)
  have hkind : ∀ t, t ≠ g.tasks.length → g'.kindOf t = g.kindOf t := by
    intro t ht
    rw [LogicalGraph.kindOf_addEdges, LogicalGraph.kindOf_addTask _ _ _ ht]
  have hmono : NodesWired g' n kind succ nodes :=
    h.mono (fun t ht => hkind t (by omega)) fun x _ hx => hin x (by omega)
  have hself : g'.incoming (g.tasks.length, 0) = ps.map fun p => (p, succ) := by
    rw [LogicalGraph.incoming_addEdges_self, LogicalGraph.incoming_addTask,
      incoming_eq_nil hends le_rfl, List.nil_append]
  refine ⟨?_, ?_, ?_, ?_, ?_, ?_, ?_⟩
  · rw [List.map_cons, List.nodup_cons]
    refine ⟨fun hmem => ?_, h.keys⟩
    obtain ⟨node, hnode, rfl⟩ := List.mem_map.mp hmem
    obtain ⟨t, ht⟩ := lookup_isSome_iff.mpr ⟨node.2, hnode⟩
    rw [hnew] at ht
    cases ht
  · rw [List.map_cons, List.nodup_cons]
    refine ⟨fun hmem => ?_, h.ids⟩
    obtain ⟨node, hnode, heq⟩ := List.mem_map.mp hmem
    have hnode' := hlt node hnode
    simp only at heq
    omega
  · exact List.forall_mem_cons.mpr ⟨hsize, h.old⟩
  · refine List.forall_mem_cons.mpr ⟨?_, hmono.kinds⟩
    rw [LogicalGraph.kindOf_addEdges, LogicalGraph.kindOf_addTask_self]
  · exact List.forall_mem_cons.mpr ⟨hps, h.sources⟩
  · exact List.forall_mem_cons.mpr ⟨hself, hmono.fed⟩
  · refine List.forall_mem_cons.mpr ⟨fun q hq => ?_, hmono.unfed⟩
    have hne : ((g.tasks.length, q) : PortKey) ≠ (g.tasks.length, 0) := fun heq =>
      hq (Prod.mk.inj heq).2
    rw [LogicalGraph.incoming_addEdges _ _ _ _ hne, LogicalGraph.incoming_addTask,
      incoming_eq_nil hends le_rfl]

/-- The parts of `Wired` that are about the graph as a whole, after a node. -/
theorem endpoints_node (hsize : vertices.length ≤ g.tasks.length)
    (hends : ∀ e ∈ g.edges, e.producer.1 < g.tasks.length ∧ e.consumer.1 < g.tasks.length)
    (hps : ∀ p ∈ ps, p.1 < vertices.length) :
    ∀ e ∈ ((g.addTask kind name).addEdges ps (g.tasks.length, 0) succ).edges,
      e.producer.1 < g.tasks.length + 1 ∧ e.consumer.1 < g.tasks.length + 1 := by
  intro e he
  rw [LogicalGraph.edges_addEdges, LogicalGraph.edges_addTask] at he
  rcases List.mem_append.mp he with he | he
  · have hlt := hends e he
    omega
  · obtain ⟨p, hp, rfl⟩ := List.mem_map.mp he
    have hp' := hps p hp
    simp only
    omega

end CreateNode

section Intermediate

variable {config : Configuration} {vertices : List Vertex} {b : State}

theorem Wired.addNode (h : Wired config vertices b []) (kind : TaskKind) (name : String)
    (succ : PhysicalSuccessor) {ps : PortSet} (hps : ∀ p ∈ ps, p.1 < vertices.length)
    {shuffleNodes gatherNodes : PortSetToTaskMap} {g' : LogicalGraph}
    (hg' : g' = (b.graph.addTask kind name).addEdges ps (b.graph.tasks.length, 0) succ)
    (hshuffles : NodesWired g' vertices.length (.shuffle config.partitionCount) .barrier shuffleNodes)
    (hgathers : NodesWired g' vertices.length .gather .entry gatherNodes)
    (hnew : b.graph.tasks.length ∈ shuffleNodes.map Prod.snd ∨
      b.graph.tasks.length ∈ gatherNodes.map Prod.snd)
    (hshuffle : ∀ t ∈ b.shuffleNodes.map Prod.snd, t ∈ shuffleNodes.map Prod.snd)
    (hgather : ∀ t ∈ b.gatherNodes.map Prod.snd, t ∈ gatherNodes.map Prod.snd) :
    Wired config vertices
      { graph := g', shuffleNodes := shuffleNodes, gatherNodes := gatherNodes } [] := by
  have hlength : g'.tasks.length = b.graph.tasks.length + 1 := by
    rw [hg', LogicalGraph.length_addEdges, LogicalGraph.length_addTask]
  have hsize := h.size
  have hstep : ∀ e ∈ g'.edges,
      e.producer.1 < b.graph.tasks.length + 1 ∧ e.consumer.1 < b.graph.tasks.length + 1 := by
    rw [hg']
    exact endpoints_node hsize h.endpoints hps
  refine ⟨?_, ?_, ?_, ?_, hshuffles, hgathers, by simp, ?_, ?_⟩
  · intro i v hv
    have hi : i < vertices.length := (List.getElem?_eq_some_iff.mp hv).1
    have hne : i ≠ b.graph.tasks.length := by omega
    simp only [hg', LogicalGraph.kindOf_addEdges, LogicalGraph.nameOf_addEdges,
      LogicalGraph.kindOf_addTask _ _ _ hne, LogicalGraph.nameOf_addTask _ _ _ hne]
    exact h.processes i v hv
  · simp only [hlength]
    omega
  · simp only [hlength]
    exact hstep
  · simp only [hg']
    refine (h.delivers.addTask kind name).addEdges _ _ fun p hp => ?_
    have hp' := hps p hp
    rw [LogicalGraph.length_addTask]
    omega
  · intro x hx _
    have hne : x ≠ (b.graph.tasks.length, 0) := by
      rintro rfl
      simp only at hx
      omega
    simp only [hg', LogicalGraph.incoming_addEdges _ _ _ _ hne, LogicalGraph.incoming_addTask]
    exact h.unfed x hx (by simp)
  · intro t hle hlt
    simp only [hlength] at hlt
    rcases Nat.lt_or_eq_of_le (Nat.lt_succ_iff.mp hlt) with hlt | rfl
    · rcases h.covered t hle hlt with ht | ht | ⟨slot, hslot, -⟩
      · exact Or.inl (hshuffle t ht)
      · exact Or.inr (Or.inl (hgather t ht))
      · cases hslot
    · exact hnew.imp_right Or.inl

/-- The other map when a node is made for one of them. -/
theorem NodesWired.addNode {n : ℕ} {kind kind' : TaskKind} {succ succ' : PhysicalSuccessor}
    {nodes : PortSetToTaskMap} {g : LogicalGraph} (h : NodesWired g n kind succ nodes)
    (name : String) (ps : PortSet) :
    NodesWired ((g.addTask kind' name).addEdges ps (g.tasks.length, 0) succ') n kind succ nodes := by
  refine h.mono (fun t ht => ?_) fun x _ hx => ?_
  · rw [LogicalGraph.kindOf_addEdges, LogicalGraph.kindOf_addTask _ _ _ (by omega)]
  · have hne : x ≠ (g.tasks.length, 0) := by
      rintro rfl
      simp only at hx
      omega
    rw [LogicalGraph.incoming_addEdges _ _ _ _ hne, LogicalGraph.incoming_addTask]

/-- One port of the loop. -/
theorem Wired.createIntermediateNode (h : Wired config vertices b []) (slot : InputSlot)
    (hsources : ∀ p ∈ slot.sources, p.1 < vertices.length) :
    Wired config vertices (createIntermediateNode config vertices b slot) [] := by
  have hps : ∀ p ∈ normalizePortSet slot.sources, p.1 < vertices.length := fun p hp =>
    hsources p ((normalizePortSet_perm slot.sources).mem_iff.mp hp)
  have hends : ∀ e ∈ b.graph.edges, e.consumer.1 < b.graph.tasks.length := fun e he =>
    (h.endpoints e he).2
  unfold GraphBuilder.createIntermediateNode
  split
  · rcases hlookup : b.shuffleNodes.lookup (normalizePortSet slot.sources) with _ | t
    · simp only [createShuffleNode, createNode, hlookup]
      exact h.addNode _ _ _ hps rfl (h.shuffles.cons hlookup h.size hends hps)
        (h.gathers.addNode _ _) (by simp) (by simp +contextual) (by simp +contextual)
    · simpa only [createShuffleNode, createNode, hlookup] using h
  · rcases hlookup : b.gatherNodes.lookup (normalizePortSet slot.sources) with _ | t
    · simp only [createGatherNode, createNode, hlookup]
      exact h.addNode _ _ _ hps rfl (h.shuffles.addNode _ _)
        (h.gathers.cons hlookup h.size hends hps) (by simp) (by simp +contextual)
        (by simp +contextual)
    · simpa only [createGatherNode, createNode, hlookup] using h
  · exact h
  · exact h

/-- The nodes that a port needs are there. -/
def HasNode (b : State) (slot : InputSlot) : Prop :=
  match slot.port.movement with
  | .scatterGather => ∃ t, (normalizePortSet slot.sources, t) ∈ b.shuffleNodes
  | .broadcast => ∃ t, (normalizePortSet slot.sources, t) ∈ b.gatherNodes
  | .oneToOne | .undefined => True

theorem subset_createNode (kind : TaskKind) (name : String) (succ : PhysicalSuccessor) (ps : PortSet)
    (graph : LogicalGraph) (nodes : PortSetToTaskMap) :
    nodes ⊆ (createNode kind name succ ps graph nodes).2 := by
  unfold createNode
  split
  · exact fun _ h => h
  · exact List.subset_cons_self _ _

theorem mem_createNode (kind : TaskKind) (name : String) (succ : PhysicalSuccessor) (ps : PortSet)
    (graph : LogicalGraph) (nodes : PortSetToTaskMap) :
    ∃ t, (ps, t) ∈ (createNode kind name succ ps graph nodes).2 := by
  unfold createNode
  split
  · next t h => exact ⟨t, mem_of_lookup h⟩
  · exact ⟨_, List.mem_cons_self⟩

theorem hasNode_createIntermediateNode (slot : InputSlot) :
    HasNode (createIntermediateNode config vertices b slot) slot := by
  unfold HasNode createIntermediateNode
  cases slot.port.movement with
  | scatterGather => exact mem_createNode _ _ _ _ _ _
  | broadcast => exact mem_createNode _ _ _ _ _ _
  | oneToOne => trivial
  | undefined => trivial

theorem HasNode.createIntermediateNode {slot : InputSlot} (h : HasNode b slot) (slot' : InputSlot) :
    HasNode (createIntermediateNode config vertices b slot') slot := by
  have hshuffle : b.shuffleNodes ⊆
      (GraphBuilder.createIntermediateNode config vertices b slot').shuffleNodes := by
    unfold GraphBuilder.createIntermediateNode
    split
    · exact subset_createNode _ _ _ _ _ _
    all_goals exact fun _ h => h
  have hgather : b.gatherNodes ⊆
      (GraphBuilder.createIntermediateNode config vertices b slot').gatherNodes := by
    unfold GraphBuilder.createIntermediateNode
    split
    · exact fun _ h => h
    · exact subset_createNode _ _ _ _ _ _
    all_goals exact fun _ h => h
  unfold HasNode at h ⊢
  split at h
  · exact h.imp fun t ht => hshuffle ht
  · exact h.imp fun t ht => hgather ht
  · trivial
  · trivial

/-- The whole loop. -/
theorem Wired.createIntermediateNodes (h : Wired config vertices b []) (slots : List InputSlot)
    (hsources : ∀ slot ∈ slots, ∀ p ∈ slot.sources, p.1 < vertices.length) :
    let b' := slots.foldl (GraphBuilder.createIntermediateNode config vertices) b
    Wired config vertices b' [] ∧ ∀ slot, slot ∈ slots ∨ HasNode b slot → HasNode b' slot := by
  intro b'
  induction slots generalizing b with
  | nil => exact ⟨h, fun slot hslot => hslot.resolve_left List.not_mem_nil⟩
  | cons slot slots ih =>
    obtain ⟨hwired, hnodes⟩ := ih (h.createIntermediateNode slot (hsources slot List.mem_cons_self))
      fun s hs => hsources s (List.mem_cons_of_mem slot hs)
    refine ⟨hwired, fun s hs => hnodes s ?_⟩
    rcases hs with hs | hs
    · rcases List.mem_cons.mp hs with rfl | hs
      · exact Or.inr (hasNode_createIntermediateNode s)
      · exact Or.inl hs
    · exact Or.inr (hs.createIntermediateNode slot)

end Intermediate

/-! The loop that makes the edges into the input ports. -/

section PortEdges

variable {config : Configuration} {vertices : List Vertex} {b : State} {done : List InputSlot}

theorem isIntermediate_createProcessTask (config : Configuration) (proc : Processor) :
    (createProcessTask config proc).isIntermediate = false := by
  unfold createProcessTask
  split
  · rfl
  · split <;> rfl

/-- Tasks of vertices pass nothing on. -/
theorem Wired.le_of_isIntermediate (h : Wired config vertices b done) {t : ℕ}
    (ht : b.graph.IsIntermediate t) : vertices.length ≤ t := by
  by_contra hlt
  obtain ⟨kind, hkind, hintermediate⟩ := ht
  have hi : t < vertices.length := by omega
  rw [(h.processes t vertices[t] (List.getElem?_eq_getElem hi)).1, Option.some.injEq] at hkind
  rw [← hkind, isIntermediate_createProcessTask] at hintermediate
  cases hintermediate

theorem SortNode.isIntermediate {g : LogicalGraph} {x : PortKey} {comparator : ValueComparator}
    {s t : ℕ} (h : SortNode g x comparator s t) : g.IsIntermediate t := ⟨_, h.kind, rfl⟩

/-- A port is connected and the rest of the graph is left alone. -/
theorem Wired.extend (h : Wired config vertices b done) {slot : InputSlot}
    (hdone : ∀ s ∈ done, s.key.1 < vertices.length) (hnew : slot.key ∉ done.map InputSlot.key)
    (hkey : slot.key.1 < vertices.length) {g' : LogicalGraph}
    (hsize : b.graph.tasks.length ≤ g'.tasks.length)
    (hkind : ∀ t < b.graph.tasks.length,
      g'.kindOf t = b.graph.kindOf t ∧ g'.nameOf t = b.graph.nameOf t)
    (hends : ∀ e ∈ g'.edges, e.producer.1 < g'.tasks.length ∧ e.consumer.1 < g'.tasks.length)
    (hdelivers : g'.DeliversAlongEdges)
    (hin : ∀ x, x ≠ slot.key → x.1 < b.graph.tasks.length → g'.incoming x = b.graph.incoming x)
    (hout : ∀ t < b.graph.tasks.length, ∀ comparator,
      b.graph.kindOf t = some (.valueSort comparator) → outgoing g' t = outgoing b.graph t)
    (hfed : Fed { b with graph := g' } slot)
    (hcovered : ∀ t, b.graph.tasks.length ≤ t → t < g'.tasks.length →
      ∃ comparator s, SortNode g' slot.key comparator s t) :
    Wired config vertices { b with graph := g' } (done ++ [slot]) := by
  have hn := h.size
  have hin' : ∀ x : PortKey, vertices.length ≤ x.1 → x.1 < b.graph.tasks.length →
      g'.incoming x = b.graph.incoming x := by
    intro x hx hx'
    refine hin x ?_ hx'
    rintro rfl
    omega
  have hkey_ne : ∀ s ∈ done, s.key ≠ slot.key := fun s hs heq =>
    hnew (List.mem_map.mpr ⟨s, hs, heq⟩)
  have hsort : ∀ s ∈ done, ∀ comparator u t, SortNode b.graph s.key comparator u t →
      SortNode g' s.key comparator u t := by
    intro s hs comparator u t hnode
    have ht := b.graph.lt_of_kindOf hnode.kind
    have hnt := h.le_of_isIntermediate hnode.isIntermediate
    refine hnode.mono (fun u hu => (hkind u hu).1) ?_ (hout t ht comparator hnode.kind)
    rintro y (rfl | rfl)
    · exact hin _ (hkey_ne s hs) (by have hs' := hdone s hs; omega)
    · exact hin' y hnt ht
  refine ⟨?_, hn.trans hsize, hends, hdelivers, ?_, ?_, ?_, ?_, ?_⟩
  · intro i v hv
    have hi : i < vertices.length := (List.getElem?_eq_some_iff.mp hv).1
    simp only
    rw [(hkind i (by omega)).1, (hkind i (by omega)).2]
    exact h.processes i v hv
  · exact h.shuffles.mono (fun t ht => (hkind t ht).1) hin'
  · exact h.gathers.mono (fun t ht => (hkind t ht).1) hin'
  · intro s hs
    rcases List.mem_append.mp hs with hs | hs
    · have hold := h.fed s hs
      have hsame : g'.incoming s.key = b.graph.incoming s.key :=
        hin _ (hkey_ne s hs) (by have hs' := hdone s hs; omega)
      unfold Fed at hold ⊢
      split at hold
      · simpa only [hsame] using hold
      · simpa only [hsame] using hold
      · simpa only [hsame] using hold
      · obtain ⟨u, t, hu, hnode⟩ := hold
        exact ⟨u, t, hu, hsort s hs _ u t hnode⟩
    · rw [List.mem_singleton.mp hs]
      exact hfed
  · intro x hx hmem
    rw [List.map_append, List.mem_append, not_or] at hmem
    have hne : x ≠ slot.key := by simpa using hmem.2
    simp only
    rw [hin x hne (by omega)]
    exact h.unfed x hx hmem.1
  · intro t hle hlt
    rcases Nat.lt_or_ge t b.graph.tasks.length with ht | ht
    · rcases h.covered t hle ht with ht | ht | ⟨s, hs, comparator, u, hnode⟩
      · exact Or.inl ht
      · exact Or.inr (Or.inl ht)
      · exact Or.inr (Or.inr ⟨s, List.mem_append_left _ hs, comparator, u,
          hsort s hs comparator u t hnode⟩)
    · obtain ⟨comparator, u, hnode⟩ := hcovered t ht hlt
      exact Or.inr (Or.inr ⟨slot, by simp, comparator, u, hnode⟩)

/-- Edges into a port from tasks that are no value sorts. -/
theorem Wired.addPortEdges (h : Wired config vertices b done) {slot : InputSlot}
    (hdone : ∀ s ∈ done, s.key.1 < vertices.length) (hnew : slot.key ∉ done.map InputSlot.key)
    (hkey : slot.key.1 < vertices.length) {ps : List PortKey} (succ : PhysicalSuccessor)
    (hps : ∀ p ∈ ps, p.1 < b.graph.tasks.length)
    (hkinds : ∀ p ∈ ps, ∀ comparator, b.graph.kindOf p.1 ≠ some (.valueSort comparator))
    (hfed : b.graph.incoming slot.key = [] →
      (b.graph.addEdges ps slot.key succ).incoming slot.key = ps.map (fun p => (p, succ)) →
      Fed { b with graph := b.graph.addEdges ps slot.key succ } slot) :
    Wired config vertices { b with graph := b.graph.addEdges ps slot.key succ } (done ++ [slot]) := by
  have hn := h.size
  have hempty := h.unfed slot.key hkey hnew
  refine h.extend hdone hnew hkey (by simp) (by simp) ?_ (h.delivers.addEdges _ _ hps)
    (fun x hx _ => LogicalGraph.incoming_addEdges _ _ _ _ hx) ?_ ?_ ?_
  · intro e he
    rw [LogicalGraph.edges_addEdges] at he
    rw [LogicalGraph.length_addEdges]
    rcases List.mem_append.mp he with he | he
    · exact h.endpoints e he
    · obtain ⟨p, hp, rfl⟩ := List.mem_map.mp he
      exact ⟨hps p hp, by simp only; omega⟩
  · intro t _ comparator ht
    refine outgoing_addEdges ps slot.key fun p hp hpt => ?_
    exact hkinds p hp comparator (by rw [hpt, ht])
  · refine hfed hempty ?_
    rw [LogicalGraph.incoming_addEdges_self, hempty, List.nil_append]
  · intro t hle hlt
    rw [LogicalGraph.length_addEdges] at hlt
    omega

/-- A value-sort node before a port. -/
theorem Wired.addSortNode (h : Wired config vertices b done) {slot : InputSlot}
    (hdone : ∀ s ∈ done, s.key.1 < vertices.length) (hnew : slot.key ∉ done.map InputSlot.key)
    (hkey : slot.key.1 < vertices.length) (comparator : ValueComparator) (name : String) {lid : ℕ}
    (hkind : ∃ count, b.graph.kindOf lid = some (.shuffle count)) {g' : LogicalGraph}
    (hg' : g' = ((b.graph.addTask (.valueSort comparator) name).addEdges [(lid, 0)]
      (b.graph.tasks.length, 0) .terminal).addEdges [(b.graph.tasks.length, 0)] slot.key .barrier)
    (hfed : SortNode g' slot.key comparator lid b.graph.tasks.length →
      Fed { b with graph := g' } slot) :
    Wired config vertices { b with graph := g' } (done ++ [slot]) := by
  have hn := h.size
  obtain ⟨count, hcount⟩ := hkind
  have hlid : lid < b.graph.tasks.length := b.graph.lt_of_kindOf hcount
  have hconsumer : ∀ e ∈ b.graph.edges, e.consumer.1 < b.graph.tasks.length := fun e he =>
    (h.endpoints e he).2
  have hproducer : ∀ e ∈ b.graph.edges, e.producer.1 < b.graph.tasks.length := fun e he =>
    (h.endpoints e he).1
  have hlength : g'.tasks.length = b.graph.tasks.length + 1 := by
    rw [hg', LogicalGraph.length_addEdges, LogicalGraph.length_addEdges, LogicalGraph.length_addTask]
  have hne : ∀ q, slot.key ≠ (b.graph.tasks.length, q) := by
    intro q heq
    rw [heq] at hkey
    simp only at hkey
    omega
  have hedges : g'.edges = b.graph.edges ++ [⟨(lid, 0), (b.graph.tasks.length, 0), .terminal⟩] ++
      [⟨(b.graph.tasks.length, 0), slot.key, .barrier⟩] := by
    rw [hg', LogicalGraph.edges_addEdges, LogicalGraph.edges_addEdges, LogicalGraph.edges_addTask]
    rfl
  have hin : ∀ x, x ≠ slot.key → x ≠ (b.graph.tasks.length, 0) →
      g'.incoming x = b.graph.incoming x := by
    intro x hx hx'
    rw [hg', LogicalGraph.incoming_addEdges _ _ _ _ hx, LogicalGraph.incoming_addEdges _ _ _ _ hx',
      LogicalGraph.incoming_addTask]
  have hout : ∀ t, t ≠ b.graph.tasks.length → t ≠ lid → outgoing g' t = outgoing b.graph t := by
    intro t ht ht'
    simp [outgoing, hedges, ht.symm, ht'.symm]
  have hnode : SortNode g' slot.key comparator lid b.graph.tasks.length := by
    refine ⟨?_, ⟨count, ?_⟩, ?_, ?_, ?_, ?_⟩
    · rw [hg', LogicalGraph.kindOf_addEdges, LogicalGraph.kindOf_addEdges,
        LogicalGraph.kindOf_addTask_self]
    · rw [hg', LogicalGraph.kindOf_addEdges, LogicalGraph.kindOf_addEdges,
        LogicalGraph.kindOf_addTask _ _ _ (by omega), hcount]
    · rw [hg', LogicalGraph.incoming_addEdges _ _ _ _ (hne 0).symm,
        LogicalGraph.incoming_addEdges_self, LogicalGraph.incoming_addTask,
        incoming_eq_nil hconsumer le_rfl]
      rfl
    · intro q hq
      have hq' : ((b.graph.tasks.length, q) : PortKey) ≠ (b.graph.tasks.length, 0) := fun heq =>
        hq (Prod.mk.inj heq).2
      rw [hin _ (hne q).symm hq', incoming_eq_nil hconsumer le_rfl]
    · have hnone : b.graph.edges.filter (fun e => e.producer.1 = b.graph.tasks.length) = [] :=
        outgoing_eq_nil hproducer le_rfl
      have hlid' : lid ≠ b.graph.tasks.length := by omega
      simp [outgoing, hedges, List.filter_append, hnone, hlid']
    · have hempty := h.unfed slot.key hkey hnew
      rw [hg', LogicalGraph.incoming_addEdges_self, LogicalGraph.incoming_addEdges _ _ _ _ (hne 0),
        LogicalGraph.incoming_addTask, hempty]
      rfl
  refine h.extend hdone hnew hkey (by omega) ?_ ?_ ?_ ?_ ?_ (hfed hnode) ?_
  · intro t ht
    have ht' : t ≠ b.graph.tasks.length := by omega
    simp only [hg', LogicalGraph.kindOf_addEdges, LogicalGraph.nameOf_addEdges,
      LogicalGraph.kindOf_addTask _ _ _ ht', LogicalGraph.nameOf_addTask _ _ _ ht', and_self]
  · intro e he
    rw [hedges, List.append_assoc, List.mem_append] at he
    rw [hlength]
    rcases he with he | he
    · have hlt := h.endpoints e he
      omega
    · rcases List.mem_append.mp he with he | he <;>
        (rw [List.mem_singleton.mp he]; simp only; omega)
  · rw [hg']
    refine ((h.delivers.addTask _ name).addEdges _ _ ?_).addEdges _ _ ?_
    · simp only [List.mem_singleton, LogicalGraph.length_addTask]
      rintro p rfl
      simp only
      omega
    · simp only [List.mem_singleton, LogicalGraph.length_addEdges, LogicalGraph.length_addTask]
      rintro p rfl
      simp
  · intro x hx hlt
    refine hin x hx ?_
    rintro rfl
    simp only at hlt
    omega
  · intro t ht comparator' hkind'
    refine hout t (by omega) ?_
    rintro rfl
    rw [hcount] at hkind'
    cases hkind'
  · intro t hle hlt
    have ht : t = b.graph.tasks.length := by omega
    rw [ht]
    exact ⟨comparator, lid, hnode⟩

/-- One port of the loop. -/
theorem Wired.createPortEdges (h : Wired config vertices b done) {slot : InputSlot}
    (hdone : ∀ s ∈ done, s.key.1 < vertices.length) (hnew : slot.key ∉ done.map InputSlot.key)
    (hkey : slot.key.1 < vertices.length) (hsources : ∀ p ∈ slot.sources, p.1 < vertices.length)
    (hmovement : slot.port.movement ≠ .undefined) (hnode : HasNode b slot) :
    ∃ b', createPortEdges b slot = .ok b' ∧ Wired config vertices b' (done ++ [slot]) ∧
      b'.shuffleNodes = b.shuffleNodes ∧ b'.gatherNodes = b.gatherNodes := by
  have hn := h.size
  unfold HasNode at hnode
  unfold GraphBuilder.createPortEdges
  cases hcase : slot.port.movement with
  | undefined => exact absurd hcase hmovement
  | oneToOne =>
    refine ⟨_, rfl, h.addPortEdges hdone hnew hkey .barrier ?_ ?_ ?_, rfl, rfl⟩
    · intro p hp
      have hp' := hsources p hp
      omega
    · intro p hp comparator hkind
      have hle := h.le_of_isIntermediate ⟨_, hkind, rfl⟩
      have hp' := hsources p hp
      omega
    · intro _ hin
      simpa only [Fed, hcase] using hin
  | broadcast =>
    simp only [hcase] at hnode
    obtain ⟨gid, hlookup⟩ := lookup_isSome_iff.mpr hnode
    have hmem := mem_of_lookup hlookup
    have hkind := h.gathers.kinds _ hmem
    simp only [hlookup]
    refine ⟨_, rfl, h.addPortEdges hdone hnew hkey .entry ?_ ?_ ?_, rfl, rfl⟩
    · simp only [List.mem_singleton]
      rintro p rfl
      exact b.graph.lt_of_kindOf hkind
    · simp only [List.mem_singleton]
      rintro p rfl comparator
      rw [hkind]
      simp
    · intro _ hin
      simp only [Fed, hcase]
      exact ⟨gid, hmem, hin⟩
  | scatterGather =>
    simp only [hcase] at hnode
    obtain ⟨lid, hlookup⟩ := lookup_isSome_iff.mpr hnode
    have hmem := mem_of_lookup hlookup
    have hkind := h.shuffles.kinds _ hmem
    have hnosort : ∀ comparator, b.graph.kindOf lid ≠ some (.valueSort comparator) := by
      intro comparator
      rw [hkind]
      simp
    simp only [hlookup]
    cases hcomparator : slot.port.valueComparator with
    | none =>
      refine ⟨_, rfl, h.addPortEdges hdone hnew hkey .barrier ?_ ?_ ?_, rfl, rfl⟩
      · simp only [List.mem_singleton]
        rintro p rfl
        exact b.graph.lt_of_kindOf hkind
      · simp only [List.mem_singleton]
        rintro p rfl
        exact hnosort
      · intro _ hin
        simp only [Fed, hcase, hcomparator]
        exact ⟨lid, hmem, hin⟩
    | some comparator =>
      refine ⟨_, rfl, h.addSortNode hdone hnew hkey comparator _ ⟨_, hkind⟩ rfl ?_, rfl, rfl⟩
      intro hsort
      simp only [Fed, hcase, hcomparator]
      exact ⟨lid, _, hmem, hsort⟩

/-- The whole loop. -/
theorem Wired.createEdges (h : Wired config vertices b done) (slots : List InputSlot)
    (hdone : ∀ s ∈ done, s.key.1 < vertices.length)
    (hnodup : ((done ++ slots).map InputSlot.key).Nodup)
    (hkeys : ∀ s ∈ slots, s.key.1 < vertices.length)
    (hsources : ∀ s ∈ slots, ∀ p ∈ s.sources, p.1 < vertices.length)
    (hmovements : ∀ s ∈ slots, s.port.movement ≠ .undefined)
    (hnodes : ∀ s ∈ slots, HasNode b s) :
    ∃ b', slots.foldlM GraphBuilder.createPortEdges b = .ok b' ∧
      Wired config vertices b' (done ++ slots) := by
  induction slots generalizing b done with
  | nil => exact ⟨b, rfl, by simpa using h⟩
  | cons slot slots ih =>
    have hkey := hkeys slot List.mem_cons_self
    have hnew : slot.key ∉ done.map InputSlot.key := by
      rw [List.map_append, List.map_cons] at hnodup
      intro hmem
      exact (List.nodup_append.mp hnodup).2.2 _ hmem _ List.mem_cons_self rfl
    obtain ⟨b₁, hstep, hwired, hshuffle, hgather⟩ := h.createPortEdges hdone hnew hkey
      (hsources slot List.mem_cons_self) (hmovements slot List.mem_cons_self)
      (hnodes slot List.mem_cons_self)
    obtain ⟨b', hrun, hwired'⟩ := ih hwired
      (by
        intro s hs
        rcases List.mem_append.mp hs with hs | hs
        · exact hdone s hs
        · rw [List.mem_singleton.mp hs]
          exact hkey)
      (by simpa using hnodup) (fun s hs => hkeys s (List.mem_cons_of_mem _ hs))
      (fun s hs => hsources s (List.mem_cons_of_mem _ hs))
      (fun s hs => hmovements s (List.mem_cons_of_mem _ hs))
      (by
        intro s hs
        have hold := hnodes s (List.mem_cons_of_mem _ hs)
        unfold HasNode at hold ⊢
        rw [hshuffle, hgather]
        exact hold)
    refine ⟨b', ?_, by simpa using hwired'⟩
    rw [List.foldlM_cons, hstep]
    exact hrun

end PortEdges

/-- The graph that is built. -/
theorem buildLogicalGraph_spec (config : Configuration) (fg : FlowGraph)
    (hmovements : fg.DefinedMovements) :
    ∃ b, buildLogicalGraph config fg = .ok b.graph ∧
      Wired config fg.vertices b (inputSlots fg.vertices) := by
  have hvertex : ∀ {x : PortKey} {iport : InputPort}, inputPort? fg.vertices x = some iport →
      x.1 < fg.vertices.length := by
    intro x iport h
    obtain ⟨v, hv, -⟩ := Option.bind_eq_some_iff.mp h
    exact (List.getElem?_eq_some_iff.mp hv).1
  have hkeys : ∀ s ∈ inputSlots fg.vertices, s.key.1 < fg.vertices.length := fun s hs =>
    hvertex (mem_inputSlots hs).1
  have hsources : ∀ s ∈ inputSlots fg.vertices, ∀ p ∈ s.sources, p.1 < fg.vertices.length := by
    intro s hs p hp
    rw [(mem_inputSlots hs).2] at hp
    obtain ⟨iport, oport, -, hout, -⟩ := fg.valid _ p hp
    obtain ⟨v, hv, -⟩ := Option.bind_eq_some_iff.mp hout
    exact (List.getElem?_eq_some_iff.mp hv).1
  obtain ⟨hwired, hnodes⟩ := (wired_start config fg.vertices).createIntermediateNodes
    (inputSlots fg.vertices) hsources
  obtain ⟨b, hrun, hdone⟩ := hwired.createEdges (inputSlots fg.vertices) (by simp)
    (by simpa using nodup_inputSlots fg.vertices) hkeys hsources
    (fun s hs => hmovements s.key s.port (mem_inputSlots hs).1) fun s hs => hnodes s (Or.inl hs)
  refine ⟨b, ?_, hdone⟩
  rw [buildLogicalGraph]
  simp only [hrun]
  rfl

end M3bp.GraphBuilder
