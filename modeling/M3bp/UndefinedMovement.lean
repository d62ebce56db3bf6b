import M3bp.GraphWiring

/-!
When a graph is refused. The only thing that fails is the lookup of a node, and
the only ports that may lack one are those whose movement is undefined. Such a
port finds a node if a scatter-gather port has the same sources.
-/
namespace M3bp.GraphBuilder

variable {config : Configuration} {vertices : List Vertex} {b : State}

/-- The lookup for a port succeeds. -/
def Connects (b : State) (slot : InputSlot) : Prop :=
  match slot.port.movement with
  | .oneToOne => True
  | .broadcast => ∃ t, (normalizePortSet slot.sources, t) ∈ b.gatherNodes
  | .scatterGather | .undefined => ∃ t, (normalizePortSet slot.sources, t) ∈ b.shuffleNodes

theorem connects_congr {b b' : State} (hs : b'.shuffleNodes = b.shuffleNodes)
    (hg : b'.gatherNodes = b.gatherNodes) (slot : InputSlot) : Connects b' slot ↔ Connects b slot := by
  unfold Connects
  rw [hs, hg]

/-- One port is connected or makes the build fail, and the maps stay. -/
theorem createPortEdges_cases (b : State) (slot : InputSlot) :
    (Connects b slot ∧ ∃ b', createPortEdges b slot = .ok b' ∧ b'.shuffleNodes = b.shuffleNodes ∧
      b'.gatherNodes = b.gatherNodes) ∨
    (¬ Connects b slot ∧ createPortEdges b slot = .error "map::at") := by
  unfold Connects createPortEdges
  cases slot.port.movement with
  | oneToOne => exact Or.inl ⟨trivial, _, rfl, rfl, rfl⟩
  | broadcast =>
    simp only
    rw [← lookup_isSome_iff]
    rcases b.gatherNodes.lookup (normalizePortSet slot.sources) with _ | gid
    · exact Or.inr ⟨by simp, rfl⟩
    · exact Or.inl ⟨⟨gid, rfl⟩, _, rfl, rfl, rfl⟩
  | scatterGather | undefined =>
    simp only
    rw [← lookup_isSome_iff]
    rcases b.shuffleNodes.lookup (normalizePortSet slot.sources) with _ | lid
    · exact Or.inr ⟨by simp, rfl⟩
    · refine Or.inl ⟨⟨lid, rfl⟩, ?_⟩
      rcases slot.port.valueComparator with _ | comparator
      · exact ⟨_, rfl, rfl, rfl⟩
      · exact ⟨_, rfl, rfl, rfl⟩

/-- The loop fails if and only if some port is not connected. -/
theorem createEdges_fails_iff (b : State) (slots : List InputSlot) :
    (∃ e, slots.foldlM createPortEdges b = .error e) ↔ ∃ slot ∈ slots, ¬ Connects b slot := by
  induction slots generalizing b with
  | nil => simp [pure, Except.pure]
  | cons slot slots ih =>
    rw [List.foldlM_cons]
    rcases createPortEdges_cases b slot with ⟨hconnects, b', hstep, hs, hg⟩ | ⟨hno, hstep⟩
    · rw [hstep]
      have hrest := ih b'
      simp only [connects_congr hs hg] at hrest
      rw [List.exists_mem_cons_iff]
      simp only [hconnects, not_true_eq_false, false_or]
      exact hrest
    · rw [hstep]
      exact ⟨fun _ => ⟨slot, List.mem_cons_self, hno⟩, fun _ => ⟨_, rfl⟩⟩

/-- Shuffle nodes are made for scatter-gather ports only. -/
theorem shuffleNodes_createIntermediateNodes (slots : List InputSlot) {ps : PortSet} {t : ℕ}
    (h : (ps, t) ∈ (slots.foldl (createIntermediateNode config vertices) b).shuffleNodes) :
    (ps, t) ∈ b.shuffleNodes ∨
      ∃ slot ∈ slots, slot.port.movement = .scatterGather ∧ normalizePortSet slot.sources = ps := by
  induction slots generalizing b with
  | nil => exact Or.inl h
  | cons slot slots ih =>
    rcases ih h with hold | ⟨s, hs, hrest⟩
    · have hstep : (ps, t) ∈ b.shuffleNodes ∨
          (slot.port.movement = .scatterGather ∧ normalizePortSet slot.sources = ps) := by
        unfold createIntermediateNode at hold
        split at hold
        · next hmovement =>
          simp only [createShuffleNode, createNode] at hold
          split at hold
          · exact Or.inl hold
          · rcases List.mem_cons.mp hold with heq | hold
            · exact Or.inr ⟨hmovement, (Prod.mk.inj heq).1.symm⟩
            · exact Or.inl hold
        all_goals exact Or.inl hold
      exact hstep.imp_right fun hnew => ⟨slot, List.mem_cons_self, hnew⟩
    · exact Or.inr ⟨s, List.mem_cons_of_mem slot hs, hrest⟩

def HasUndefined (fg : FlowGraph) : Prop :=
  ∃ x iport, inputPort? fg.vertices x = some iport ∧ iport.movement = .undefined

/-- Some port is undefined and has sources that no scatter-gather port has. -/
def HasUnshared (fg : FlowGraph) : Prop :=
  ∃ x iport, inputPort? fg.vertices x = some iport ∧ iport.movement = .undefined ∧
    ∀ y iport', inputPort? fg.vertices y = some iport' → iport'.movement = .scatterGather →
      ¬ (sourcesOf fg.vertices x).Perm (sourcesOf fg.vertices y)

/-- The build fails exactly where an undefined port finds no shuffle node. -/
theorem buildLogicalGraph_fails_iff (config : Configuration) (fg : FlowGraph) :
    (∃ e, buildLogicalGraph config fg = .error e) ↔ HasUnshared fg := by
  let slots := inputSlots fg.vertices
  have hsources : ∀ s ∈ slots, ∀ p ∈ s.sources, p.1 < fg.vertices.length := by
    intro s hs p hp
    rw [(mem_inputSlots hs).2] at hp
    obtain ⟨iport, oport, -, hout, -⟩ := fg.valid _ p hp
    obtain ⟨v, hv, -⟩ := Option.bind_eq_some_iff.mp hout
    exact (List.getElem?_eq_some_iff.mp hv).1
  obtain ⟨-, hnodes⟩ := (wired_start config fg.vertices).createIntermediateNodes slots hsources
  set start : State :=
    { graph := createProcessorNodes config fg.vertices, shuffleNodes := [], gatherNodes := [] }
  set b := slots.foldl (createIntermediateNode config fg.vertices) start
  have hbuild : (∃ e, buildLogicalGraph config fg = .error e) ↔
      ∃ e, slots.foldlM createPortEdges b = .error e := by
    have heq : buildLogicalGraph config fg =
        (slots.foldlM createPortEdges b >>= fun b => pure b.graph) := rfl
    rw [heq]
    rcases slots.foldlM createPortEdges b with e | b'
    · exact ⟨fun _ => ⟨e, rfl⟩, fun _ => ⟨e, rfl⟩⟩
    · refine ⟨fun ⟨e, he⟩ => ?_, fun ⟨e, he⟩ => ?_⟩ <;> cases he
  have hkeys : ∀ slot ∈ slots, slot.port.movement = .undefined →
      ((∃ t, (normalizePortSet slot.sources, t) ∈ b.shuffleNodes) ↔
        ∃ s ∈ slots, s.port.movement = .scatterGather ∧ slot.sources.Perm s.sources) := by
    intro slot _ _
    constructor
    · rintro ⟨t, ht⟩
      rcases shuffleNodes_createIntermediateNodes slots ht with hnil | ⟨s, hs, hmovement, heq⟩
      · cases hnil
      · exact ⟨s, hs, hmovement, normalizePortSet_eq_iff.mp heq.symm⟩
    · rintro ⟨s, hs, hmovement, hperm⟩
      have hnode := hnodes s (Or.inl hs)
      unfold HasNode at hnode
      rw [hmovement] at hnode
      rw [normalizePortSet_eq_iff.mpr hperm]
      exact hnode
  rw [hbuild, createEdges_fails_iff]
  constructor
  · rintro ⟨slot, hslot, hno⟩
    have hnode := hnodes slot (Or.inl hslot)
    obtain ⟨hport, hsrc⟩ := mem_inputSlots hslot
    cases hcase : slot.port.movement with
    | undefined =>
      refine ⟨slot.key, slot.port, hport, hcase, fun y iport' hy hmovement hperm => hno ?_⟩
      obtain ⟨s, hs, rfl, rfl⟩ := exists_slot hy
      unfold Connects
      rw [hcase]
      refine (hkeys slot hslot hcase).mpr ⟨s, hs, hmovement, ?_⟩
      rw [hsrc, (mem_inputSlots hs).2]
      exact hperm
    | oneToOne =>
      unfold Connects at hno
      rw [hcase] at hno
      exact absurd trivial hno
    | scatterGather =>
      unfold Connects at hno
      unfold HasNode at hnode
      rw [hcase] at hno hnode
      exact absurd hnode hno
    | broadcast =>
      unfold Connects at hno
      unfold HasNode at hnode
      rw [hcase] at hno hnode
      exact absurd hnode hno
  · rintro ⟨x, iport, hx, hmovement, hunshared⟩
    obtain ⟨slot, hslot, rfl, rfl⟩ := exists_slot hx
    refine ⟨slot, hslot, fun hconnects => ?_⟩
    unfold Connects at hconnects
    rw [hmovement] at hconnects
    obtain ⟨s, hs, hmovement', hperm⟩ := (hkeys slot hslot hmovement).mp hconnects
    obtain ⟨hport', hsrc'⟩ := mem_inputSlots hs
    refine hunshared s.key s.port hport' hmovement' ?_
    rw [← (mem_inputSlots hslot).2, ← hsrc']
    exact hperm

/-- Undefined movements are what makes the build fail, except where every
undefined port has the sources of some scatter-gather port. -/
theorem undefined_rejected_iff (config : Configuration) (calls : List FlowGraph.Call) :
    ((∃ e, buildLogicalGraph config (FlowGraph.build calls) = .error e) ↔
      HasUndefined (FlowGraph.build calls)) ↔
    (HasUndefined (FlowGraph.build calls) → HasUnshared (FlowGraph.build calls)) := by
  rw [buildLogicalGraph_fails_iff]
  refine ⟨fun h => h.mpr, fun h => ⟨fun ⟨x, iport, hx, hmovement, _⟩ => ⟨x, iport, hx, hmovement⟩, h⟩⟩

/-- Two ports with the same source, one of them undefined. -/
def mixedProcessor : Processor :=
  { inputPorts :=
      [{ name := "gathered", movement := .scatterGather, valueComparator := none },
        { name := "forgotten", movement := .undefined, valueComparator := none }]
    outputPorts := [{ name := "out", hasKey := true }]
    taskCount := 0
    maxConcurrency := 1
    consistent := by decide }

/-- Two ports without sources are wired to one shuffle node. -/
theorem undefined_not_rejected :
    ¬ ((∃ e, buildLogicalGraph { maxConcurrency := 1, partitionCount := 1 }
        (FlowGraph.build [.addVertex "mixed" mixedProcessor]) = .error e) ↔
      HasUndefined (FlowGraph.build [.addVertex "mixed" mixedProcessor])) := by
  have hundefined : HasUndefined (FlowGraph.build [.addVertex "mixed" mixedProcessor]) :=
    ⟨(0, 1), _, rfl, rfl⟩
  rw [buildLogicalGraph_fails_iff]
  intro h
  obtain ⟨x, iport, hx, hmovement, hunshared⟩ := h.mpr hundefined
  refine hunshared (0, 0) _ rfl rfl ?_
  have hnil : ∀ y, sourcesOf (FlowGraph.build [.addVertex "mixed" mixedProcessor]).vertices y = [] :=
    fun y => FlowGraph.sourcesOf_append [] "mixed" mixedProcessor y
  rw [hnil x, hnil (0, 0)]

end M3bp.GraphBuilder
