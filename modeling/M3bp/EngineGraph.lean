import M3bp.EngineSteps
import M3bp.GraphMeaning

/-!
What a run relies on in the logical graph that the builder makes: which kinds of
task an edge joins and which physical task it makes wait, and that a
scatter-gather port and a value sort are fed by one edge.
-/
namespace M3bp.Engine

open GraphBuilder

def processor? : TaskKind → Option Processor
  | .inputProcess proc _ | .oneToOneProcess proc _ | .scatterGatherProcess proc _ _ => some proc
  | .shuffle _ | .gather | .valueSort _ => none

def HasPort (kind : TaskKind) (q : ℕ) (movement : Movement) : Prop :=
  ∃ proc iport, processor? kind = some proc ∧ proc.inputPorts[q]? = some iport ∧
    iport.movement = movement

/-- The kinds of the two ends of an edge, with the port it leads to. -/
inductive Joins : TaskKind → TaskKind → ℕ → PhysicalSuccessor → Prop
  | shuffle {kind : TaskKind} {count : ℕ} (h : kind.isIntermediate = false) :
      Joins kind (.shuffle count) 0 .barrier
  | gather {kind : TaskKind} (h : kind.isIntermediate = false) : Joins kind .gather 0 .entry
  | valueSort {count : ℕ} {comparator : ValueComparator} :
      Joins (.shuffle count) (.valueSort comparator) 0 .terminal
  | oneToOne {kind kind' : TaskKind} {q : ℕ} (h : kind.isIntermediate = false)
      (hport : HasPort kind' q .oneToOne) : Joins kind kind' q .barrier
  | broadcast {kind : TaskKind} {q : ℕ} (hport : HasPort kind q .broadcast) :
      Joins .gather kind q .entry
  | partitions {kind : TaskKind} {count q : ℕ} (hport : HasPort kind q .scatterGather) :
      Joins (.shuffle count) kind q .barrier
  | sorted {kind : TaskKind} {comparator : ValueComparator} {q : ℕ}
      (hport : HasPort kind q .scatterGather) : Joins (.valueSort comparator) kind q .barrier

structure Shape (config : Configuration) (g : LogicalGraph) : Prop where
  endpoints : ∀ e ∈ g.edges, e.producer.1 < g.tasks.length ∧ e.consumer.1 < g.tasks.length
  delivers : g.DeliversAlongEdges
  acyclic : Acyclic g.Feeds
  kinds : ∀ l kind, g.kindOf l = some kind → kind = .shuffle config.partitionCount ∨
    kind = .gather ∨ (∃ comparator, kind = .valueSort comparator) ∨
      ∃ proc : Processor, kind = createProcessTask config proc ∧
        ∀ iport ∈ proc.inputPorts, iport.movement ≠ .undefined
  joins : ∀ e ∈ g.edges, ∃ kind kind', g.kindOf e.producer.1 = some kind ∧
    g.kindOf e.consumer.1 = some kind' ∧ Joins kind kind' e.consumer.2 e.physicalSuccessor
  relays : ∀ e ∈ g.edges, g.IsIntermediate e.producer.1 → e.producer.2 = 0
  single : ∀ l kind q movement, g.kindOf l = some kind → HasPort kind q movement →
    movement = .scatterGather ∨ movement = .broadcast → (g.incoming (l, q)).length = 1
  sorts : ∀ l comparator, g.kindOf l = some (.valueSort comparator) →
    (g.incoming (l, 0)).length = 1

theorem processor?_createProcessTask (config : Configuration) (proc : Processor) :
    processor? (createProcessTask config proc) = some proc := by
  unfold createProcessTask
  split
  · rfl
  · split <;> rfl

theorem HasPort.isIntermediate {kind : TaskKind} {q : ℕ} {movement : Movement}
    (h : HasPort kind q movement) : kind.isIntermediate = false := by
  obtain ⟨proc, iport, hproc, -⟩ := h
  cases kind <;> first
    | rfl
    | cases hproc

section Build

variable {config : Configuration} {fg : FlowGraph} {b : GraphBuilder.State}

theorem hasPort_createProcessTask {v : Vertex} {l q : ℕ} {iport : InputPort}
    (hv : fg.vertices[l]? = some v) (hport : inputPort? fg.vertices (l, q) = some iport) :
    HasPort (createProcessTask config v.processor) q iport.movement := by
  refine ⟨v.processor, iport, processor?_createProcessTask config v.processor, ?_, rfl⟩
  simpa [inputPort?, hv] using hport

/-- The vertex that a port belongs to. -/
theorem exists_vertex {x : PortKey} {iport : InputPort}
    (h : inputPort? fg.vertices x = some iport) : ∃ v, fg.vertices[x.1]? = some v := by
  obtain ⟨v, hv, -⟩ := Option.bind_eq_some_iff.mp h
  exact ⟨v, hv⟩

variable (h : Wired config fg.vertices b (inputSlots fg.vertices))

include h

theorem kind_of_vertex {l : ℕ} (hl : l < fg.vertices.length) :
    b.graph.kindOf l = some (createProcessTask config fg.vertices[l].processor) :=
  (h.processes l _ (List.getElem?_eq_getElem hl)).1

theorem built_kinds (hmovements : fg.DefinedMovements) {l : ℕ} {kind : TaskKind}
    (hkind : b.graph.kindOf l = some kind) : kind = .shuffle config.partitionCount ∨
      kind = .gather ∨ (∃ comparator, kind = .valueSort comparator) ∨
      ∃ proc : Processor, kind = createProcessTask config proc ∧
        ∀ iport ∈ proc.inputPorts, iport.movement ≠ .undefined := by
  rcases Nat.lt_or_ge l fg.vertices.length with hlt | hge
  · rw [kind_of_vertex h hlt, Option.some.injEq] at hkind
    refine Or.inr (Or.inr (Or.inr ⟨_, hkind.symm, fun iport hiport => ?_⟩))
    obtain ⟨q, hq, hget⟩ := List.mem_iff_getElem.mp hiport
    refine hmovements (l, q) iport ?_
    simp [inputPort?, List.getElem?_eq_getElem hlt, List.getElem?_eq_getElem hq, hget]
  · rcases h.covered l hge (b.graph.lt_of_kindOf hkind) with hs | hg | ⟨slot, -, comparator, s, hsort⟩
    · obtain ⟨node, hnode, rfl⟩ := List.mem_map.mp hs
      rw [h.shuffles.kinds node hnode, Option.some.injEq] at hkind
      exact Or.inl hkind.symm
    · obtain ⟨node, hnode, rfl⟩ := List.mem_map.mp hg
      rw [h.gathers.kinds node hnode, Option.some.injEq] at hkind
      exact Or.inr (Or.inl hkind.symm)
    · rw [hsort.kind, Option.some.injEq] at hkind
      exact Or.inr (Or.inr (Or.inl ⟨comparator, hkind.symm⟩))

/-- An edge into an input port. -/
theorem built_port_edge (hmovements : fg.DefinedMovements) {slot : InputSlot}
    (hslot : slot ∈ inputSlots fg.vertices) {p : PortKey} {succ : PhysicalSuccessor}
    (hin : (p, succ) ∈ b.graph.incoming slot.key) :
    ∃ kind kind', b.graph.kindOf p.1 = some kind ∧ b.graph.kindOf slot.key.1 = some kind' ∧
      Joins kind kind' slot.key.2 succ ∧ (kind.isIntermediate = true → p.2 = 0) := by
  obtain ⟨hport, hsources⟩ := mem_inputSlots hslot
  obtain ⟨v, hv⟩ := exists_vertex hport
  have hkey : b.graph.kindOf slot.key.1 = some (createProcessTask config v.processor) :=
    (h.processes _ v hv).1
  have hfits := @hasPort_createProcessTask config fg v slot.key.1 slot.key.2 slot.port hv hport
  have hfed := h.fed slot hslot
  unfold Fed at hfed
  cases hmovement : slot.port.movement with
  | undefined => exact absurd hmovement (hmovements _ _ hport)
  | oneToOne =>
    rw [hmovement] at hfed hfits
    rw [hfed] at hin
    obtain ⟨p', hp', heq⟩ := List.mem_map.mp hin
    cases heq
    rw [hsources] at hp'
    obtain ⟨-, oport, -, hout, -⟩ := fg.valid _ p hp'
    obtain ⟨u, hu, -⟩ := Option.bind_eq_some_iff.mp hout
    refine ⟨_, _, (h.processes _ u hu).1, hkey,
      .oneToOne (isIntermediate_createProcessTask config _) hfits, fun hno => ?_⟩
    rw [isIntermediate_createProcessTask] at hno
    cases hno
  | broadcast =>
    rw [hmovement] at hfed hfits
    obtain ⟨t, hmem, hfed⟩ := hfed
    rw [hfed] at hin
    cases List.mem_singleton.mp hin
    exact ⟨_, _, h.gathers.kinds _ hmem, hkey, .broadcast hfits, fun _ => rfl⟩
  | scatterGather =>
    rw [hmovement] at hfed hfits
    cases hcomparator : slot.port.valueComparator with
    | none =>
      rw [hcomparator] at hfed
      obtain ⟨t, hmem, hfed⟩ := hfed
      rw [hfed] at hin
      cases List.mem_singleton.mp hin
      exact ⟨_, _, h.shuffles.kinds _ hmem, hkey, .partitions hfits, fun _ => rfl⟩
    | some comparator =>
      rw [hcomparator] at hfed
      obtain ⟨s, t, -, hsort⟩ := hfed
      rw [hsort.last] at hin
      cases List.mem_singleton.mp hin
      exact ⟨_, _, hsort.kind, hkey, .sorted hfits, fun _ => rfl⟩

theorem built_edge (hmovements : fg.DefinedMovements) {e : Edge} (he : e ∈ b.graph.edges) :
    ∃ kind kind', b.graph.kindOf e.producer.1 = some kind ∧
      b.graph.kindOf e.consumer.1 = some kind' ∧
      Joins kind kind' e.consumer.2 e.physicalSuccessor ∧
      (kind.isIntermediate = true → e.producer.2 = 0) := by
  have hin : (e.producer, e.physicalSuccessor) ∈ b.graph.incoming e.consumer :=
    LogicalGraph.mem_incoming.mpr he
  rcases h.edge_cases he with ⟨ps, t, hmem, hconsumer, hproducer⟩ | ⟨slot, hslot, hconsumer⟩ |
      ⟨slot, hslot, comparator, s, t, hsort, hconsumer, hproducer⟩
  · have hprocess : ∀ {kind succ nodes},
        NodesWired b.graph fg.vertices.length kind succ nodes → (ps, t) ∈ nodes →
        ∃ kind', b.graph.kindOf e.producer.1 = some kind' ∧ kind'.isIntermediate = false ∧
          e.physicalSuccessor = succ := by
      intro kind succ nodes hwired hnode
      refine ⟨_, kind_of_vertex h (hwired.sources _ hnode _ hproducer),
        isIntermediate_createProcessTask config _, ?_⟩
      rw [hconsumer, hwired.fed _ hnode] at hin
      obtain ⟨p, -, heq⟩ := List.mem_map.mp hin
      exact (Prod.mk.inj heq).2.symm
    rcases hmem with hmem | hmem
    · obtain ⟨kind', hkind', hno, hsucc⟩ := hprocess h.shuffles hmem
      refine ⟨kind', _, hkind', by rw [hconsumer]; exact h.shuffles.kinds _ hmem, ?_, fun hyes => ?_⟩
      · rw [hconsumer, hsucc]
        exact .shuffle hno
      · rw [hno] at hyes
        cases hyes
    · obtain ⟨kind', hkind', hno, hsucc⟩ := hprocess h.gathers hmem
      refine ⟨kind', _, hkind', by rw [hconsumer]; exact h.gathers.kinds _ hmem, ?_, fun hyes => ?_⟩
      · rw [hconsumer, hsucc]
        exact .gather hno
      · rw [hno] at hyes
        cases hyes
  · rw [hconsumer] at hin ⊢
    exact built_port_edge h hmovements hslot hin
  · obtain ⟨count, hcount⟩ := hsort.shuffle
    rw [hconsumer, hsort.fed] at hin
    have hsucc : e.physicalSuccessor = .terminal := (Prod.mk.inj (List.mem_singleton.mp hin)).2
    rw [hconsumer, hproducer, hsucc]
    exact ⟨_, _, hcount, hsort.kind, .valueSort, fun _ => rfl⟩

theorem built_single {l q : ℕ} {kind : TaskKind} {movement : Movement}
    (hkind : b.graph.kindOf l = some kind) (hport : HasPort kind q movement)
    (hmovement : movement = .scatterGather ∨ movement = .broadcast) :
    (b.graph.incoming (l, q)).length = 1 := by
  have hl : l < fg.vertices.length := by
    by_contra hge
    have hno := hport.isIntermediate
    rcases h.covered l (Nat.le_of_not_lt hge) (b.graph.lt_of_kindOf hkind) with hs | hg |
        ⟨slot, -, comparator, s, hsort⟩
    · obtain ⟨node, hnode, rfl⟩ := List.mem_map.mp hs
      rw [h.shuffles.kinds node hnode, Option.some.injEq] at hkind
      rw [← hkind] at hno
      cases hno
    · obtain ⟨node, hnode, rfl⟩ := List.mem_map.mp hg
      rw [h.gathers.kinds node hnode, Option.some.injEq] at hkind
      rw [← hkind] at hno
      cases hno
    · rw [hsort.kind, Option.some.injEq] at hkind
      rw [← hkind] at hno
      cases hno
  obtain ⟨proc, iport, hproc, hget, rfl⟩ := hport
  rw [kind_of_vertex h hl, Option.some.injEq] at hkind
  rw [← hkind, processor?_createProcessTask, Option.some.injEq] at hproc
  have hinput : inputPort? fg.vertices (l, q) = some iport := by
    simp [inputPort?, List.getElem?_eq_getElem hl, hproc, hget]
  obtain ⟨slot, hslot, hkey, hiport⟩ := exists_slot hinput
  have hfed := h.fed slot hslot
  unfold Fed at hfed
  rw [hkey, hiport] at hfed
  rcases hmovement with hmovement | hmovement
  · rw [hmovement] at hfed
    cases hcomparator : iport.valueComparator with
    | none =>
      rw [hcomparator] at hfed
      obtain ⟨t, -, hin⟩ := hfed
      rw [hin, List.length_singleton]
    | some comparator =>
      rw [hcomparator] at hfed
      obtain ⟨s, t, -, hsort⟩ := hfed
      rw [hsort.last, List.length_singleton]
  · rw [hmovement] at hfed
    obtain ⟨t, -, hin⟩ := hfed
    rw [hin, List.length_singleton]

theorem built_sorts {l : ℕ} {comparator : ValueComparator}
    (hkind : b.graph.kindOf l = some (.valueSort comparator)) :
    (b.graph.incoming (l, 0)).length = 1 := by
  have hl := h.le_of_isIntermediate ⟨_, hkind, rfl⟩
  rcases h.covered l hl (b.graph.lt_of_kindOf hkind) with hs | hg | ⟨slot, -, comparator', s, hsort⟩
  · obtain ⟨node, hnode, rfl⟩ := List.mem_map.mp hs
    rw [h.shuffles.kinds node hnode] at hkind
    cases hkind
  · obtain ⟨node, hnode, rfl⟩ := List.mem_map.mp hg
    rw [h.gathers.kinds node hnode] at hkind
    cases hkind
  · rw [hsort.fed, List.length_singleton]

end Build

/-- The processors of the logical graph are those of the flow graph. -/
theorem processor_of_build {config : Configuration} {fg : FlowGraph} {g : LogicalGraph}
    (hbuild : buildLogicalGraph config fg = .ok g) (hmovements : fg.DefinedMovements) {l : ℕ}
    {kind : TaskKind} {proc : Processor} (hkind : g.kindOf l = some kind)
    (hproc : processor? kind = some proc) : ∃ v ∈ fg.vertices, v.processor = proc := by
  obtain ⟨b, hb, h⟩ := buildLogicalGraph_spec config fg hmovements
  have hgb : g = b.graph := Except.ok.inj (hbuild.symm.trans hb)
  subst hgb
  rcases Nat.lt_or_ge l fg.vertices.length with hlt | hge
  · rw [kind_of_vertex h hlt, Option.some.injEq] at hkind
    rw [← hkind, processor?_createProcessTask, Option.some.injEq] at hproc
    exact ⟨_, List.getElem_mem hlt, hproc⟩
  · exfalso
    rcases h.covered l hge (b.graph.lt_of_kindOf hkind) with hs | hg | ⟨slot, -, comparator, s, hsort⟩
    · obtain ⟨node, hnode, rfl⟩ := List.mem_map.mp hs
      rw [h.shuffles.kinds node hnode, Option.some.injEq] at hkind
      rw [← hkind] at hproc
      cases hproc
    · obtain ⟨node, hnode, rfl⟩ := List.mem_map.mp hg
      rw [h.gathers.kinds node hnode, Option.some.injEq] at hkind
      rw [← hkind] at hproc
      cases hproc
    · rw [hsort.kind, Option.some.injEq] at hkind
      rw [← hkind] at hproc
      cases hproc

/-- The graph of `build_logical_graph` has this shape. -/
theorem shape_of_build {config : Configuration} {fg : FlowGraph} {g : LogicalGraph}
    (hbuild : buildLogicalGraph config fg = .ok g) (hacyclic : Acyclic fg.Feeds)
    (hmovements : fg.DefinedMovements) : Shape config g := by
  obtain ⟨b, hb, h⟩ := buildLogicalGraph_spec config fg hmovements
  obtain ⟨g', hg', hmeaning⟩ := sameMeaning config fg hacyclic hmovements
  have hgb : g = b.graph := Except.ok.inj (hbuild.symm.trans hb)
  have hgg' : g' = g := Except.ok.inj (hg'.symm.trans hbuild)
  subst hgb hgg'
  refine ⟨h.endpoints, h.delivers, hmeaning.acyclic, fun l kind => built_kinds h hmovements, ?_, ?_,
    fun l kind q movement => built_single h, fun l comparator => built_sorts h⟩
  · intro e he
    obtain ⟨kind, kind', hkind, hkind', hjoins, -⟩ := built_edge h hmovements he
    exact ⟨kind, kind', hkind, hkind', hjoins⟩
  · intro e he hrelay
    obtain ⟨kind, kind', hkind, -, -, hzero⟩ := built_edge h hmovements he
    obtain ⟨kind₀, hkind₀, hyes⟩ := hrelay
    rw [hkind, Option.some.injEq] at hkind₀
    exact hzero (by rw [hkind₀]; exact hyes)

/-- The task that an edge makes wait is the one that its port needs. -/
theorem Joins.waitPlace_eq {g : LogicalGraph} {l q : ℕ} {kind kind' : TaskKind}
    {succ : PhysicalSuccessor} (h : Joins kind kind' q succ) (hkind : g.kindOf l = some kind') :
    waitPlace g (l, q) = some succ := by
  have hport : ∀ {movement}, HasPort kind' q movement →
      waitPlace g (l, q) = some (if movement = .broadcast then .entry else .barrier) := by
    rintro movement ⟨proc, iport, hproc, hget, rfl⟩
    cases kind' <;> cases hproc <;> simp [waitPlace, hkind, hget]
  cases h with
  | shuffle => simp [waitPlace, hkind]
  | gather => simp [waitPlace, hkind]
  | valueSort => simp [waitPlace, hkind]
  | oneToOne _ h => simpa using hport h
  | broadcast h => simpa using hport h
  | partitions h => simpa using hport h
  | sorted h => simpa using hport h

theorem Shape.waits {config : Configuration} {g : LogicalGraph} (h : Shape config g) :
    Waits g := by
  refine ⟨h.endpoints, h.delivers, fun e he => ?_⟩
  obtain ⟨kind, kind', -, hkind', hjoins⟩ := h.joins e he
  exact hjoins.waitPlace_eq hkind'

end M3bp.Engine
