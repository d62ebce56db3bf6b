import M3bp.GraphWiring

/-!
The logical graph means what the flow graph means: between an output port and an
input port there are as many data paths as there are edges in the flow graph.
-/
namespace M3bp

open GraphBuilder

namespace LogicalGraph

/-- The node `s` feeds the port `x`, perhaps through a value sort. -/
def FedBy (g : LogicalGraph) (s : ℕ) (x : PortKey) : Prop :=
  (∃ e ∈ g.edges, e.producer = (s, 0) ∧ e.consumer = x) ∨
    ∃ t comparator, g.kindOf t = some (.valueSort comparator) ∧
      (∃ e ∈ g.edges, e.producer = (s, 0) ∧ e.consumer = (t, 0)) ∧
      ∃ e ∈ g.edges, e.producer = (t, 0) ∧ e.consumer = x

def ShareShuffle (g : LogicalGraph) (x y : PortKey) : Prop :=
  ∃ s count, g.kindOf s = some (.shuffle count) ∧ g.FedBy s x ∧ g.FedBy s y

def ShareGather (g : LogicalGraph) (x y : PortKey) : Prop :=
  ∃ s, g.kindOf s = some .gather ∧ g.FedBy s x ∧ g.FedBy s y

theorem mem_incoming {g : LogicalGraph} {x p : PortKey} {succ : PhysicalSuccessor} :
    (p, succ) ∈ g.incoming x ↔ (⟨p, x, succ⟩ : Edge) ∈ g.edges := by
  simp only [incoming, List.mem_map, List.mem_filter, decide_eq_true_eq, Prod.mk.injEq]
  constructor
  · rintro ⟨e, ⟨he, rfl⟩, rfl, rfl⟩
    exact he
  · exact fun he => ⟨_, ⟨he, rfl⟩, rfl, rfl⟩

theorem exists_edge_iff {g : LogicalGraph} {x p : PortKey} :
    (∃ e ∈ g.edges, e.producer = p ∧ e.consumer = x) ↔ p ∈ (g.incoming x).map Prod.fst := by
  simp only [incoming, List.map_map, List.mem_map, List.mem_filter, decide_eq_true_eq,
    Function.comp_apply]
  constructor
  · rintro ⟨e, he, hp, hx⟩
    exact ⟨e, ⟨he, hx⟩, hp⟩
  · rintro ⟨e, ⟨he, hx⟩, hp⟩
    exact ⟨e, he, hp, hx⟩

/-- The only edge into a port has one place in the list. -/
theorem exists_place {g : LogicalGraph} {x p : PortKey} {succ : PhysicalSuccessor}
    (h : g.incoming x = [(p, succ)]) :
    ∃ e : Fin g.edges.length, g.edges[e].producer = p ∧
      ∀ e' : Fin g.edges.length, g.edges[e'].consumer = x ↔ e' = e := by
  obtain ⟨e, hfilter, heq⟩ := List.map_eq_singleton_iff.mp h
  obtain ⟨i, hi, hget, honly⟩ := EdgePath.exists_place hfilter
  refine ⟨⟨i, hi⟩, ?_, fun e' => ?_⟩
  · simp only [Fin.getElem_fin, hget]
    exact (Prod.mk.inj heq).1
  · rw [Fin.ext_iff]
    exact honly e'.val e'.isLt

/-- Paths that are single edges. -/
theorem pathCount_direct {g : LogicalGraph} {source target : PortKey}
    (h : ∀ p ∈ (g.incoming target).map Prod.fst, ¬ g.IsIntermediate p.1) :
    g.PathCount source target (((g.incoming target).map Prod.fst).count source) := by
  have hcount : ((g.incoming target).map Prod.fst).count source =
      g.edges.countP fun e => e.producer = source ∧ e.consumer = target := by
    rw [incoming, List.map_map, List.count, List.countP_map, List.countP_filter]
    refine List.countP_congr fun e _ => ?_
    simp
  rw [hcount]
  refine EdgePath.counts_direct fun e he e' he' htarget hrelays => ?_
  obtain ⟨hintermediate, hproducer⟩ := hrelays
  have hmem := exists_edge_iff.mp ⟨e', he', rfl, htarget⟩
  rw [hproducer] at hmem
  exact h _ hmem hintermediate

/-- Paths through the one node that feeds a port. -/
theorem pathCount_through {g : LogicalGraph} {source target : PortKey} {m k : ℕ}
    {succ : PhysicalSuccessor} (h : g.incoming target = [((m, 0), succ)]) (hm : g.IsIntermediate m)
    (hport : ∀ q, q ≠ 0 → g.incoming (m, q) = []) (hsource : source.1 ≠ m)
    (hcount : g.PathCount source (m, 0) k) : g.PathCount source target k := by
  obtain ⟨e, hproducer, honly⟩ := exists_place h
  refine EdgePath.counts_through e honly ?_ ?_ hcount
  · rw [hproducer]
    rintro rfl
    exact hsource rfl
  · intro e' he'
    rw [Relays, hproducer]
    constructor
    · rintro ⟨-, heq⟩
      have hfirst : e'.consumer.1 = m := (Prod.mk.inj heq).1.symm
      by_cases hq : e'.consumer.2 = 0
      · exact Prod.ext hfirst hq
      · have hmem := mem_incoming.mpr (show (⟨e'.producer, e'.consumer, e'.physicalSuccessor⟩ : Edge) ∈
          g.edges from he')
        have hconsumer : e'.consumer = (m, e'.consumer.2) := Prod.ext hfirst rfl
        rw [hconsumer, hport _ hq] at hmem
        cases hmem
    · rintro heq
      rw [heq]
      exact ⟨hm, rfl⟩

end LogicalGraph

namespace GraphBuilder

open LogicalGraph (FedBy ShareShuffle ShareGather pathCount_direct pathCount_through mem_incoming
  exists_edge_iff)

section Paths

variable {config : Configuration} {vertices : List Vertex} {b : State} {slots : List InputSlot}
  {g : LogicalGraph} {n : ℕ} {kind : TaskKind} {succ : PhysicalSuccessor} {nodes : PortSetToTaskMap}

theorem NodesWired.producers (h : NodesWired g n kind succ nodes) {ps : PortSet} {t : ℕ}
    (hmem : (ps, t) ∈ nodes) : (g.incoming (t, 0)).map Prod.fst = ps := by
  rw [h.fed _ hmem, List.map_map]
  exact List.map_id ps

/-- Paths into a shuffle or gather node. -/
theorem NodesWired.pathCount (h : NodesWired g n kind succ nodes)
    (hprocess : ∀ t, g.IsIntermediate t → n ≤ t) {ps : PortSet} {t : ℕ} (hmem : (ps, t) ∈ nodes)
    (source : PortKey) : g.PathCount source (t, 0) (ps.count source) := by
  have hproducers := h.producers hmem
  have hcount := @pathCount_direct g source (t, 0) (by
    rw [hproducers]
    intro p hp hintermediate
    have hlt := h.sources _ hmem p hp
    have hle := hprocess p.1 hintermediate
    omega)
  rw [hproducers] at hcount
  exact hcount

theorem NodesWired.isIntermediate (h : NodesWired g n kind succ nodes)
    (hkind : kind.isIntermediate = true) {ps : PortSet} {t : ℕ} (hmem : (ps, t) ∈ nodes) :
    g.IsIntermediate t := ⟨kind, h.kinds _ hmem, hkind⟩

/-- Paths into an input port. -/
theorem Wired.pathCount (h : Wired config vertices b slots) {slot : InputSlot} (hslot : slot ∈ slots)
    (hsources : ∀ p ∈ slot.sources, p.1 < vertices.length) {source : PortKey}
    (hsource : source.1 < vertices.length) :
    b.graph.PathCount source slot.key (slot.sources.count source) := by
  have hprocess : ∀ t, b.graph.IsIntermediate t → vertices.length ≤ t := fun t =>
    h.le_of_isIntermediate
  have hcount : (normalizePortSet slot.sources).count source = slot.sources.count source :=
    (normalizePortSet_perm slot.sources).count_eq source
  have hfed := h.fed slot hslot
  unfold Fed at hfed
  split at hfed
  · have hproducers : (b.graph.incoming slot.key).map Prod.fst = slot.sources := by
      rw [hfed, List.map_map]
      exact List.map_id slot.sources
    have hpaths := @pathCount_direct b.graph source slot.key (by
      rw [hproducers]
      intro p hp hintermediate
      have hlt := hsources p hp
      have hle := hprocess p.1 hintermediate
      omega)
    rw [hproducers] at hpaths
    exact hpaths
  · obtain ⟨t, hmem, hin⟩ := hfed
    have hnode := h.gathers.isIntermediate rfl hmem
    have hle := hprocess t hnode
    rw [← hcount]
    exact pathCount_through hin hnode (h.gathers.unfed _ hmem) (by omega)
      (h.gathers.pathCount hprocess hmem source)
  · obtain ⟨t, hmem, hin⟩ := hfed
    have hnode := h.shuffles.isIntermediate rfl hmem
    have hle := hprocess t hnode
    rw [← hcount]
    exact pathCount_through hin hnode (h.shuffles.unfed _ hmem) (by omega)
      (h.shuffles.pathCount hprocess hmem source)
  · obtain ⟨s, t, hmem, hsort⟩ := hfed
    have hnode := h.shuffles.isIntermediate rfl hmem
    have hle := hprocess s hnode
    have hle' := hprocess t hsort.isIntermediate
    rw [← hcount]
    exact pathCount_through hsort.last hsort.isIntermediate hsort.unfed (by omega)
      (pathCount_through hsort.fed hnode (h.shuffles.unfed _ hmem) (by omega)
        (h.shuffles.pathCount hprocess hmem source))

end Paths

section Sharing

variable {config : Configuration} {vertices : List Vertex} {b : State} {slots : List InputSlot}

theorem eq_of_kindOf {g : LogicalGraph} {t : ℕ} {k k' : TaskKind} (h : g.kindOf t = some k)
    (h' : g.kindOf t = some k') : k = k' := by
  rw [h] at h'
  exact Option.some.inj h'

/-- The shuffle node that feeds a scatter-gather port. -/
theorem Wired.fedBy_shuffle (h : Wired config vertices b slots) {slot : InputSlot}
    (hslot : slot ∈ slots) (hmovement : slot.port.movement = .scatterGather) :
    ∃ t, (normalizePortSet slot.sources, t) ∈ b.shuffleNodes ∧ b.graph.FedBy t slot.key ∧
      ∀ s count, b.graph.kindOf s = some (.shuffle count) → b.graph.FedBy s slot.key → s = t := by
  have hfed := h.fed slot hslot
  unfold Fed at hfed
  rw [hmovement] at hfed
  cases hcomparator : slot.port.valueComparator with
  | none =>
    rw [hcomparator] at hfed
    obtain ⟨t, hmem, hin⟩ := hfed
    refine ⟨t, hmem, Or.inl (exists_edge_iff.mpr (by simp [hin])), ?_⟩
    rintro s count hs (hedge | ⟨u, comparator, hu, -, hedge⟩)
    · rw [exists_edge_iff, hin] at hedge
      simpa using hedge
    · rw [exists_edge_iff, hin] at hedge
      obtain rfl : u = t := by simpa using hedge
      cases eq_of_kindOf hu (h.shuffles.kinds _ hmem)
  | some comparator =>
    rw [hcomparator] at hfed
    obtain ⟨t, v, hmem, hsort⟩ := hfed
    refine ⟨t, hmem, Or.inr ⟨v, comparator, hsort.kind, exists_edge_iff.mpr (by simp [hsort.fed]),
      exists_edge_iff.mpr (by simp [hsort.last])⟩, ?_⟩
    rintro s count hs (hedge | ⟨u, comparator', hu, hfirst, hedge⟩)
    · rw [exists_edge_iff, hsort.last] at hedge
      obtain rfl : s = v := by simpa using hedge
      cases eq_of_kindOf hs hsort.kind
    · rw [exists_edge_iff, hsort.last] at hedge
      obtain rfl : u = v := by simpa using hedge
      rw [exists_edge_iff, hsort.fed] at hfirst
      simpa using hfirst

/-- The gather node that feeds a broadcast port. -/
theorem Wired.fedBy_gather (h : Wired config vertices b slots) {slot : InputSlot}
    (hslot : slot ∈ slots) (hmovement : slot.port.movement = .broadcast) :
    ∃ t, (normalizePortSet slot.sources, t) ∈ b.gatherNodes ∧ b.graph.FedBy t slot.key ∧
      ∀ s, b.graph.kindOf s = some .gather → b.graph.FedBy s slot.key → s = t := by
  have hfed := h.fed slot hslot
  unfold Fed at hfed
  rw [hmovement] at hfed
  obtain ⟨t, hmem, hin⟩ := hfed
  refine ⟨t, hmem, Or.inl (exists_edge_iff.mpr (by simp [hin])), ?_⟩
  rintro s hs (hedge | ⟨u, comparator, hu, -, hedge⟩)
  · rw [exists_edge_iff, hin] at hedge
    simpa using hedge
  · rw [exists_edge_iff, hin] at hedge
    obtain rfl : u = t := by simpa using hedge
    cases eq_of_kindOf hu (h.gathers.kinds _ hmem)

/-- Nodes of a map are the same if and only if their port sets are. -/
theorem NodesWired.eq_iff {g : LogicalGraph} {n : ℕ} {kind : TaskKind} {succ : PhysicalSuccessor}
    {nodes : PortSetToTaskMap} (h : NodesWired g n kind succ nodes) {ps ps' : PortSet} {t t' : ℕ}
    (hmem : (ps, t) ∈ nodes) (hmem' : (ps', t') ∈ nodes) : t = t' ↔ ps = ps' := by
  constructor
  · rintro rfl
    have heq := List.inj_on_of_nodup_map h.ids hmem hmem' rfl
    exact (Prod.mk.inj heq).1
  · rintro rfl
    have heq := List.inj_on_of_nodup_map h.keys hmem hmem' rfl
    exact (Prod.mk.inj heq).2

theorem Wired.shareShuffle_iff (h : Wired config vertices b slots) {slot slot' : InputSlot}
    (hslot : slot ∈ slots) (hslot' : slot' ∈ slots) (hmovement : slot.port.movement = .scatterGather)
    (hmovement' : slot'.port.movement = .scatterGather) :
    b.graph.ShareShuffle slot.key slot'.key ↔ slot.sources.Perm slot'.sources := by
  obtain ⟨t, hmem, hfed, honly⟩ := h.fedBy_shuffle hslot hmovement
  obtain ⟨t', hmem', hfed', honly'⟩ := h.fedBy_shuffle hslot' hmovement'
  rw [← normalizePortSet_eq_iff, ← h.shuffles.eq_iff hmem hmem']
  constructor
  · rintro ⟨s, count, hs, hx, hy⟩
    rw [← honly s count hs hx, ← honly' s count hs hy]
  · rintro rfl
    exact ⟨t, config.partitionCount, h.shuffles.kinds _ hmem, hfed, hfed'⟩

theorem Wired.shareGather_iff (h : Wired config vertices b slots) {slot slot' : InputSlot}
    (hslot : slot ∈ slots) (hslot' : slot' ∈ slots) (hmovement : slot.port.movement = .broadcast)
    (hmovement' : slot'.port.movement = .broadcast) :
    b.graph.ShareGather slot.key slot'.key ↔ slot.sources.Perm slot'.sources := by
  obtain ⟨t, hmem, hfed, honly⟩ := h.fedBy_gather hslot hmovement
  obtain ⟨t', hmem', hfed', honly'⟩ := h.fedBy_gather hslot' hmovement'
  rw [← normalizePortSet_eq_iff, ← h.gathers.eq_iff hmem hmem']
  constructor
  · rintro ⟨s, hs, hx, hy⟩
    rw [← honly s hs hx, ← honly' s hs hy]
  · rintro rfl
    exact ⟨t, h.gathers.kinds _ hmem, hfed, hfed'⟩

/-- What kind of task an edge into an input port comes from. -/
theorem Wired.sort_iff (h : Wired config vertices b slots) {slot : InputSlot} (hslot : slot ∈ slots)
    (hmovement : slot.port.movement ≠ .undefined)
    (hsources : ∀ p ∈ slot.sources, p.1 < vertices.length) (comparator : ValueComparator) :
    (∃ e ∈ b.graph.edges, e.consumer = slot.key ∧
      b.graph.kindOf e.producer.1 = some (.valueSort comparator)) ↔
      slot.port.movement = .scatterGather ∧ slot.port.valueComparator = some comparator := by
  have hedge : (∃ e ∈ b.graph.edges, e.consumer = slot.key ∧
      b.graph.kindOf e.producer.1 = some (.valueSort comparator)) ↔
      ∃ p ∈ (b.graph.incoming slot.key).map Prod.fst,
        b.graph.kindOf p.1 = some (.valueSort comparator) := by
    constructor
    · rintro ⟨e, he, hconsumer, hkind⟩
      exact ⟨e.producer, exists_edge_iff.mp ⟨e, he, rfl, hconsumer⟩, hkind⟩
    · rintro ⟨p, hp, hkind⟩
      obtain ⟨e, he, rfl, hconsumer⟩ := exists_edge_iff.mpr hp
      exact ⟨e, he, hconsumer, hkind⟩
  rw [hedge]
  have hfed := h.fed slot hslot
  unfold Fed at hfed
  cases hcase : slot.port.movement with
  | undefined => exact absurd hcase hmovement
  | oneToOne =>
    rw [hcase] at hfed
    rw [hfed, List.map_map]
    simp only [Function.comp_def, List.map_id', reduceCtorEq, false_and, iff_false]
    rintro ⟨p, hp, hkind⟩
    have hle := h.le_of_isIntermediate ⟨_, hkind, rfl⟩
    have hlt := hsources p hp
    omega
  | broadcast =>
    rw [hcase] at hfed
    obtain ⟨t, hmem, hin⟩ := hfed
    simp [hin, h.gathers.kinds _ hmem]
  | scatterGather =>
    rw [hcase] at hfed
    cases hcomparator : slot.port.valueComparator with
    | none =>
      rw [hcomparator] at hfed
      obtain ⟨t, hmem, hin⟩ := hfed
      simp [hin, h.shuffles.kinds _ hmem]
    | some comparator' =>
      rw [hcomparator] at hfed
      obtain ⟨s, t, -, hsort⟩ := hfed
      simp [hsort.last, hsort.kind]

/-- Where the edges come from and go to. -/
theorem Wired.edge_cases (h : Wired config vertices b slots) {e : Edge} (he : e ∈ b.graph.edges) :
    (∃ ps t, ((ps, t) ∈ b.shuffleNodes ∨ (ps, t) ∈ b.gatherNodes) ∧ e.consumer = (t, 0) ∧
      e.producer ∈ ps) ∨
    (∃ slot ∈ slots, e.consumer = slot.key) ∨
    ∃ slot ∈ slots, ∃ comparator s t, SortNode b.graph slot.key comparator s t ∧
      e.consumer = (t, 0) ∧ e.producer = (s, 0) := by
  have hmem : (e.producer, e.physicalSuccessor) ∈ b.graph.incoming e.consumer := mem_incoming.mpr he
  rcases Nat.lt_or_ge e.consumer.1 vertices.length with hlt | hge
  · by_cases hslot : e.consumer ∈ slots.map InputSlot.key
    · obtain ⟨slot, hslot, heq⟩ := List.mem_map.mp hslot
      exact Or.inr (Or.inl ⟨slot, hslot, heq.symm⟩)
    · rw [h.unfed _ hlt hslot] at hmem
      cases hmem
  · have hnode : ∀ {kind succ nodes}, NodesWired b.graph vertices.length kind succ nodes →
        e.consumer.1 ∈ nodes.map Prod.snd →
        ∃ ps t, (ps, t) ∈ nodes ∧ e.consumer = (t, 0) ∧ e.producer ∈ ps := by
      intro kind succ nodes hwired hin
      obtain ⟨⟨ps, t⟩, hnode, ht⟩ := List.mem_map.mp hin
      simp only at ht
      by_cases hq : e.consumer.2 = 0
      · have hconsumer : e.consumer = (t, 0) := Prod.ext ht.symm hq
        rw [hconsumer, hwired.fed _ hnode] at hmem
        obtain ⟨p, hp, heq⟩ := List.mem_map.mp hmem
        exact ⟨ps, t, hnode, hconsumer, (Prod.mk.inj heq).1 ▸ hp⟩
      · have hconsumer : e.consumer = (t, e.consumer.2) := Prod.ext ht.symm rfl
        rw [hconsumer, hwired.unfed _ hnode _ hq] at hmem
        cases hmem
    rcases h.covered _ hge (h.endpoints e he).2 with hs | hg | ⟨slot, hslot, comparator, s, hsort⟩
    · obtain ⟨ps, t, hnode, hrest⟩ := hnode h.shuffles hs
      exact Or.inl ⟨ps, t, Or.inl hnode, hrest⟩
    · obtain ⟨ps, t, hnode, hrest⟩ := hnode h.gathers hg
      exact Or.inl ⟨ps, t, Or.inr hnode, hrest⟩
    · refine Or.inr (Or.inr ⟨slot, hslot, comparator, s, e.consumer.1, hsort, ?_⟩)
      by_cases hq : e.consumer.2 = 0
      · have hconsumer : e.consumer = (e.consumer.1, 0) := Prod.ext rfl hq
        rw [hconsumer, hsort.fed] at hmem
        have heq := List.mem_singleton.mp hmem
        exact ⟨hconsumer, (Prod.mk.inj heq).1⟩
      · have hconsumer : e.consumer = (e.consumer.1, e.consumer.2) := rfl
        rw [hconsumer, hsort.unfed _ hq] at hmem
        cases hmem

end Sharing

section Order

variable {config : Configuration} {vertices : List Vertex} {b : State} {slots : List InputSlot}

/-- Over the ranks of the processors that feed a node. -/
def feedRank (rank : ℕ → ℕ) (g : LogicalGraph) (t : ℕ) : ℕ :=
  ((g.incoming (t, 0)).map fun p => rank p.1.1 + 1).foldr max 0

/-- A rank of tasks from a rank of vertices. -/
def taskRank (rank : ℕ → ℕ) (n : ℕ) (g : LogicalGraph) (t : ℕ) : ℕ :=
  if t < n then
    3 * rank t + 3
  else
    match g.kindOf t with
    | some (.valueSort _) => 3 * ((g.incoming (t, 0)).map fun p => feedRank rank g p.1.1).foldr max 0 + 2
    | _ => 3 * feedRank rank g t + 1

theorem foldr_max_le {l : List ℕ} {m : ℕ} (h : ∀ x ∈ l, x ≤ m) : l.foldr max 0 ≤ m := by
  induction l with
  | nil => exact Nat.zero_le m
  | cons a l ih => exact max_le (h a List.mem_cons_self) (ih fun x hx => h x (List.mem_cons_of_mem a hx))

theorem le_foldr_max {l : List ℕ} {x : ℕ} (h : x ∈ l) : x ≤ l.foldr max 0 := by
  induction l with
  | nil => cases h
  | cons a l ih =>
    rcases List.mem_cons.mp h with rfl | h
    · exact le_max_left _ _
    · exact (ih h).trans (le_max_right _ _)

/-- The rank of a shuffle or gather node. -/
theorem NodesWired.taskRank_eq {n : ℕ} {g : LogicalGraph} {kind : TaskKind}
    {succ : PhysicalSuccessor} {nodes : PortSetToTaskMap} (h : NodesWired g n kind succ nodes)
    (hkind : ∀ comparator, kind ≠ .valueSort comparator) (rank : ℕ → ℕ) {ps : PortSet} {t : ℕ}
    (hmem : (ps, t) ∈ nodes) : taskRank rank n g t = 3 * feedRank rank g t + 1 ∧
      feedRank rank g t = (ps.map fun p => rank p.1 + 1).foldr max 0 := by
  constructor
  · have hold := h.old _ hmem
    simp only at hold
    rw [taskRank, if_neg (by omega), h.kinds _ hmem]
    cases kind with
    | valueSort comparator => exact absurd rfl (hkind comparator)
    | _ => rfl
  · rw [feedRank, h.fed _ hmem, List.map_map]
    rfl

/-- Along every edge the rank grows. -/
theorem Wired.taskRank_lt (h : Wired config vertices b slots) {rank : ℕ → ℕ}
    (hkeys : ∀ slot ∈ slots, slot.key.1 < vertices.length)
    (hsources : ∀ slot ∈ slots, ∀ p ∈ slot.sources, p.1 < vertices.length)
    (hrank : ∀ slot ∈ slots, ∀ p ∈ slot.sources, rank p.1 < rank slot.key.1) {e : Edge}
    (he : e ∈ b.graph.edges) :
    taskRank rank vertices.length b.graph e.producer.1 <
      taskRank rank vertices.length b.graph e.consumer.1 := by
  have hprocess : ∀ t < vertices.length,
      taskRank rank vertices.length b.graph t = 3 * rank t + 3 := fun t ht => by
    rw [taskRank, if_pos ht]
  have hbelow : ∀ slot ∈ slots,
      ((normalizePortSet slot.sources).map fun p => rank p.1 + 1).foldr max 0 ≤ rank slot.key.1 := by
    intro slot hslot
    refine foldr_max_le fun x hx => ?_
    obtain ⟨p, hp, rfl⟩ := List.mem_map.mp hx
    exact hrank slot hslot p ((normalizePortSet_perm slot.sources).mem_iff.mp hp)
  have hnode : ∀ {kind succ nodes}, NodesWired b.graph vertices.length kind succ nodes →
      (∀ comparator, kind ≠ .valueSort comparator) → ∀ {ps t}, (ps, t) ∈ nodes → ∀ p ∈ ps,
      taskRank rank vertices.length b.graph p.1 < taskRank rank vertices.length b.graph t := by
    intro kind succ nodes hwired hkind ps t hmem p hp
    obtain ⟨htask, hfeed⟩ := hwired.taskRank_eq hkind rank hmem
    have hle : rank p.1 + 1 ≤ (ps.map fun p => rank p.1 + 1).foldr max 0 :=
      le_foldr_max (List.mem_map_of_mem hp)
    rw [htask, hfeed, hprocess p.1 (hwired.sources _ hmem p hp)]
    omega
  have hsort : ∀ {x comparator s t}, SortNode b.graph x comparator s t →
      taskRank rank vertices.length b.graph t = 3 * feedRank rank b.graph s + 2 ∧
      taskRank rank vertices.length b.graph s = 3 * feedRank rank b.graph s + 1 := by
    intro x comparator s t hsort
    obtain ⟨count, hcount⟩ := hsort.shuffle
    have ht := h.le_of_isIntermediate hsort.isIntermediate
    have hs := h.le_of_isIntermediate ⟨_, hcount, rfl⟩
    constructor
    · rw [taskRank, if_neg (by omega), hsort.kind, hsort.fed]
      simp
    · rw [taskRank, if_neg (by omega), hcount]
  rcases h.edge_cases he with ⟨ps, t, hmem, hconsumer, hproducer⟩ | ⟨slot, hslot, hconsumer⟩ |
      ⟨slot, hslot, comparator, s, t, hnode', hconsumer, hproducer⟩
  · rw [hconsumer]
    rcases hmem with hmem | hmem
    · exact hnode h.shuffles (by simp) hmem _ hproducer
    · exact hnode h.gathers (by simp) hmem _ hproducer
  · have hmem : e.producer ∈ (b.graph.incoming slot.key).map Prod.fst :=
      exists_edge_iff.mp ⟨e, he, rfl, hconsumer⟩
    have hle := hbelow slot hslot
    rw [hconsumer, hprocess slot.key.1 (hkeys slot hslot)]
    have hfed := h.fed slot hslot
    unfold Fed at hfed
    split at hfed
    · rw [hfed, List.map_map] at hmem
      have hsource : e.producer ∈ slot.sources := by simpa using hmem
      have hlt := hrank slot hslot _ hsource
      rw [hprocess _ (hsources slot hslot _ hsource)]
      omega
    · obtain ⟨t, hmem', hin⟩ := hfed
      obtain ⟨htask, hfeed⟩ := h.gathers.taskRank_eq (by simp) rank hmem'
      have hproducer : e.producer = (t, 0) := by simpa [hin] using hmem
      rw [hproducer, htask, hfeed]
      omega
    · obtain ⟨t, hmem', hin⟩ := hfed
      obtain ⟨htask, hfeed⟩ := h.shuffles.taskRank_eq (by simp) rank hmem'
      have hproducer : e.producer = (t, 0) := by simpa [hin] using hmem
      rw [hproducer, htask, hfeed]
      omega
    · obtain ⟨s, t, hmem', hnode'⟩ := hfed
      obtain ⟨-, hfeed⟩ := h.shuffles.taskRank_eq (by simp) rank hmem'
      have hproducer : e.producer = (t, 0) := by simpa [hnode'.last] using hmem
      rw [hproducer, (hsort hnode').1, hfeed]
      omega
  · rw [hconsumer, hproducer, (hsort hnode').1, (hsort hnode').2]
    omega

end Order

end GraphBuilder

/-- The built graph has the tasks and the data paths of the flow graph. -/
structure SameMeaning (config : Configuration) (fg : FlowGraph) (g : LogicalGraph) : Prop where
  processes : ∀ i v, fg.vertices[i]? = some v →
    g.kindOf i = some (createProcessTask config v.processor) ∧ g.nameOf i = some v.name
  intermediate : ∀ t, fg.vertices.length ≤ t → t < g.tasks.length → g.IsIntermediate t
  delivers : g.DeliversAlongEdges
  paths : ∀ source target oport iport, outputPort? fg.vertices source = some oport →
    inputPort? fg.vertices target = some iport →
    g.PathCount source target ((sourcesOf fg.vertices target).count source)
  single : ∀ x iport, inputPort? fg.vertices x = some iport →
    iport.movement = .scatterGather ∨ iport.movement = .broadcast → (g.incoming x).length = 1
  shuffles : ∀ x y iport iport', inputPort? fg.vertices x = some iport →
    inputPort? fg.vertices y = some iport' → iport.movement = .scatterGather →
    iport'.movement = .scatterGather →
    (g.ShareShuffle x y ↔ (sourcesOf fg.vertices x).Perm (sourcesOf fg.vertices y))
  gathers : ∀ x y iport iport', inputPort? fg.vertices x = some iport →
    inputPort? fg.vertices y = some iport' → iport.movement = .broadcast →
    iport'.movement = .broadcast →
    (g.ShareGather x y ↔ (sourcesOf fg.vertices x).Perm (sourcesOf fg.vertices y))
  sorts : ∀ x iport comparator, inputPort? fg.vertices x = some iport →
    ((∃ e ∈ g.edges, e.consumer = x ∧ g.kindOf e.producer.1 = some (.valueSort comparator)) ↔
      iport.movement = .scatterGather ∧ iport.valueComparator = some comparator)
  unshared : ∀ t comparator, g.kindOf t = some (.valueSort comparator) →
    (outgoing g t).length = 1
  acyclic : Acyclic g.Feeds

theorem sameMeaning (config : Configuration) (fg : FlowGraph) (hacyclic : Acyclic fg.Feeds)
    (hmovements : fg.DefinedMovements) :
    ∃ g, buildLogicalGraph config fg = .ok g ∧ SameMeaning config fg g := by
  obtain ⟨b, hbuild, h⟩ := buildLogicalGraph_spec config fg hmovements
  have hslots : ∀ slot ∈ inputSlots fg.vertices, slot.key.1 < fg.vertices.length ∧
      slot.port.movement ≠ .undefined ∧ ∀ p ∈ slot.sources, p.1 < fg.vertices.length := by
    intro slot hslot
    obtain ⟨hport, hsources⟩ := mem_inputSlots hslot
    obtain ⟨v, hv, -⟩ := Option.bind_eq_some_iff.mp hport
    refine ⟨(List.getElem?_eq_some_iff.mp hv).1, hmovements _ _ hport, fun p hp => ?_⟩
    rw [hsources] at hp
    obtain ⟨iport, oport, -, hout, -⟩ := fg.valid _ p hp
    obtain ⟨w, hw, -⟩ := Option.bind_eq_some_iff.mp hout
    exact (List.getElem?_eq_some_iff.mp hw).1
  have hslot : ∀ {x iport}, inputPort? fg.vertices x = some iport →
      ∃ slot ∈ inputSlots fg.vertices, slot.key = x ∧ slot.port = iport ∧
        slot.sources = sourcesOf fg.vertices x := by
    intro x iport hx
    obtain ⟨slot, hmem, rfl, rfl⟩ := exists_slot hx
    exact ⟨slot, hmem, rfl, rfl, (mem_inputSlots hmem).2⟩
  obtain ⟨rank, hrank⟩ := hacyclic.exists_rank (by
    refine (Set.finite_lt_nat fg.vertices.length).subset fun u hu => ?_
    obtain ⟨v, p, j, hmem⟩ := hu
    obtain ⟨iport, oport, -, hout, -⟩ := fg.valid _ _ hmem
    obtain ⟨w, hw, -⟩ := Option.bind_eq_some_iff.mp hout
    exact (List.getElem?_eq_some_iff.mp hw).1)
  refine ⟨b.graph, hbuild, h.processes, ?_, h.delivers, ?_, ?_, ?_, ?_, ?_, ?_, ?_⟩
  · intro t hle hlt
    rcases h.covered t hle hlt with ht | ht | ⟨slot, -, comparator, s, hsort⟩
    · obtain ⟨node, hnode, rfl⟩ := List.mem_map.mp ht
      exact ⟨_, h.shuffles.kinds _ hnode, rfl⟩
    · obtain ⟨node, hnode, rfl⟩ := List.mem_map.mp ht
      exact ⟨_, h.gathers.kinds _ hnode, rfl⟩
    · exact hsort.isIntermediate
  · intro source target oport iport hout hin
    obtain ⟨slot, hmem, rfl, rfl, hsources⟩ := hslot hin
    obtain ⟨v, hv, -⟩ := Option.bind_eq_some_iff.mp hout
    rw [← hsources]
    exact h.pathCount hmem (hslots slot hmem).2.2
      (List.getElem?_eq_some_iff.mp hv).1
  · intro x iport hin hmovement
    obtain ⟨slot, hmem, rfl, rfl, -⟩ := hslot hin
    have hfed := h.fed slot hmem
    unfold Fed at hfed
    split at hfed
    · next hone =>
      rw [hone] at hmovement
      simp at hmovement
    · obtain ⟨t, -, hport⟩ := hfed
      rw [hport]
      rfl
    · obtain ⟨t, -, hport⟩ := hfed
      rw [hport]
      rfl
    · obtain ⟨s, t, -, hsort⟩ := hfed
      rw [hsort.last]
      rfl
  · intro x y iport iport' hx hy hmovement hmovement'
    obtain ⟨slot, hmem, rfl, rfl, hsources⟩ := hslot hx
    obtain ⟨slot', hmem', rfl, rfl, hsources'⟩ := hslot hy
    rw [← hsources, ← hsources']
    exact h.shareShuffle_iff hmem hmem' hmovement hmovement'
  · intro x y iport iport' hx hy hmovement hmovement'
    obtain ⟨slot, hmem, rfl, rfl, hsources⟩ := hslot hx
    obtain ⟨slot', hmem', rfl, rfl, hsources'⟩ := hslot hy
    rw [← hsources, ← hsources']
    exact h.shareGather_iff hmem hmem' hmovement hmovement'
  · intro x iport comparator hin
    obtain ⟨slot, hmem, rfl, rfl, -⟩ := hslot hin
    exact h.sort_iff hmem (hslots slot hmem).2.1 (hslots slot hmem).2.2 comparator
  · intro t comparator hkind
    have hle := h.le_of_isIntermediate ⟨_, hkind, rfl⟩
    rcases h.covered t hle (b.graph.lt_of_kindOf hkind) with ht | ht | ⟨slot, -, comparator', s, hsort⟩
    · obtain ⟨node, hnode, rfl⟩ := List.mem_map.mp ht
      cases eq_of_kindOf hkind (h.shuffles.kinds _ hnode)
    · obtain ⟨node, hnode, rfl⟩ := List.mem_map.mp ht
      cases eq_of_kindOf hkind (h.gathers.kinds _ hnode)
    · rw [hsort.feeds]
      rfl
  · refine Acyclic.of_rank (taskRank rank fg.vertices.length b.graph) fun t t' hfeeds => ?_
    obtain ⟨e, he, rfl, rfl⟩ := hfeeds
    refine h.taskRank_lt (fun slot hs => (hslots slot hs).1) (fun slot hs => (hslots slot hs).2.2)
      (fun slot hs p hp => hrank _ _ ⟨p.2, slot.key.2, ?_⟩) he
    rw [(mem_inputSlots hs).2] at hp
    exact hp

/-- For every sequence of calls. -/
theorem same_meaning_of_calls (config : Configuration) (calls : List FlowGraph.Call)
    (hacyclic : Acyclic (FlowGraph.build calls).Feeds)
    (hmovements : (FlowGraph.build calls).DefinedMovements) :
    ∃ g, buildLogicalGraph config (FlowGraph.build calls) = .ok g ∧
      SameMeaning config (FlowGraph.build calls) g ∧
      ∀ source target oport iport,
        outputPort? (FlowGraph.build calls).vertices source = some oport →
        inputPort? (FlowGraph.build calls).vertices target = some iport →
        g.PathCount source target (FlowGraph.edgeCount source target FlowGraph.empty calls) := by
  obtain ⟨g, hbuild, hmeaning⟩ := sameMeaning config (FlowGraph.build calls) hacyclic hmovements
  refine ⟨g, hbuild, hmeaning, fun source target oport iport hout hin => ?_⟩
  rw [← FlowGraph.count_build]
  exact hmeaning.paths source target oport iport hout hin

/-- A processor with one output port. -/
def sourceProcessor : Processor :=
  { inputPorts := []
    outputPorts := [{ name := "out", hasKey := true }]
    taskCount := 1
    maxConcurrency := 1
    consistent := Processor.consistent_nil }

/-- A processor with one scatter-gather port. -/
def sinkProcessor : Processor :=
  { inputPorts := [{ name := "in", movement := .scatterGather, valueComparator := none }]
    outputPorts := []
    taskCount := 0
    maxConcurrency := 1
    consistent := by simp }

def doubleEdge : List FlowGraph.Call :=
  [.addVertex "source" sourceProcessor, .addVertex "sink" sinkProcessor, .addEdge (0, 0) (1, 0),
    .addEdge (0, 0) (1, 0)]

theorem vertices_doubleEdge : (FlowGraph.build doubleEdge).vertices =
    [Vertex.create "source" sourceProcessor,
      ((Vertex.create "sink" sinkProcessor).addSource 0 (0, 0)).addSource 0 (0, 0)] := rfl

theorem same_meaning_of_doubleEdge :
    ∃ g, buildLogicalGraph { maxConcurrency := 1, partitionCount := 1 }
        (FlowGraph.build doubleEdge) = .ok g ∧
      SameMeaning { maxConcurrency := 1, partitionCount := 1 } (FlowGraph.build doubleEdge) g ∧
      ∀ source target oport iport,
        outputPort? (FlowGraph.build doubleEdge).vertices source = some oport →
        inputPort? (FlowGraph.build doubleEdge).vertices target = some iport →
        g.PathCount source target
          (FlowGraph.edgeCount source target FlowGraph.empty doubleEdge) := by
  refine same_meaning_of_calls _ doubleEdge (Acyclic.of_rank id ?_) ?_
  · rintro u v ⟨p, j, hmem⟩
    rw [vertices_doubleEdge] at hmem
    rcases v with _ | _ | v
    · simp [sourcesOf, Vertex.create, sourceProcessor] at hmem
    · rcases j with _ | j
      · have hsource : (u, p) = ((0, 0) : PortKey) := by
          simpa [sourcesOf, Vertex.create, Vertex.addSource, sinkProcessor] using hmem
        simp [(Prod.mk.inj hsource).1]
      · simp [sourcesOf, Vertex.create, Vertex.addSource, sinkProcessor] at hmem
    · simp [sourcesOf] at hmem
  · rintro ⟨i, j⟩ iport hin
    rw [vertices_doubleEdge] at hin
    rcases i with _ | _ | i
    · simp [inputPort?, Vertex.create, sourceProcessor] at hin
    · rcases j with _ | j
      · have hport : _ = iport := Option.some.inj hin
        rw [← hport]
        decide
      · simp [inputPort?, Vertex.create, Vertex.addSource, sinkProcessor] at hin
    · simp [inputPort?] at hin

end M3bp
