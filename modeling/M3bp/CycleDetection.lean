import M3bp.CycleSearch
import M3bp.FlowGraph

/-!
`FlowGraph::has_cycle`, which searches from each vertex to the vertices that feed
it, and `Context::set_flow_graph`, which refuses what has a cycle.
-/
namespace M3bp

open Relation CycleSearch

namespace FlowGraph

/-- Where the loops of `has_cycle_recur` go from a vertex. -/
def sourceVertices (vertices : List Vertex) (u : ℕ) : Option (List ℕ) :=
  vertices[u]?.map fun vertex => vertex.sources.flatten.map Prod.fst

/-- `has_cycle`, where `visit` is `has_cycle_recur` with a bound for the depth of the recursion.
`none` is an access out of range or a recursion deeper than the bound. -/
def hasCycle (g : FlowGraph) (depth : ℕ) : Option Bool :=
  search (sourceVertices g.vertices) depth (List.range g.vertices.length)
    (Marks.unmarked g.vertices.length)

end FlowGraph

/-- The flow graph that the executor of a `Context` keeps. -/
structure Context where
  flowGraph : FlowGraph

/-- `set_flow_graph`. -/
def Context.setFlowGraph (c : Context) (graph : FlowGraph) (depth : ℕ) :
    Option (Except String Context) :=
  (graph.hasCycle depth).map fun found =>
    if found then .error "A cycle was detected" else .ok { c with flowGraph := graph }

namespace FlowGraph

variable {g : FlowGraph} {u v : ℕ}

/-- The search walks the edges backwards. -/
theorem leads_iff : Leads (sourceVertices g.vertices) u v ↔ g.Feeds v u := by
  constructor
  · rintro ⟨vs, hvs, hv⟩
    obtain ⟨vertex, hvertex, rfl⟩ := Option.map_eq_some_iff.mp hvs
    obtain ⟨⟨v', p⟩, hsrc, rfl⟩ := List.mem_map.mp hv
    obtain ⟨sources, hsources, hmem⟩ := List.mem_flatten.mp hsrc
    obtain ⟨j, hj⟩ := List.mem_iff_getElem?.mp hsources
    refine ⟨p, j, ?_⟩
    simpa [sourcesOf, hvertex, hj] using hmem
  · rintro ⟨p, j, hmem⟩
    unfold sourcesOf at hmem
    simp only at hmem
    cases hvertex : g.vertices[u]? with
    | none =>
      rw [hvertex] at hmem
      cases hmem
    | some vertex =>
      rw [hvertex, Option.bind_some] at hmem
      cases hj : vertex.sources[j]? with
      | none =>
        rw [hj] at hmem
        cases hmem
      | some sources =>
        rw [hj, Option.getD_some] at hmem
        refine ⟨_, by rw [sourceVertices, hvertex]; rfl, ?_⟩
        refine List.mem_map.mpr ⟨(v, p), ?_, rfl⟩
        exact List.mem_flatten.mpr ⟨sources, List.mem_of_getElem? hj, hmem⟩

theorem hasCycle_iff_not_acyclic : HasCycle (sourceVertices g.vertices) ↔ ¬ Acyclic g.Feeds := by
  have hrelation : Leads (sourceVertices g.vertices) = Function.swap g.Feeds := by
    funext u v
    exact propext leads_iff
  unfold HasCycle Acyclic
  rw [hrelation]
  simp only [transGen_swap]
  push Not
  rfl

/-- The sources of a vertex are vertices. -/
theorem sourceVertices_of_lt (hu : u < g.vertices.length) :
    ∃ vs, sourceVertices g.vertices u = some vs ∧ ∀ v ∈ vs, v < g.vertices.length := by
  refine ⟨_, by rw [sourceVertices, List.getElem?_eq_getElem hu]; rfl, fun v hv => ?_⟩
  have hleads : Leads (sourceVertices g.vertices) u v :=
    ⟨_, by rw [sourceVertices, List.getElem?_eq_getElem hu]; rfl, hv⟩
  obtain ⟨p, j, hmem⟩ := leads_iff.mp hleads
  obtain ⟨_, oport, -, hout, -⟩ := g.valid (u, j) (v, p) hmem
  obtain ⟨vertex, hvertex, -⟩ := Option.bind_eq_some_iff.mp hout
  exact (List.getElem?_eq_some_iff.mp hvertex).1

theorem hasCycle_spec (g : FlowGraph) {depth : ℕ} (hdepth : g.vertices.length < depth) :
    ∃ found, g.hasCycle depth = some found ∧ (found = true ↔ ¬ Acyclic g.Feeds) := by
  obtain ⟨found, hrun, hfound⟩ := search_iff (fun u hu => sourceVertices_of_lt hu) hdepth
    fun u hu => by rw [sourceVertices, List.getElem?_eq_none hu]; rfl
  exact ⟨found, hrun, hfound.trans hasCycle_iff_not_acyclic⟩

/-- After any sequence of calls the search ends without leaving the vertices, finds a
cycle exactly if there is one, and the graph is accepted exactly if there is none. -/
theorem cycle_detection (calls : List Call) (c : Context) {depth : ℕ}
    (hdepth : (build calls).vertices.length < depth) :
    (∃ found, (build calls).hasCycle depth = some found ∧
      (found = true ↔ ∃ u, TransGen (build calls).Feeds u u)) ∧
      (Acyclic (build calls).Feeds →
        c.setFlowGraph (build calls) depth = some (.ok { c with flowGraph := build calls })) ∧
      (¬ Acyclic (build calls).Feeds →
        c.setFlowGraph (build calls) depth = some (.error "A cycle was detected")) := by
  obtain ⟨found, hrun, hfound⟩ := hasCycle_spec (build calls) hdepth
  have hiff : (¬ Acyclic (build calls).Feeds) ↔ ∃ u, TransGen (build calls).Feeds u u := by
    unfold Acyclic
    push Not
    rfl
  refine ⟨⟨found, hrun, hfound.trans hiff⟩, fun hacyclic => ?_, fun hcyclic => ?_⟩
  · have hfalse : found = false := by
      cases found with
      | false => rfl
      | true => exact absurd hacyclic (hfound.mp rfl)
    rw [Context.setFlowGraph, hrun, hfalse]
    rfl
  · rw [Context.setFlowGraph, hrun, hfound.mpr hcyclic]
    rfl

/-- A processor with one input and one output port. -/
def relayProcessor : Processor :=
  { inputPorts := [{ name := "in", movement := .oneToOne, valueComparator := none }]
    outputPorts := [{ name := "out", hasKey := false }]
    taskCount := 0
    maxConcurrency := 1
    consistent := Processor.consistent_oneToOne "in" }

/-- Three vertices in a ring, and a call that throws. -/
def ring : List Call :=
  [.addVertex "a" relayProcessor, .addVertex "b" relayProcessor, .addVertex "c" relayProcessor,
    .addEdge (0, 0) (1, 0), .addEdge (1, 0) (2, 0), .addEdge (2, 0) (3, 0), .addEdge (2, 0) (0, 0)]

theorem cycle_detection_ring :
    (∃ u, TransGen (build ring).Feeds u u) ∧
      (⟨empty⟩ : Context).setFlowGraph (build ring) 4 = some (.error "A cycle was detected") := by
  have hrun : (build ring).hasCycle 4 = some true := by decide
  obtain ⟨⟨found, hfound, hiff⟩, -, hreject⟩ := cycle_detection ring ⟨empty⟩ (by decide : _ < 4)
  rw [hrun] at hfound
  cases hfound
  obtain ⟨u, hcycle⟩ := hiff.mp rfl
  exact ⟨⟨u, hcycle⟩, hreject fun hacyclic => hacyclic u hcycle⟩

end FlowGraph

end M3bp
