import M3bp.Acyclic
import M3bp.ByteMemory

/-!
The flow graph of the API. A vertex is a processor and, for each of its input
ports, the list of output ports that feed it, one entry for each edge that was
added. Edges between ports that do not exist, and edges without keys into a
scatter-gather port, are refused.
-/
namespace M3bp

inductive Movement where
  | undefined
  | oneToOne
  | scatterGather
  | broadcast
  deriving DecidableEq, Repr

/-- A comparator is called with two pointers to values. -/
abbrev ValueComparator := ByteMemory → ℕ → ℕ → Bool

structure InputPort where
  name : String
  movement : Movement
  valueComparator : Option ValueComparator

structure OutputPort where
  name : String
  hasKey : Bool

/-- `ProcessorBase`; the constructor refuses ports that contradict each other. -/
structure Processor where
  inputPorts : List InputPort
  outputPorts : List OutputPort
  taskCount : ℕ
  maxConcurrency : ℕ
  consistent : ¬ ((∃ p ∈ inputPorts, p.movement = .oneToOne) ∧
    ∃ p ∈ inputPorts, p.movement = .scatterGather)

theorem Processor.consistent_nil :
    ¬ ((∃ p ∈ ([] : List InputPort), p.movement = .oneToOne) ∧
      ∃ p ∈ ([] : List InputPort), p.movement = .scatterGather) := by simp

theorem Processor.consistent_oneToOne (name : String) :
    ¬ ((∃ p ∈ [InputPort.mk name .oneToOne none], p.movement = .oneToOne) ∧
      ∃ p ∈ [InputPort.mk name .oneToOne none], p.movement = .scatterGather) := by simp

def Processor.create (iports : List InputPort) (oports : List OutputPort) :
    Except String Processor :=
  if h : (∃ p ∈ iports, p.movement = .oneToOne) ∧ ∃ p ∈ iports, p.movement = .scatterGather then
    .error "A processor cannot have both an ONE_TO_ONE port and a SCATTER_GATHER pors"
  else
    .ok
      { inputPorts := iports
        outputPorts := oports
        taskCount := 0
        maxConcurrency := 2 ^ 64 - 1
        consistent := h }

/-- A vertex or task and the number of one of its ports. -/
abbrev PortKey := ℕ × ℕ

structure Vertex where
  name : String
  processor : Processor
  sources : List (List PortKey)
  sources_length : sources.length = processor.inputPorts.length

namespace Vertex

def create (name : String) (proc : Processor) : Vertex :=
  { name := name
    processor := proc
    sources := List.replicate proc.inputPorts.length []
    sources_length := List.length_replicate }

/-- `sources()[port].push_back(producer)`. -/
def addSource (v : Vertex) (port : ℕ) (producer : PortKey) : Vertex :=
  { v with
    sources := v.sources.modify port (· ++ [producer])
    sources_length := by rw [List.length_modify, v.sources_length] }

end Vertex

def outputPort? (vertices : List Vertex) (oport : PortKey) : Option OutputPort :=
  vertices[oport.1]?.bind fun v => v.processor.outputPorts[oport.2]?

def inputPort? (vertices : List Vertex) (iport : PortKey) : Option InputPort :=
  vertices[iport.1]?.bind fun v => v.processor.inputPorts[iport.2]?

/-- The output ports that feed an input port. -/
def sourcesOf (vertices : List Vertex) (iport : PortKey) : List PortKey :=
  (vertices[iport.1]?.bind fun v => v.sources[iport.2]?).getD []

/-- Every source is an output port, and one with keys where keys are needed. -/
structure FlowGraph where
  vertices : List Vertex
  valid : ∀ x, ∀ s ∈ sourcesOf vertices x, ∃ iport oport, inputPort? vertices x = some iport ∧
    outputPort? vertices s = some oport ∧ (iport.movement = .scatterGather → oport.hasKey = true)

namespace FlowGraph

theorem sourcesOf_append (vertices : List Vertex) (name : String) (proc : Processor)
    (x : PortKey) :
    sourcesOf (vertices ++ [Vertex.create name proc]) x = sourcesOf vertices x := by
  unfold sourcesOf
  rcases Nat.lt_trichotomy x.1 vertices.length with hlt | heq | hgt
  · rw [List.getElem?_append_left hlt]
  · rw [List.getElem?_append_right heq.ge, List.getElem?_eq_none heq.ge, heq, Nat.sub_self]
    simp only [List.getElem?_cons_zero, Option.bind_some, Option.bind_none, Vertex.create]
    rw [List.getElem?_replicate]
    split <;> rfl
  · rw [List.getElem?_eq_none (by simpa using hgt), List.getElem?_eq_none hgt.le]

theorem inputPort?_append {vertices : List Vertex} (v : Vertex) {x : PortKey} {iport : InputPort}
    (h : inputPort? vertices x = some iport) : inputPort? (vertices ++ [v]) x = some iport := by
  unfold inputPort? at h ⊢
  obtain ⟨w, hw, hport⟩ := Option.bind_eq_some_iff.mp h
  rw [List.getElem?_append_left (List.getElem?_eq_some_iff.mp hw).1, hw]
  exact hport

theorem outputPort?_append {vertices : List Vertex} (v : Vertex) {x : PortKey} {oport : OutputPort}
    (h : outputPort? vertices x = some oport) : outputPort? (vertices ++ [v]) x = some oport := by
  unfold outputPort? at h ⊢
  obtain ⟨w, hw, hport⟩ := Option.bind_eq_some_iff.mp h
  rw [List.getElem?_append_left (List.getElem?_eq_some_iff.mp hw).1, hw]
  exact hport

/-- The ports are not changed by a new source. -/
theorem inputPort?_modify (vertices : List Vertex) (c : PortKey) (producer x : PortKey) :
    inputPort? (vertices.modify c.1 (·.addSource c.2 producer)) x = inputPort? vertices x := by
  unfold inputPort?
  rw [List.getElem?_modify]
  rcases vertices[x.1]? with _ | v
  · rfl
  · by_cases h : c.1 = x.1 <;> simp [h, Vertex.addSource]

theorem outputPort?_modify (vertices : List Vertex) (c : PortKey) (producer x : PortKey) :
    outputPort? (vertices.modify c.1 (·.addSource c.2 producer)) x = outputPort? vertices x := by
  unfold outputPort?
  rw [List.getElem?_modify]
  rcases vertices[x.1]? with _ | v
  · rfl
  · by_cases h : c.1 = x.1 <;> simp [h, Vertex.addSource]

theorem sourcesOf_modify {vertices : List Vertex} {c : PortKey} {iport : InputPort}
    (hc : inputPort? vertices c = some iport) (producer x : PortKey) :
    sourcesOf (vertices.modify c.1 (·.addSource c.2 producer)) x =
      if x = c then sourcesOf vertices x ++ [producer] else sourcesOf vertices x := by
  obtain ⟨i, j⟩ := x
  obtain ⟨i', j'⟩ := c
  obtain ⟨v, hv, hport⟩ := Option.bind_eq_some_iff.mp hc
  simp only at hv hport
  have hj' : j' < v.sources.length := by
    rw [v.sources_length]
    exact (List.getElem?_eq_some_iff.mp hport).1
  unfold sourcesOf
  simp only
  rw [List.getElem?_modify]
  by_cases hi : i' = i
  · subst hi
    rw [hv]
    by_cases hj : j' = j
    · subst hj
      simp [Vertex.addSource, hj']
    · have hne : ¬ ((i', j) : PortKey) = (i', j') := by
        intro h
        exact hj (Prod.mk.inj h).2.symm
      simp [Vertex.addSource, hj, hne]
  · have hne : ¬ ((i, j) : PortKey) = (i', j') := by
      intro h
      exact hi (Prod.mk.inj h).1.symm
    rw [if_neg hne]
    rcases vertices[i]? with _ | w <;> simp [hi]

def empty : FlowGraph := { vertices := [], valid := by simp [sourcesOf] }

def addVertex (g : FlowGraph) (name : String) (proc : Processor) : FlowGraph :=
  { vertices := g.vertices ++ [Vertex.create name proc]
    valid := by
      intro x s hs
      rw [sourcesOf_append] at hs
      obtain ⟨iport, oport, hin, hout, hkey⟩ := g.valid x s hs
      exact ⟨iport, oport, inputPort?_append _ hin, outputPort?_append _ hout, hkey⟩ }

def addEdge (g : FlowGraph) (producer consumer : PortKey) : Except String FlowGraph :=
  match hout : outputPort? g.vertices producer, hin : inputPort? g.vertices consumer with
  | none, _ => .error "invalid descriptor"
  | some _, none => .error "invalid descriptor"
  | some oport, some iport =>
    if hkey : iport.movement = .scatterGather ∧ oport.hasKey = false then
      -- producer of scatter-gather port must have keys
      .error "mismatched port specifications"
    else
      .ok
        { vertices := g.vertices.modify consumer.1 (·.addSource consumer.2 producer)
          valid := by
            intro x s hs
            rw [inputPort?_modify, outputPort?_modify]
            rw [sourcesOf_modify hin] at hs
            split at hs
            · next hx =>
              rcases List.mem_append.mp hs with hs | hs
              · exact g.valid x s hs
              · rw [List.mem_singleton.mp hs, hx]
                refine ⟨iport, oport, hin, hout, fun hsg => ?_⟩
                by_contra hno
                exact hkey ⟨hsg, by simpa using hno⟩
            · exact g.valid x s hs }

inductive Call where
  | addVertex (name : String) (proc : Processor)
  | addEdge (producer consumer : PortKey)

/-- A call that throws leaves the graph as it was. -/
def call (g : FlowGraph) : Call → FlowGraph
  | .addVertex name proc => g.addVertex name proc
  | .addEdge producer consumer =>
    match g.addEdge producer consumer with
    | .error _ => g
    | .ok g' => g'

/-- The graph after a sequence of calls. -/
def build (calls : List Call) : FlowGraph := calls.foldl call empty

/-- Whether a call is `add_edge(producer, consumer)` and does not throw. -/
def adds (g : FlowGraph) (producer consumer : PortKey) : Call → Bool
  | .addVertex _ _ => false
  | .addEdge producer' consumer' =>
    producer' = producer && consumer' = consumer && (g.addEdge producer' consumer').isOk

/-- How often `add_edge(producer, consumer)` is called with success. -/
def edgeCount (producer consumer : PortKey) : FlowGraph → List Call → ℕ
  | _, [] => 0
  | g, c :: calls =>
    (if g.adds producer consumer c then 1 else 0) + edgeCount producer consumer (g.call c) calls

theorem addEdge_eq_ok {g g' : FlowGraph} {producer consumer : PortKey}
    (h : g.addEdge producer consumer = .ok g') :
    (∃ iport, inputPort? g.vertices consumer = some iport) ∧
    g'.vertices = g.vertices.modify consumer.1 (·.addSource consumer.2 producer) := by
  unfold addEdge at h
  split at h
  · cases h
  · cases h
  · next oport iport hout hin =>
    split at h
    · cases h
    · injection h with h
      exact ⟨⟨iport, hin⟩, by rw [← h]⟩

theorem count_call (g : FlowGraph) (c : Call) (producer consumer : PortKey) :
    (sourcesOf (g.call c).vertices consumer).count producer =
      (sourcesOf g.vertices consumer).count producer + if g.adds producer consumer c then 1 else 0 := by
  cases c with
  | addVertex name proc =>
    have hsources := sourcesOf_append g.vertices name proc consumer
    simp only [call, addVertex, adds, hsources]
    rfl
  | addEdge producer' consumer' =>
    cases hadd : g.addEdge producer' consumer' with
    | error e =>
      have hcall : g.call (.addEdge producer' consumer') = g := by simp [call, hadd]
      have hadds : g.adds producer consumer (.addEdge producer' consumer') = false := by
        simp [adds, hadd, Except.isOk, Except.toBool]
      simp [hcall, hadds]
    | ok g' =>
      obtain ⟨⟨iport, hin⟩, hvertices⟩ := addEdge_eq_ok hadd
      have hcall : g.call (.addEdge producer' consumer') = g' := by simp [call, hadd]
      have hadds : g.adds producer consumer (.addEdge producer' consumer') =
          (decide (producer' = producer) && decide (consumer' = consumer)) := by
        simp [adds, hadd, Except.isOk, Except.toBool]
      rw [hcall, hvertices, sourcesOf_modify hin, hadds]
      by_cases hc : consumer = consumer'
      · by_cases hp : producer' = producer
        · simp [hc, hp]
        · simp [hc, hp]
      · have hc' : ¬ consumer' = consumer := fun h => hc h.symm
        simp [hc, hc']

/-- Each source stands for one successful call. -/
theorem count_build (calls : List Call) (producer consumer : PortKey) :
    (sourcesOf (build calls).vertices consumer).count producer =
      edgeCount producer consumer empty calls := by
  have hrun : ∀ (calls : List Call) (g : FlowGraph),
      (sourcesOf (calls.foldl call g).vertices consumer).count producer =
        (sourcesOf g.vertices consumer).count producer + edgeCount producer consumer g calls := by
    intro calls
    induction calls with
    | nil => exact fun _ => rfl
    | cons c calls ih =>
      intro g
      rw [List.foldl_cons, ih, count_call, edgeCount, Nat.add_assoc]
  have hempty : sourcesOf empty.vertices consumer = [] := by simp [empty, sourcesOf]
  rw [build, hrun calls empty, hempty, List.count_nil, Nat.zero_add]

/-- Some output port of `u` feeds some input port of `v`. -/
def Feeds (g : FlowGraph) (u v : ℕ) : Prop := ∃ p j, (u, p) ∈ sourcesOf g.vertices (v, j)

def DefinedMovements (g : FlowGraph) : Prop :=
  ∀ x iport, inputPort? g.vertices x = some iport → iport.movement ≠ .undefined

end FlowGraph

end M3bp
