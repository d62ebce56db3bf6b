import M3bp.EdgePath
import M3bp.FlowGraph

/-!
The logical graph that is executed. An edge is stored twice, in the list of edges,
which decides the dependencies between physical tasks, and in the successors of
its producer, to which `commit_fragment` delivers.
-/
namespace M3bp

structure Configuration where
  maxConcurrency : ℕ
  partitionCount : ℕ

inductive TaskKind where
  | inputProcess (proc : Processor) (workerCount : ℕ)
  | oneToOneProcess (proc : Processor) (workerCount : ℕ)
  | scatterGatherProcess (proc : Processor) (workerCount partitionCount : ℕ)
  | shuffle (partitionCount : ℕ)
  | gather
  | valueSort (comparator : ValueComparator)

/-- The tasks that pass fragments on without a processor. -/
def TaskKind.isIntermediate : TaskKind → Bool
  | .inputProcess .. | .oneToOneProcess .. | .scatterGatherProcess .. => false
  | .shuffle _ | .gather | .valueSort _ => true

/-- The physical task of the consumer that waits for the producer. -/
inductive PhysicalSuccessor where
  | entry
  | barrier
  | terminal
  deriving DecidableEq, Repr

structure LogicalTask where
  kind : TaskKind
  taskName : String
  successors : List (List PortKey)

/-- `add_successor`; the list of ports grows when it has to. -/
def LogicalTask.addSuccessor (t : LogicalTask) (dst : PortKey) (srcPort : ℕ) : LogicalTask :=
  let grown := t.successors ++ List.replicate (srcPort + 1 - t.successors.length) []
  { t with successors := grown.modify srcPort (· ++ [dst]) }

structure Edge where
  producer : PortKey
  consumer : PortKey
  physicalSuccessor : PhysicalSuccessor
  deriving DecidableEq, Repr

structure LogicalGraph where
  tasks : List LogicalTask
  edges : List Edge

namespace LogicalGraph

def empty : LogicalGraph := { tasks := [], edges := [] }

def addTask (g : LogicalGraph) (kind : TaskKind) (name : String) : LogicalGraph :=
  { g with tasks := g.tasks ++ [{ kind := kind, taskName := name, successors := [] }] }

def addEdge (g : LogicalGraph) (producer consumer : PortKey) (succ : PhysicalSuccessor) :
    LogicalGraph :=
  { tasks := g.tasks.modify producer.1 (·.addSuccessor consumer producer.2)
    edges := g.edges ++
      [{ producer := producer, consumer := consumer, physicalSuccessor := succ }] }

def kindOf (g : LogicalGraph) (t : ℕ) : Option TaskKind := (g.tasks[t]?).map LogicalTask.kind

def nameOf (g : LogicalGraph) (t : ℕ) : Option String := (g.tasks[t]?).map LogicalTask.taskName

/-- Where `commit_fragment` delivers what leaves through an output port. -/
def successorsOf (g : LogicalGraph) (x : PortKey) : List PortKey :=
  (g.tasks[x.1]?.bind fun t => t.successors[x.2]?).getD []

/-- What comes in at a port, and by which kind of edge. -/
def incoming (g : LogicalGraph) (x : PortKey) : List (PortKey × PhysicalSuccessor) :=
  (g.edges.filter fun e => e.consumer = x).map fun e => (e.producer, e.physicalSuccessor)

def IsIntermediate (g : LogicalGraph) (t : ℕ) : Prop :=
  ∃ kind, g.kindOf t = some kind ∧ kind.isIntermediate = true

/-- After `e` a fragment may travel along `e'`: the task between passes it on. -/
def Relays (g : LogicalGraph) (e e' : Edge) : Prop :=
  g.IsIntermediate e.consumer.1 ∧ e'.producer = (e.consumer.1, 0)

/-- There are `k` data paths from one port to the other. -/
def PathCount (g : LogicalGraph) (source target : PortKey) (k : ℕ) : Prop :=
  EdgePath.Counts g.edges g.Relays (fun e => e.producer = source) (fun e => e.consumer = target) k

def Feeds (g : LogicalGraph) (t t' : ℕ) : Prop :=
  ∃ e ∈ g.edges, e.producer.1 = t ∧ e.consumer.1 = t'

variable (g : LogicalGraph)

@[simp] theorem edges_addTask (kind : TaskKind) (name : String) :
    (g.addTask kind name).edges = g.edges := rfl

@[simp] theorem length_addTask (kind : TaskKind) (name : String) :
    (g.addTask kind name).tasks.length = g.tasks.length + 1 := by
  simp [addTask]

@[simp] theorem length_addEdge (p c : PortKey) (s : PhysicalSuccessor) :
    (g.addEdge p c s).tasks.length = g.tasks.length := by
  simp [addEdge]

theorem edges_addEdge (p c : PortKey) (s : PhysicalSuccessor) :
    (g.addEdge p c s).edges = g.edges ++ [⟨p, c, s⟩] := rfl

@[simp] theorem incoming_addTask (kind : TaskKind) (name : String) (x : PortKey) :
    (g.addTask kind name).incoming x = g.incoming x := rfl

theorem incoming_addEdge (p c : PortKey) (s : PhysicalSuccessor) (x : PortKey) :
    (g.addEdge p c s).incoming x = g.incoming x ++ if c = x then [(p, s)] else [] := by
  by_cases h : c = x <;> simp [incoming, addEdge, h]

@[simp] theorem kindOf_addEdge (p c : PortKey) (s : PhysicalSuccessor) (t : ℕ) :
    (g.addEdge p c s).kindOf t = g.kindOf t := by
  simp only [kindOf, addEdge, List.getElem?_modify]
  rcases g.tasks[t]? with _ | a
  · rfl
  · by_cases h : p.1 = t <;> simp [h, LogicalTask.addSuccessor]

@[simp] theorem nameOf_addEdge (p c : PortKey) (s : PhysicalSuccessor) (t : ℕ) :
    (g.addEdge p c s).nameOf t = g.nameOf t := by
  simp only [nameOf, addEdge, List.getElem?_modify]
  rcases g.tasks[t]? with _ | a
  · rfl
  · by_cases h : p.1 = t <;> simp [h, LogicalTask.addSuccessor]

theorem kindOf_addTask (kind : TaskKind) (name : String) {t : ℕ} (h : t ≠ g.tasks.length) :
    (g.addTask kind name).kindOf t = g.kindOf t := by
  simp only [kindOf, addTask]
  rcases Nat.lt_or_gt_of_ne h with hlt | hgt
  · rw [List.getElem?_append_left hlt]
  · rw [List.getElem?_eq_none (by simpa using hgt), List.getElem?_eq_none hgt.le]

theorem kindOf_addTask_self (kind : TaskKind) (name : String) :
    (g.addTask kind name).kindOf g.tasks.length = some kind := by
  simp [kindOf, addTask]

theorem nameOf_addTask (kind : TaskKind) (name : String) {t : ℕ} (h : t ≠ g.tasks.length) :
    (g.addTask kind name).nameOf t = g.nameOf t := by
  simp only [nameOf, addTask]
  rcases Nat.lt_or_gt_of_ne h with hlt | hgt
  · rw [List.getElem?_append_left hlt]
  · rw [List.getElem?_eq_none (by simpa using hgt), List.getElem?_eq_none hgt.le]

theorem kindOf_eq_some {t : ℕ} (h : t < g.tasks.length) : ∃ kind, g.kindOf t = some kind :=
  ⟨_, by rw [kindOf, List.getElem?_eq_getElem h]; rfl⟩

theorem lt_of_kindOf {t : ℕ} {kind : TaskKind} (h : g.kindOf t = some kind) : t < g.tasks.length := by
  by_contra hlt
  rw [kindOf, List.getElem?_eq_none (by omega)] at h
  cases h

theorem successors_addSuccessor (t : LogicalTask) (dst : PortKey) (srcPort q : ℕ) :
    ((t.addSuccessor dst srcPort).successors[q]?).getD [] =
      (t.successors[q]?).getD [] ++ if srcPort = q then [dst] else [] := by
  have hgrown : ∀ q : ℕ, ((t.successors ++
      List.replicate (srcPort + 1 - t.successors.length) [])[q]?).getD [] =
      (t.successors[q]?).getD [] := by
    intro q
    by_cases hq : q < t.successors.length
    · rw [List.getElem?_append_left hq]
    · rw [List.getElem?_append_right (by omega), List.getElem?_eq_none (l := t.successors) (by omega),
        List.getElem?_replicate]
      split <;> rfl
  by_cases h : srcPort = q
  · subst h
    have hlt : srcPort < (t.successors ++
        List.replicate (srcPort + 1 - t.successors.length) []).length := by
      simp only [List.length_append, List.length_replicate]
      omega
    have hbefore := hgrown srcPort
    rw [List.getElem?_eq_getElem hlt] at hbefore
    simp only [LogicalTask.addSuccessor, List.getElem?_modify, if_pos, Option.map_eq_map,
      List.getElem?_eq_getElem hlt, Option.map_some, Option.getD_some] at hbefore ⊢
    rw [hbefore]
  · simp only [LogicalTask.addSuccessor, List.getElem?_modify, if_neg h, List.append_nil]
    rw [← hgrown q]
    simp

theorem successorsOf_addEdge {p c : PortKey} (s : PhysicalSuccessor) (hp : p.1 < g.tasks.length)
    (x : PortKey) :
    (g.addEdge p c s).successorsOf x = g.successorsOf x ++ if p = x then [c] else [] := by
  obtain ⟨t, q⟩ := x
  obtain ⟨t', q'⟩ := p
  simp only at hp
  simp only [successorsOf, addEdge, List.getElem?_modify]
  by_cases ht : t' = t
  · subst ht
    have hadd := successors_addSuccessor g.tasks[t'] c q' q
    simp only [List.getElem?_eq_getElem hp, if_pos, Option.map_eq_map, Option.map_some,
      Option.bind_some, hadd, Prod.mk.injEq, true_and]
  · have hne : ¬ ((t', q') : PortKey) = (t, q) := fun h => ht (Prod.mk.inj h).1
    rw [if_neg hne, List.append_nil]
    simp [ht]

theorem successorsOf_addTask (kind : TaskKind) (name : String) (x : PortKey) :
    (g.addTask kind name).successorsOf x = g.successorsOf x := by
  simp only [successorsOf, addTask]
  rcases Nat.lt_trichotomy x.1 g.tasks.length with hlt | heq | hgt
  · rw [List.getElem?_append_left hlt]
  · rw [List.getElem?_append_right heq.ge, List.getElem?_eq_none heq.ge, heq, Nat.sub_self]
    rfl
  · rw [List.getElem?_eq_none (by simpa using hgt), List.getElem?_eq_none hgt.le]

/-- Fragments are delivered along the edges. -/
def DeliversAlongEdges (g : LogicalGraph) : Prop :=
  ∀ x, g.successorsOf x = (g.edges.filter fun e => e.producer = x).map Edge.consumer

theorem DeliversAlongEdges.addTask {g : LogicalGraph} (h : g.DeliversAlongEdges) (kind : TaskKind)
    (name : String) : (g.addTask kind name).DeliversAlongEdges := by
  intro x
  rw [successorsOf_addTask, h x, edges_addTask]

theorem DeliversAlongEdges.addEdge {g : LogicalGraph} (h : g.DeliversAlongEdges) {p : PortKey}
    (c : PortKey) (s : PhysicalSuccessor) (hp : p.1 < g.tasks.length) :
    (g.addEdge p c s).DeliversAlongEdges := by
  intro x
  rw [successorsOf_addEdge g s hp, h x, edges_addEdge]
  by_cases hx : p = x <;> simp [hx]

/-- Edges from several ports into one. -/
def addEdges (producers : List PortKey) (c : PortKey) (s : PhysicalSuccessor) : LogicalGraph :=
  producers.foldl (fun g p => g.addEdge p c s) g

section AddEdges

variable (producers : List PortKey) (c : PortKey) (s : PhysicalSuccessor)

theorem edges_addEdges :
    (g.addEdges producers c s).edges = g.edges ++ producers.map fun p => ⟨p, c, s⟩ := by
  unfold addEdges
  induction producers generalizing g with
  | nil => simp
  | cons p producers ih => rw [List.foldl_cons, ih, edges_addEdge]; simp

@[simp] theorem length_addEdges : (g.addEdges producers c s).tasks.length = g.tasks.length := by
  unfold addEdges
  induction producers generalizing g with
  | nil => rfl
  | cons p producers ih => rw [List.foldl_cons, ih, length_addEdge]

@[simp] theorem kindOf_addEdges (t : ℕ) : (g.addEdges producers c s).kindOf t = g.kindOf t := by
  unfold addEdges
  induction producers generalizing g with
  | nil => rfl
  | cons p producers ih => rw [List.foldl_cons, ih, kindOf_addEdge]

@[simp] theorem nameOf_addEdges (t : ℕ) : (g.addEdges producers c s).nameOf t = g.nameOf t := by
  unfold addEdges
  induction producers generalizing g with
  | nil => rfl
  | cons p producers ih => rw [List.foldl_cons, ih, nameOf_addEdge]

theorem incoming_addEdges_self :
    (g.addEdges producers c s).incoming c = g.incoming c ++ producers.map fun p => (p, s) := by
  unfold addEdges
  induction producers generalizing g with
  | nil => simp
  | cons p producers ih => rw [List.foldl_cons, ih, incoming_addEdge]; simp

theorem incoming_addEdges {x : PortKey} (h : x ≠ c) :
    (g.addEdges producers c s).incoming x = g.incoming x := by
  unfold addEdges
  induction producers generalizing g with
  | nil => rfl
  | cons p producers ih => rw [List.foldl_cons, ih, incoming_addEdge, if_neg h.symm, List.append_nil]

variable {g producers} in
theorem DeliversAlongEdges.addEdges (h : g.DeliversAlongEdges)
    (hp : ∀ p ∈ producers, p.1 < g.tasks.length) : (g.addEdges producers c s).DeliversAlongEdges := by
  unfold LogicalGraph.addEdges
  induction producers generalizing g with
  | nil => exact h
  | cons p producers ih =>
    refine ih (h.addEdge c s (hp p List.mem_cons_self)) fun q hq => ?_
    rw [length_addEdge]
    exact hp q (List.mem_cons_of_mem p hq)

end AddEdges

end LogicalGraph

end M3bp
