import Mathlib.Data.List.Nodup
import Mathlib.Data.List.Range

/-!
The constructor of `Topology`, which counts the usable processing units of each node that a
thread can be bound to. What hwloc answers is a parameter. Without hwloc there is one node
with the units that the standard library reports.
-/
namespace M3bp

/-- The answers of hwloc. A number of objects is `none` where hwloc returns `-1`; a bind is
tried for each object, and `nodeOf` is the node found among the parents of a unit. -/
structure Hwloc where
  unitCount : Option ℕ
  unitBindable : ℕ → Bool
  hasNodes : Bool
  nodeCount : Option ℕ
  nodeBindable : ℕ → Bool
  nodeOf : ℕ → Option ℕ

inductive Machine
  | hwloc (h : Hwloc)
  | plain (hardwareConcurrency : ℕ)

structure Topology where
  availableProcessingUnits : List ℕ
  availableNumaNodes : List ℕ
  processingUnitsPerNode : List ℕ
  deriving DecidableEq, Repr

namespace Topology

inductive Failure
  | runtimeError
  | outOfRange
  deriving DecidableEq, Repr

def enumerateProcessingUnits (h : Hwloc) : Except Failure (List ℕ) :=
  match h.unitCount with
  | none => .error .runtimeError
  | some n => .ok ((List.range n).filter h.unitBindable)

def enumerateNumaNodes (h : Hwloc) : Except Failure (List ℕ) :=
  if h.hasNodes then
    match h.nodeCount with
    | none => .error .runtimeError
    | some n => .ok ((List.range n).filter h.nodeBindable)
  else .ok [0]

/-- `++m_processing_units_per_node[index]`. -/
def increment (counts : List ℕ) (index : ℕ) : Except Failure (List ℕ) :=
  if index < counts.length then .ok (counts.modify index (· + 1)) else .error .outOfRange

/-- Where a unit is counted. The search for a node that is not available ends behind the
last one. -/
def indexOf (h : Hwloc) (nodes : List ℕ) (unit : ℕ) : ℕ :=
  if nodes.length = 1 then 0
  else
    match h.nodeOf unit with
    | some node => nodes.idxOf node
    | none => 0

def create : Machine → Except Failure Topology
  | .hwloc h => do
    let units ← enumerateProcessingUnits h
    let nodes ← enumerateNumaNodes h
    let counts ← units.foldlM (fun counts unit => increment counts (indexOf h nodes unit))
      (List.replicate nodes.length 0)
    return {
      availableProcessingUnits := units
      availableNumaNodes := nodes
      processingUnitsPerNode := counts }
  | .plain n =>
    .ok
      { availableProcessingUnits := List.range n
        availableNumaNodes := [0]
        processingUnitsPerNode := [n] }

/-- What is assumed of hwloc: a node to which a thread can be bound has a usable unit. Where
there are no nodes, the one that stands for the machine has. -/
def NodesUsable : Machine → Topology → Prop
  | .hwloc h, t => ∀ node ∈ t.availableNumaNodes, ∃ unit ∈ t.availableProcessingUnits,
      h.hasNodes = true → h.nodeOf unit = some node
  | .plain _, _ => True

section Counts

variable {counts counts' : List ℕ} {index : ℕ}

theorem increment_ok (h : increment counts index = .ok counts') :
    index < counts.length ∧ counts' = counts.modify index (· + 1) := by
  unfold increment at h
  by_cases hlt : index < counts.length
  · rw [if_pos hlt] at h
    exact ⟨hlt, (Except.ok.inj h).symm⟩
  · rw [if_neg hlt] at h
    cases h

theorem increment_mono (h : increment counts index = .ok counts') :
    counts'.length = counts.length ∧ ∀ i, counts.getD i 0 ≤ counts'.getD i 0 := by
  obtain ⟨-, rfl⟩ := increment_ok h
  refine ⟨List.length_modify _ _ _, fun i => ?_⟩
  simp only [List.getD_eq_getElem?_getD, List.getElem?_modify]
  by_cases hi : index = i
  · cases counts[i]? <;> simp [hi]
  · simp [hi]

theorem increment_pos (h : increment counts index = .ok counts') : 0 < counts'.getD index 0 := by
  obtain ⟨hlt, rfl⟩ := increment_ok h
  simp [List.getD_eq_getElem?_getD, hlt]

variable {target : ℕ → ℕ} {units : List ℕ}

theorem counted_mono
    (h : units.foldlM (fun counts unit => increment counts (target unit)) counts = .ok counts') :
    counts'.length = counts.length ∧ ∀ i, counts.getD i 0 ≤ counts'.getD i 0 := by
  induction units generalizing counts with
  | nil =>
    have heq : counts = counts' := Except.ok.inj h
    exact heq ▸ ⟨rfl, fun _ => le_refl _⟩
  | cons unit units ih =>
    rw [List.foldlM_cons] at h
    cases hfirst : increment counts (target unit) with
    | error e => rw [hfirst] at h; cases h
    | ok next =>
      rw [hfirst] at h
      obtain ⟨hlength, hle⟩ := increment_mono hfirst
      obtain ⟨hlength', hle'⟩ := ih h
      exact ⟨hlength'.trans hlength, fun i => (hle i).trans (hle' i)⟩

/-- A unit counts where it belongs. -/
theorem counted_pos {unit : ℕ} (hunit : unit ∈ units)
    (h : units.foldlM (fun counts unit => increment counts (target unit)) counts = .ok counts') :
    0 < counts'.getD (target unit) 0 := by
  induction units generalizing counts with
  | nil => cases hunit
  | cons first units ih =>
    rw [List.foldlM_cons] at h
    cases hfirst : increment counts (target first) with
    | error e => rw [hfirst] at h; cases h
    | ok next =>
      rw [hfirst] at h
      rcases List.mem_cons.mp hunit with rfl | hunit
      · exact Nat.lt_of_lt_of_le (increment_pos hfirst) ((counted_mono h).2 _)
      · exact ih hunit h

end Counts

section Create

variable {h : Hwloc} {t : Topology}

theorem nodup_numaNodes {nodes : List ℕ} (hnodes : enumerateNumaNodes h = .ok nodes) :
    nodes.Nodup := by
  unfold enumerateNumaNodes at hnodes
  split at hnodes
  · split at hnodes
    · cases hnodes
    · cases hnodes
      exact List.nodup_range.filter _
  · cases hnodes
    exact List.nodup_singleton 0

theorem hasNodes_of_length {nodes : List ℕ} (hnodes : enumerateNumaNodes h = .ok nodes)
    (hlength : nodes.length ≠ 1) : h.hasNodes = true := by
  unfold enumerateNumaNodes at hnodes
  by_cases hhas : h.hasNodes = true
  · exact hhas
  · rw [if_neg hhas] at hnodes
    cases hnodes
    exact absurd rfl hlength

theorem create_hwloc (hcreate : create (.hwloc h) = .ok t) :
    enumerateNumaNodes h = .ok t.availableNumaNodes ∧
      t.availableProcessingUnits.foldlM
        (fun counts unit => increment counts (indexOf h t.availableNumaNodes unit))
        (List.replicate t.availableNumaNodes.length 0) = .ok t.processingUnitsPerNode := by
  simp only [create] at hcreate
  cases hunits : enumerateProcessingUnits h with
  | error e => rw [hunits] at hcreate; cases hcreate
  | ok units =>
    cases hnodes : enumerateNumaNodes h with
    | error e => rw [hunits, hnodes] at hcreate; cases hcreate
    | ok nodes =>
      rw [hunits, hnodes] at hcreate
      cases hcounts : units.foldlM (fun counts unit => increment counts (indexOf h nodes unit))
          (List.replicate nodes.length 0) with
      | error e => simp [hcounts, bind, Except.bind] at hcreate
      | ok counts =>
        simp only [bind, Except.bind, hcounts, pure, Except.pure, Except.ok.injEq] at hcreate
        subst hcreate
        exact ⟨rfl, hcounts⟩

/-- Where every bindable node has a usable unit, every node is counted with one. Without
hwloc there is a single node. -/
theorem units_pos {machine : Machine} (hcreate : create machine = .ok t)
    (husable : NodesUsable machine t) :
    t.processingUnitsPerNode.length = 1 ∨
      ∀ i < t.processingUnitsPerNode.length, 0 < t.processingUnitsPerNode.getD i 0 := by
  cases machine with
  | plain n =>
    have heq := Except.ok.inj hcreate
    exact Or.inl (heq ▸ rfl)
  | hwloc h =>
    obtain ⟨hnodes, hcounts⟩ := create_hwloc hcreate
    obtain ⟨hlength, -⟩ := counted_mono hcounts
    rw [List.length_replicate] at hlength
    by_cases hone : t.availableNumaNodes.length = 1
    · exact Or.inl (hlength.trans hone)
    · right
      intro i hi
      rw [hlength] at hi
      obtain ⟨unit, hunit, hnode⟩ := husable _ (List.getElem_mem hi)
      have hindex : indexOf h t.availableNumaNodes unit = i := by
        unfold indexOf
        rw [if_neg hone, hnode (hasNodes_of_length hnodes hone)]
        exact (nodup_numaNodes hnodes).idxOf_getElem i hi
      rw [← hindex]
      exact counted_pos hunit hcounts

end Create

end Topology

end M3bp
