import Mathlib.Algebra.Group.Nat.Defs
import Mathlib.Data.Int.Init
import Mathlib.Data.List.Basic
import Mathlib.Logic.Function.Basic

/-!
The scheduler's own data: physical vertices with their predecessor counts, the
stealable queues of the NUMA nodes and the unstealable queues of the workers.
Each definition is one critical section or one atomic access of `Scheduler`.
A `PhysicalTaskPtr` is the identifier of the task it points to, `none` is the
null pointer it becomes when it is moved into a queue. A failed `assert` makes
the operation return `none`.
-/
namespace M3bp

abbrev TaskId := ℕ

abbrev WorkerId := ℕ

abbrev NodeId := ℕ

/-- `std::numeric_limits<identifier_type>::max()`. -/
def unspecifiedId : WorkerId := 2 ^ 64 - 1

structure LocalityOption where
  recommendedWorker : WorkerId := unspecifiedId
  isStealable : Bool := true
  deriving DecidableEq, Repr

def LocalityOption.hasRecommendation (option : LocalityOption) : Bool :=
  option.recommendedWorker != unspecifiedId

/-- What the scheduler reads of its `LocalityManager`. The constructor maps
every worker to one of the nodes, and without affinity everything to node 0. -/
structure LocalityManager where
  maxConcurrency : ℕ
  nodeCount : ℕ
  threadMapping : WorkerId → NodeId
  mapped : ∀ w, threadMapping w < nodeCount

/-- `LocalityManager()`: one worker, one node and an empty mapping. -/
def LocalityManager.default : LocalityManager :=
  { maxConcurrency := 1, nodeCount := 1, threadMapping := fun _ => 0, mapped := fun _ => Nat.one_pos }

structure PhysicalVertex where
  predecessorCount : ℤ
  successors : List TaskId
  localityOption : LocalityOption
  physicalTask : Option TaskId
  deriving DecidableEq, Repr

def PhysicalVertex.new (option : LocalityOption) (task : TaskId) : PhysicalVertex :=
  { predecessorCount := 1, successors := [], localityOption := option,
    physicalTask := some task }

inductive QueueRef
  | stealable (node : NodeId)
  | unstealable (worker : WorkerId)
  deriving DecidableEq, Repr

structure Scheduler where
  queues : QueueRef → List TaskId
  vertices : TaskId → Option PhysicalVertex
  createdTaskCount : ℕ
  unfinishedTaskCount : ℤ

namespace Scheduler

def empty : Scheduler :=
  { queues := fun _ => [], vertices := fun _ => none,
    createdTaskCount := 0, unfinishedTaskCount := 0 }

/-- The list of successors of a live vertex; an erased vertex has none. -/
def successors (s : Scheduler) (t : TaskId) : List TaskId :=
  (s.vertices t).elim [] PhysicalVertex.successors

def setVertex (s : Scheduler) (t : TaskId) (v : Option PhysicalVertex) : Scheduler :=
  { s with vertices := Function.update s.vertices t v }

def setQueue (s : Scheduler) (q : QueueRef) (tasks : List TaskId) : Scheduler :=
  { s with queues := Function.update s.queues q tasks }

def createPhysicalTask (s : Scheduler) (option : LocalityOption) : Scheduler :=
  { s.setVertex s.createdTaskCount (some (PhysicalVertex.new option s.createdTaskCount)) with
    createdTaskCount := s.createdTaskCount + 1 }

/-- The edge is dropped when the predecessor is already erased. The successor
is looked up only after that test; its absence is a failed assertion. -/
def addDependency (s : Scheduler) (predecessor successor : TaskId) : Option Scheduler :=
  match s.vertices predecessor with
  | none => some s
  | some pred =>
    match s.vertices successor with
    | none => none
    | some _ =>
      let s' := s.setVertex predecessor
        (some { pred with successors := pred.successors ++ [successor] })
      some (s'.setVertex successor ((s'.vertices successor).map fun succ =>
        { succ with predecessorCount := succ.predecessorCount + 1 }))

/-- The worker `w` that a stealable task is placed for. `draw` is the value
that `uniform_random_integer` returns when no worker is recommended. -/
def placedWorker (draw : WorkerId) (option : LocalityOption) : WorkerId :=
  if option.hasRecommendation then option.recommendedWorker else draw

/-- The queue a released task goes to. -/
def targetQueue (lm : LocalityManager) (draw : WorkerId) (option : LocalityOption) : QueueRef :=
  if option.isStealable then
    .stealable (lm.threadMapping (placedWorker draw option))
  else
    .unstealable option.recommendedWorker

def pushBack (s : Scheduler) (q : QueueRef) (task : TaskId) : Scheduler :=
  s.setQueue q (s.queues q ++ [task])

/-- Returns the queue that the task was pushed to when its count came to zero. -/
def decrementPredecessorCount (lm : LocalityManager) (draw : WorkerId) (t : TaskId)
    (s : Scheduler) : Option (Scheduler × Option QueueRef) :=
  match s.vertices t with
  | none => none
  | some v =>
    if v.predecessorCount - 1 = 0 then
      match v.physicalTask with
      | none => none
      | some task =>
        let q := targetQueue lm draw v.localityOption
        let moved := { v with predecessorCount := v.predecessorCount - 1, physicalTask := none }
        some ((s.setVertex t (some moved)).pushBack q task, some q)
    else
      let counted := { v with predecessorCount := v.predecessorCount - 1 }
      some (s.setVertex t (some counted), none)

/-- The first atomic access of `commit_task`. -/
def incrementUnfinished (s : Scheduler) : Scheduler :=
  { s with unfinishedTaskCount := s.unfinishedTaskCount + 1 }

/-- The last atomic access of `notify_task_completion`. -/
def decrementUnfinished (s : Scheduler) : Scheduler :=
  { s with unfinishedTaskCount := s.unfinishedTaskCount - 1 }

def isFinished (s : Scheduler) : Bool := decide (s.unfinishedTaskCount = 0)

/-- The critical section of `notify_task_completion`: the successors are moved
out and the vertex is erased. -/
def eraseVertex (s : Scheduler) (t : TaskId) : Option (Scheduler × List TaskId) :=
  match s.vertices t with
  | none => none
  | some v => some (s.setVertex t none, v.successors)

def popFront (s : Scheduler) (q : QueueRef) : Option (TaskId × Scheduler) :=
  match s.queues q with
  | [] => none
  | task :: rest => some (task, s.setQueue q rest)

def popBack (s : Scheduler) (q : QueueRef) : Option (TaskId × Scheduler) :=
  match (s.queues q).getLast? with
  | none => none
  | some task => some (task, s.setQueue q (s.queues q).dropLast)

/-- The three pops of `take_runnable_task`: a worker takes from its own
unstealable queue and the nodes' queues from the front, and from its own
node's queue also from the back. -/
inductive Pops (lm : LocalityManager) (worker : WorkerId) :
    Scheduler → QueueRef → TaskId → Scheduler → Prop
  | unstealable {s s' : Scheduler} {t : TaskId} :
      s.popFront (.unstealable worker) = some (t, s') →
      Pops lm worker s (.unstealable worker) t s'
  | localStealable {s s' : Scheduler} {t : TaskId} :
      s.popBack (.stealable (lm.threadMapping worker)) = some (t, s') →
      Pops lm worker s (.stealable (lm.threadMapping worker)) t s'
  | steal {s s' : Scheduler} {t : TaskId} {node : NodeId} :
      node < lm.nodeCount → s.popFront (.stealable node) = some (t, s') →
      Pops lm worker s (.stealable node) t s'

/-! What each operation does to the vertices that its callers hold. -/

variable {s : Scheduler}

theorem successors_eq {t : TaskId} {v : PhysicalVertex} (hv : s.vertices t = some v) :
    s.successors t = v.successors := by
  simp [successors, hv]

theorem successors_eq_nil {t : TaskId} (hv : s.vertices t = none) : s.successors t = [] := by
  simp [successors, hv]

theorem live_of_mem_successors {p t : TaskId} (h : t ∈ s.successors p) :
    (s.vertices p).isSome := by
  by_contra hn
  rw [successors_eq_nil (by simpa using hn)] at h
  exact List.not_mem_nil h

/-- The effect of a recorded edge on the vertex of `x`. -/
def linked (p t x : TaskId) (v : PhysicalVertex) : PhysicalVertex :=
  { v with
    successors := if x = p then v.successors ++ [t] else v.successors
    predecessorCount := if x = t then v.predecessorCount + 1 else v.predecessorCount }

/-- The scheduler after the edge from `p` to `t` is recorded. -/
def recordEdge (s : Scheduler) (p t : TaskId) : Scheduler :=
  { s with vertices := fun x => (s.vertices x).map (linked p t x) }

theorem successors_recordEdge {p : TaskId} (t : TaskId) {pred : PhysicalVertex}
    (hp : s.vertices p = some pred) (x : TaskId) :
    (s.recordEdge p t).successors x =
      if x = p then s.successors x ++ [t] else s.successors x := by
  by_cases hx : x = p
  · subst x
    simp [successors, recordEdge, hp, linked]
  · cases hv : s.vertices x <;> simp [successors, recordEdge, hv, linked, hx]

theorem addDependency_erased {p t : TaskId} (hp : s.vertices p = none) :
    s.addDependency p t = some s := by
  simp [addDependency, hp]

theorem addDependency_recorded {p t : TaskId} {pred succ : PhysicalVertex}
    (hp : s.vertices p = some pred) (ht : s.vertices t = some succ) :
    s.addDependency p t = some (s.recordEdge p t) := by
  simp only [addDependency, hp, ht, setVertex, recordEdge]
  congr 2
  funext x
  by_cases hxt : x = t
  · subst x
    by_cases htp : t = p
    · subst t
      simp [hp, linked]
    · simp [ht, htp, linked]
  · by_cases hxp : x = p
    · subst x
      simp [hp, hxt, linked]
    · cases hx : s.vertices x <;> simp [hx, hxt, hxp, linked]

theorem decrementPredecessorCount_push {lm : LocalityManager} {draw : WorkerId} {t task : TaskId}
    {v : PhysicalVertex} (hv : s.vertices t = some v) (hcount : v.predecessorCount = 1)
    (htask : v.physicalTask = some task) :
    let moved := { v with predecessorCount := 0, physicalTask := none }
    let q := targetQueue lm draw v.localityOption
    s.decrementPredecessorCount lm draw t =
      some ((s.setVertex t (some moved)).pushBack q task, some q) := by
  simp [decrementPredecessorCount, hv, hcount, htask]

theorem decrementPredecessorCount_keep {lm : LocalityManager} {draw : WorkerId} {t : TaskId}
    {v : PhysicalVertex} (hv : s.vertices t = some v) (hcount : v.predecessorCount ≠ 1) :
    let counted := { v with predecessorCount := v.predecessorCount - 1 }
    s.decrementPredecessorCount lm draw t = some (s.setVertex t (some counted), none) := by
  have hne : v.predecessorCount - 1 ≠ 0 := by omega
  simp [decrementPredecessorCount, hv, hne]

theorem eraseVertex_eq {t : TaskId} {v : PhysicalVertex} (hv : s.vertices t = some v) :
    s.eraseVertex t = some (s.setVertex t none, v.successors) := by
  simp [eraseVertex, hv]

/-- Each pop removes one occurrence of the task it returns. -/
theorem Pops.perm {lm : LocalityManager} {worker : WorkerId} {s' : Scheduler} {q : QueueRef}
    {t : TaskId} (h : Pops lm worker s q t s') :
    ∃ rest, (s.queues q).Perm (t :: rest) ∧ s' = s.setQueue q rest := by
  have hfront : ∀ q, s.popFront q = some (t, s') →
      ∃ rest, (s.queues q).Perm (t :: rest) ∧ s' = s.setQueue q rest := by
    intro q hpop
    cases hq : s.queues q with
    | nil => simp [popFront, hq] at hpop
    | cons task rest =>
      simp only [popFront, hq, Option.some.injEq, Prod.mk.injEq] at hpop
      obtain ⟨rfl, rfl⟩ := hpop
      exact ⟨rest, List.Perm.refl _, rfl⟩
  cases h with
  | unstealable hpop => exact hfront _ hpop
  | steal hnode hpop => exact hfront _ hpop
  | localStealable hpop =>
    unfold popBack at hpop
    split at hpop
    · cases hpop
    · next task hlast =>
      cases hpop
      refine ⟨_, ?_, rfl⟩
      have hsplit := List.dropLast_append_getLast? t hlast
      rw [← hsplit, List.dropLast_concat]
      exact List.perm_append_singleton t _

end Scheduler

end M3bp
