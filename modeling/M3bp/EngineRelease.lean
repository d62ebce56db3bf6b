import M3bp.EngineMoves
import M3bp.EnginePool
import M3bp.EngineStores

/-!
The references that a run holds, and the memory that they keep allocated. An
object is released with its last reference, and then `notify_release` takes it
off the total of the memory manager.
-/
namespace M3bp.Engine

open SchedulerCalls Transition

variable {n : ℕ}

/-- The objects that an operation carries along. -/
def Op.references : Op → List Object
  | prepare _ c | spawn c => c.references
  | call _ _ inputs => inputs.map Prod.snd
  | partitionFragment _ o | deliver _ _ o => [o]
  | runGather _ inputs => inputs
  | _ => []

def Worker.references (x : Worker) : List Object :=
  x.held ++ x.buffers ++ x.program.flatMap Op.references

def Local.references (x : Local) : List Object :=
  x.inputs ++ x.partitionedBuffers ++ x.broadcastInputs.filterMap id ++
    x.partitionedPool.flatMap fun row => row.filterMap id

/-- The references of the commands that no worker has taken. -/
def State.commandReferences (s : State n) : List Object :=
  s.commands.zipIdx.flatMap fun (c, t) => if .taken t ∈ s.system.log then [] else c.references

def State.references (g : LogicalGraph) (s : State n) : List Object :=
  (List.finRange n).flatMap (fun w => (s.workers w).references) ++
    (List.range g.tasks.length).flatMap (fun l => (s.locals l).references) ++
    s.commandReferences

/-- The objects of `m_managed_objects` and their total size. -/
structure MemoryManager where
  managedObjects : List Object
  totalMemoryUsage : ℤ

namespace MemoryManager

variable (m : MemoryManager)

def allocate (o : Object) (size : ℕ) : MemoryManager :=
  { managedObjects := o :: m.managedObjects, totalMemoryUsage := m.totalMemoryUsage + size }

def notifyRelease (o : Object) (size : ℕ) : MemoryManager :=
  { managedObjects := m.managedObjects.erase o, totalMemoryUsage := m.totalMemoryUsage - size }

def allocateAll (size : Object → ℕ) (new : List Object) : MemoryManager :=
  new.foldl (fun m o => m.allocate o (size o)) m

/-- The objects without a reference are released. -/
def releaseAll (size : Object → ℕ) (references : List Object) : MemoryManager :=
  (m.managedObjects.filter fun o => o ∉ references).foldl (fun m o => m.notifyRelease o (size o)) m

end MemoryManager

/-- The engine with its memory manager. -/
structure Metered (n : ℕ) where
  engine : State n
  memory : MemoryManager

def objectSize (s : State n) (o : Object) : ℕ := (s.objectSizes[o]?).getD 0

/-- The new objects of a step are allocated, and what has lost its last reference
is released. -/
inductive Metered.Step (g : LogicalGraph) (lm : LocalityManager) : Metered n → Metered n → Prop
  | step {m : Metered n} {s' : State n} (h : Engine.Step g lm m.engine s') :
      Metered.Step g lm m
        { engine := s'
          memory := (m.memory.allocateAll (objectSize s')
            (List.range' m.engine.objectSizes.length
              (s'.objectSizes.length - m.engine.objectSizes.length))).releaseAll (objectSize s')
                (s'.references g) }

def Metered.Run (g : LogicalGraph) (lm : LocalityManager) : Metered n → Prop :=
  Reachable (fun m => (∃ draws, m.engine = State.start g (Plan.setUp g lm draws)) ∧
    m.memory = { managedObjects := [], totalMemoryUsage := 0 }) (Metered.Step g lm)

section Memory

variable {m : MemoryManager} {size : Object → ℕ}

/-- The total is that of the managed objects. -/
def MemoryManager.Accounted (m : MemoryManager) (size : Object → ℕ) : Prop :=
  m.totalMemoryUsage = ((m.managedObjects.map size).sum : ℕ)

theorem MemoryManager.Accounted.allocateAll (h : m.Accounted size) (new : List Object) :
    (m.allocateAll size new).Accounted size := by
  induction new generalizing m with
  | nil => exact h
  | cons o new ih =>
    refine ih (m := m.allocate o (size o)) ?_
    unfold MemoryManager.Accounted at h ⊢
    simp only [MemoryManager.allocate, List.map_cons, List.sum_cons]
    omega

theorem MemoryManager.Accounted.notifyRelease (h : m.Accounted size) {o : Object}
    (ho : o ∈ m.managedObjects) : (m.notifyRelease o (size o)).Accounted size := by
  have hsum : (m.managedObjects.map size).sum =
      size o + ((m.managedObjects.erase o).map size).sum :=
    ((List.perm_cons_erase ho).map size).sum_eq
  unfold MemoryManager.Accounted at h ⊢
  simp only [MemoryManager.notifyRelease]
  omega

/-- Releasing some of the managed objects, each as often as it is managed. -/
theorem MemoryManager.Accounted.foldl_notifyRelease (h : m.Accounted size) {objects : List Object}
    (hsub : objects.Subperm m.managedObjects) :
    (objects.foldl (fun m o => m.notifyRelease o (size o)) m).Accounted size ∧
      (objects.foldl (fun m o => m.notifyRelease o (size o)) m).managedObjects =
        m.managedObjects.diff objects := by
  induction objects generalizing m with
  | nil => exact ⟨h, rfl⟩
  | cons o objects ih =>
    have ho : o ∈ m.managedObjects := hsub.subset List.mem_cons_self
    have hrest : objects.Subperm (m.notifyRelease o (size o)).managedObjects := by
      have herase := hsub.erase o
      rwa [List.erase_cons_head] at herase
    obtain ⟨haccounted, hmanaged⟩ := ih (h.notifyRelease ho) hrest
    refine ⟨haccounted, hmanaged.trans ?_⟩
    rw [List.diff_cons]
    rfl

theorem MemoryManager.Accounted.releaseAll (h : m.Accounted size) (references : List Object) :
    (m.releaseAll size references).Accounted size ∧
      ∀ o ∈ (m.releaseAll size references).managedObjects, o ∈ references := by
  have hsub : (m.managedObjects.filter fun o => o ∉ references).Subperm m.managedObjects :=
    List.filter_sublist.subperm
  obtain ⟨haccounted, hmanaged⟩ := h.foldl_notifyRelease hsub
  refine ⟨haccounted, fun o ho => ?_⟩
  rw [MemoryManager.releaseAll, hmanaged] at ho
  by_contra hno
  have hcount := List.count_diff o m.managedObjects (m.managedObjects.filter fun o => o ∉ references)
  rw [List.count_filter (by simpa using hno), Nat.sub_self] at hcount
  exact absurd (List.count_pos_iff.mpr ho) (by omega)

theorem mem_allocateAll {new : List Object} {o : Object} :
    o ∈ (m.allocateAll size new).managedObjects ↔ o ∈ m.managedObjects ∨ o ∈ new := by
  induction new generalizing m with
  | nil => simp [MemoryManager.allocateAll]
  | cons o' new ih =>
    have hstep : o ∈ (m.allocateAll size (o' :: new)).managedObjects ↔
        o ∈ (m.allocate o' (size o')).managedObjects ∨ o ∈ new := @ih (m.allocate o' (size o'))
    rw [hstep]
    simp only [MemoryManager.allocate, List.mem_cons]
    tauto

theorem mem_of_mem_releaseAll {references : List Object} {o : Object}
    (h : o ∈ (m.releaseAll size references).managedObjects) : o ∈ m.managedObjects := by
  have hrun : ∀ (objects : List Object) (m : MemoryManager),
      o ∈ (objects.foldl (fun m o => m.notifyRelease o (size o)) m).managedObjects →
      o ∈ m.managedObjects := by
    intro objects
    induction objects with
    | nil => exact fun _ h => h
    | cons o' objects ih => exact fun m h => List.mem_of_mem_erase (ih (m.notifyRelease o' _) h)
  exact hrun _ m h

end Memory

section Release

variable {config : Configuration} {g : LogicalGraph} {lm : LocalityManager} {s : State n}
  {m : Metered n}

/-- Objects are never resized. -/
theorem objectSizes_of_step (hinv : Inv g lm s) {s' : State n} (hstep : Step g lm s s') :
    ∃ new, s'.objectSizes = s.objectSizes ++ new := by
  rcases hinv.step_cases hstep with ⟨w, t, op, rest, e, -, -, -, -, rfl⟩ | hbetween
  · exact ⟨e.allocated, rfl⟩
  · exact ⟨[], by rw [hbetween.objectSizes, List.append_nil]⟩

/-- What the memory manager counts. -/
structure MemoryInv (g : LogicalGraph) (m : Metered n) : Prop where
  accounted : m.memory.Accounted (objectSize m.engine)
  referenced : ∀ o ∈ m.memory.managedObjects, o ∈ m.engine.references g
  allocated : ∀ o ∈ m.memory.managedObjects, o < m.engine.objectSizes.length

theorem Metered.run_engine (hrun : Metered.Run g lm m) : Engine.Run g lm m.engine := by
  induction hrun with
  | start h =>
    obtain ⟨hstart, -⟩ := h
    exact .start hstart
  | next _ hstep ih =>
    cases hstep with
    | step h => exact ih.next h

/-- The memory manager follows every run of the engine. -/
theorem exists_metered (hrun : Engine.Run g lm s) : ∃ m, Metered.Run g lm m ∧ m.engine = s := by
  induction hrun with
  | start h =>
    rename_i s
    exact ⟨{ engine := s, memory := { managedObjects := [], totalMemoryUsage := 0 } },
      .start ⟨h, rfl⟩, rfl⟩
  | next _ hstep ih =>
    obtain ⟨m, hm, rfl⟩ := ih
    exact ⟨_, hm.next (.step hstep), rfl⟩

theorem MemoryManager.Accounted.congr {memory : MemoryManager} {size size' : Object → ℕ}
    (h : memory.Accounted size) (hsize : ∀ o ∈ memory.managedObjects, size' o = size o) :
    memory.Accounted size' := by
  have hsum : memory.managedObjects.map size' = memory.managedObjects.map size :=
    List.map_congr_left hsize
  unfold MemoryManager.Accounted at h ⊢
  rw [hsum, h]

theorem run_memoryInv (hwaits : Waits g) (hrun : Metered.Run g lm m) : MemoryInv g m := by
  induction hrun with
  | start h =>
    obtain ⟨-, hmemory⟩ := h
    refine ⟨?_, ?_, ?_⟩
    · rw [hmemory]
      rfl
    · rw [hmemory]
      simp
    · rw [hmemory]
      simp
  | next hrun hstep ih =>
    cases hstep with
    | step h =>
      rename_i m s'
      obtain ⟨new, hsizes⟩ := objectSizes_of_step (run_invariant hwaits (Metered.run_engine hrun)) h
      have hold : ∀ o ∈ m.memory.managedObjects, objectSize s' o = objectSize m.engine o := by
        intro o ho
        rw [objectSize, hsizes, List.getElem?_append_left (ih.allocated o ho), objectSize]
      have haccounted := ((ih.accounted.congr hold).allocateAll
        (List.range' m.engine.objectSizes.length
          (s'.objectSizes.length - m.engine.objectSizes.length))).releaseAll (s'.references g)
      refine ⟨haccounted.1, haccounted.2, fun o ho => ?_⟩
      have hlength : m.engine.objectSizes.length ≤ s'.objectSizes.length := by
        rw [hsizes, List.length_append]
        exact Nat.le_add_right _ _
      rcases mem_allocateAll.mp (mem_of_mem_releaseAll ho) with ho | ho
      · exact Nat.lt_of_lt_of_le (ih.allocated o ho) hlength
      · exact Nat.lt_of_lt_of_le (List.mem_range'_1.mp ho).2 (Nat.add_sub_of_le hlength).le

/-- A worker that runs no task holds nothing. -/
theorem run_held (hwaits : Waits g) (hrun : Run g lm s) (w : Fin n)
    (hrest : ∀ t, (s.workers w).activity ≠ .running t) :
    (s.workers w).held = [] ∧ (s.workers w).buffers = [] := by
  refine @run_induction n g lm s hwaits (fun s => ∀ w, (∀ t, (s.workers w).activity ≠ .running t) →
    (s.workers w).held = [] ∧ (s.workers w).buffers = []) ?_ ?_ ?_ hrun w hrest
  · exact fun draws w _ => ⟨rfl, rfl⟩
  · intro s w t op rest e _ _ hheld hrunning hcall hprogram heffect w' hrest'
    have hw : w' ≠ w := by
      rintro rfl
      exact hrest' t (by rw [apply_activity, hrunning])
    have hsame : (s.apply w rest e).workers w' = s.workers w' := by
      simp [State.apply, hw]
    rw [hsame] at hrest' ⊢
    exact hheld w' hrest'
  · intro s s' _ hheld hbetween w' hrest'
    rcases hbetween.workers w' with hempty | ⟨hsame, hsame', hrunning⟩
    · exact hempty
    · rw [hsame, hsame']
      exact hheld w' fun t ht => hrest' t (hrunning t ht)

/-- Only scatter-gather processes have a pool. -/
theorem run_pool_nil (hwaits : Waits g) (hrun : Run g lm s) {l : ℕ}
    (hno : ∀ proc workerCount count,
      g.kindOf l ≠ some (.scatterGatherProcess proc workerCount count)) :
    (s.locals l).partitionedPool = [] := by
  refine @run_induction n g lm s hwaits (fun s => (s.locals l).partitionedPool = []) ?_ ?_ ?_ hrun
  · intro draws
    simp only [State.start]
    cases hkind : g.kindOf l with
    | none => rfl
    | some kind =>
      cases kind <;> first
        | rfl
        | exact absurd hkind (hno _ _ _)
  · intro s w t op rest e _ _ hpool hrunning hcall hprogram heffect
    cases heffect.poolChange_apply rest l with
    | keep hsame => rw [hsame, hpool]
    | store _ _ hsame => simp [hsame, hpool]
    | countDown hsame => rw [hsame, hpool]
    | move hsame => simp [hsame, hpool]
  · intro s s' _ hpool hbetween
    rw [hbetween.locals]
    exact hpool

theorem pool_of_finished (h : Shape config g) (hrun : Run g lm s)
    (hfinished : s.system.scheduler.isFinished = true) (l : ℕ) :
    ∀ row ∈ (s.locals l).partitionedPool, row.filterMap id = [] := by
  intro row hrow
  by_cases hkind : ∃ proc workerCount count,
      g.kindOf l = some (.scatterGatherProcess proc workerCount count)
  · obtain ⟨proc, workerCount, count, hl⟩ := hkind
    obtain ⟨p, hp⟩ := List.mem_iff_getElem?.mp hrow
    have hzero := tokens_of_finished h.waits hrun hfinished
    by_contra hne
    obtain ⟨o, ho⟩ := List.exists_mem_of_ne_nil _ hne
    have hsome : some o ∈ row := by simpa using ho
    rcases (run_poolInv h hrun hl).rows p row hp ⟨o, hsome⟩ with hpos | hpos
    · rw [coming, hzero] at hpos
      exact Nat.lt_irrefl 0 hpos
    · rw [moving, hzero] at hpos
      exact Nat.lt_irrefl 0 hpos
  · push Not at hkind
    rw [run_pool_nil h.waits hrun hkind] at hrow
    cases hrow

theorem local_references_of_finished (h : Shape config g) (hrun : Run g lm s)
    (hfinished : s.system.scheduler.isFinished = true) (l : ℕ) : (s.locals l).references = [] := by
  have hstored := stored_of_finished h.waits hrun hfinished l
  have hinputs : (s.locals l).inputs = [] := hstored .inputs
  have hbuffers : (s.locals l).partitionedBuffers = [] := hstored .partitionedBuffers
  have hbroadcast : (s.locals l).broadcastInputs.filterMap id = [] := hstored .broadcastInputs
  rw [Local.references, hinputs, hbuffers, hbroadcast, List.nil_append, List.nil_append,
    List.nil_append, List.flatMap_eq_nil_iff]
  exact pool_of_finished h hrun hfinished l

theorem worker_references_of_finished (h : Shape config g) (hrun : Run g lm s)
    (hfinished : s.system.scheduler.isFinished = true) (w : Fin n) :
    (s.workers w).references = [] := by
  have hinv := run_invariant h.waits hrun
  have hrest := hinv.not_running_of_finished hfinished w
  obtain ⟨hheld, hbuffers⟩ := run_held h.waits hrun w hrest
  rw [Worker.references, hheld, hbuffers, hinv.program_of_not_running hrest]
  rfl

theorem command_references_of_finished (h : Shape config g) (hrun : Run g lm s)
    (hfinished : s.system.scheduler.isFinished = true) : s.commandReferences = [] := by
  have hinv := run_inv (run_invariant h.waits hrun).run
  rw [State.commandReferences, List.flatMap_eq_nil_iff]
  rintro ⟨c, t⟩ hmem
  have hc := List.mem_zipIdx_iff_getElem?.mp hmem
  have hdone := executed_of_finished h.waits hrun hfinished (List.getElem?_eq_some_iff.mp hc).1
  exact if_pos (hinv.finished_taken hdone)

/-- When the last physical task has completed, no logical task, no command and no
worker holds a reference, and no memory is in use. -/
theorem released_of_finished {fg : FlowGraph} (hacyclic : Acyclic fg.Feeds)
    (hmovements : fg.DefinedMovements) (hbuild : GraphBuilder.buildLogicalGraph config fg = .ok g)
    (hrun : Metered.Run g lm m) (hfinished : m.engine.system.scheduler.isFinished = true) :
    (∀ l, (m.engine.locals l).references = []) ∧ (∀ w, (m.engine.workers w).references = []) ∧
      m.engine.commandReferences = [] ∧ m.memory.managedObjects = [] ∧
      m.memory.totalMemoryUsage = 0 := by
  have h := shape_of_build hbuild hacyclic hmovements
  have hengine := Metered.run_engine hrun
  have hlocals := local_references_of_finished h hengine hfinished
  have hworkers := worker_references_of_finished h hengine hfinished
  have hcommands := command_references_of_finished h hengine hfinished
  have hnone : m.engine.references g = [] := by
    have hworkers' : (List.finRange n).flatMap (fun w => (m.engine.workers w).references) = [] :=
      List.flatMap_eq_nil_iff.mpr fun w _ => hworkers w
    have hlocals' : (List.range g.tasks.length).flatMap
        (fun l => (m.engine.locals l).references) = [] :=
      List.flatMap_eq_nil_iff.mpr fun l _ => hlocals l
    rw [State.references, hworkers', hlocals', hcommands]
    rfl
  have hmemory := run_memoryInv h.waits hrun
  have hmanaged : m.memory.managedObjects = [] := by
    refine List.eq_nil_iff_forall_not_mem.mpr fun o ho => ?_
    have href := hmemory.referenced o ho
    rw [hnone] at href
    cases href
  refine ⟨hlocals, hworkers, hcommands, hmanaged, ?_⟩
  have haccounted := hmemory.accounted
  rw [MemoryManager.Accounted, hmanaged] at haccounted
  exact haccounted

theorem released_of_finished_pipe :
    ∃ m : Metered 1, m.engine.objectSizes = [8] ∧
      (∀ l, (m.engine.locals l).references = []) ∧ (∀ w, (m.engine.workers w).references = []) ∧
      m.engine.commandReferences = [] ∧ m.memory.managedObjects = [] ∧
      m.memory.totalMemoryUsage = 0 := by
  obtain ⟨s, hrun, hfinished, hsizes⟩ := exists_run_pipe
  obtain ⟨m, hm, rfl⟩ := exists_metered hrun
  exact ⟨m, hsizes,
    released_of_finished acyclic_pipe definedMovements_pipe build_pipe hm hfinished⟩

end Release

end M3bp.Engine
