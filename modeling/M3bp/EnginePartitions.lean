import M3bp.EnginePrograms

/-!
Partitions are counted from zero up to the configured number. They come from the barrier of
a shuffle, and travel with the fragments to the sorts and the processes behind it.
-/
namespace M3bp.Engine

open SchedulerCalls Transition

variable {n : ℕ}

/-- The numbers of partitions in the graph are the configured one. -/
def Sized (count : ℕ) (kind : TaskKind) : Prop :=
  match kind with
  | .shuffle count' | .scatterGatherProcess _ _ count' => count' = count
  | _ => True

def SizedGraph (count : ℕ) (g : LogicalGraph) : Prop :=
  ∀ l kind, g.kindOf l = some kind → Sized count kind

section Graph

open GraphBuilder

variable {config : Configuration} {fg : FlowGraph} {g : LogicalGraph}

theorem SizedGraph.addTask {count : ℕ} (h : SizedGraph count g) {kind : TaskKind}
    (hkind : Sized count kind) (name : String) : SizedGraph count (g.addTask kind name) := by
  intro l kind' hl
  by_cases heq : l = g.tasks.length
  · rw [heq, g.kindOf_addTask_self, Option.some.injEq] at hl
    exact hl ▸ hkind
  · rw [g.kindOf_addTask kind name heq] at hl
    exact h l kind' hl

theorem SizedGraph.addEdges {count : ℕ} (h : SizedGraph count g) (producers : List PortKey)
    (c : PortKey) (s : PhysicalSuccessor) : SizedGraph count (g.addEdges producers c s) := by
  intro l kind hl
  rw [g.kindOf_addEdges] at hl
  exact h l kind hl

theorem sized_createProcessTask (config : Configuration) (proc : Processor) :
    Sized config.partitionCount (createProcessTask config proc) := by
  unfold createProcessTask
  split
  · trivial
  · split
    · rfl
    · trivial

theorem SizedGraph.createNode {count : ℕ} (h : SizedGraph count g) {kind : TaskKind}
    (hkind : Sized count kind) (name : String) (succ : PhysicalSuccessor) (ps : PortSet)
    (nodes : PortSetToTaskMap) : SizedGraph count (createNode kind name succ ps g nodes).1 := by
  unfold GraphBuilder.createNode
  split
  · exact h
  · exact (h.addTask hkind name).addEdges _ _ _

theorem sized_createIntermediateNode {b : GraphBuilder.State}
    (h : SizedGraph config.partitionCount b.graph) (vertices : List Vertex) (slot : InputSlot) :
    SizedGraph config.partitionCount (createIntermediateNode config vertices b slot).graph := by
  have hshuffle : Sized config.partitionCount (.shuffle config.partitionCount) := rfl
  have hgather : Sized config.partitionCount .gather := trivial
  unfold createIntermediateNode
  split
  · exact h.createNode hshuffle _ _ _ _
  · exact h.createNode hgather _ _ _ _
  · exact h
  · exact h

theorem sized_createPortEdges {count : ℕ} {b b' : GraphBuilder.State} (h : SizedGraph count b.graph)
    {slot : InputSlot} (hb' : createPortEdges b slot = .ok b') : SizedGraph count b'.graph := by
  have hsort : ∀ comparator, Sized count (.valueSort comparator) := fun _ => trivial
  simp only [createPortEdges] at hb'
  split at hb'
  · cases hb'
    exact h.addEdges _ _ _
  · split at hb'
    · cases hb'
    · cases hb'
      exact h.addEdges _ _ _
  all_goals
    split at hb'
    · cases hb'
    · cases hb'
      refine SizedGraph.addEdges ?_ _ _ _
      exact (h.addTask (hsort _) _).addEdges _ _ _
    · cases hb'
      exact h.addEdges _ _ _

theorem sized_of_build (hbuild : buildLogicalGraph config fg = .ok g) :
    SizedGraph config.partitionCount g := by
  have hprocesses : SizedGraph config.partitionCount (createProcessorNodes config fg.vertices) := by
    unfold createProcessorNodes
    refine List.foldlRecOn _ _ nofun fun g h v _ => ?_
    exact SizedGraph.addTask h (sized_createProcessTask config v.processor) v.name
  have hnodes : ∀ (slots : List InputSlot) (b : GraphBuilder.State),
      SizedGraph config.partitionCount b.graph →
        SizedGraph config.partitionCount
          (slots.foldl (createIntermediateNode config fg.vertices) b).graph := by
    intro slots
    induction slots with
    | nil => exact fun b h => h
    | cons slot slots ih =>
      exact fun b h => ih _ (sized_createIntermediateNode h fg.vertices slot)
  have hedges : ∀ (slots : List InputSlot) (b b' : GraphBuilder.State),
      SizedGraph config.partitionCount b.graph → slots.foldlM createPortEdges b = .ok b' →
        SizedGraph config.partitionCount b'.graph := by
    intro slots
    induction slots with
    | nil =>
      intro b b' h hb'
      cases hb'
      exact h
    | cons slot slots ih =>
      intro b b' h hb'
      rw [List.foldlM_cons] at hb'
      cases hfirst : createPortEdges b slot with
      | error e => rw [hfirst] at hb'; cases hb'
      | ok next =>
        rw [hfirst] at hb'
        exact ih next b' (sized_createPortEdges h hfirst) hb'
  unfold buildLogicalGraph at hbuild
  cases hb : (inputSlots fg.vertices).foldlM createPortEdges
      ((inputSlots fg.vertices).foldl (createIntermediateNode config fg.vertices)
        { graph := createProcessorNodes config fg.vertices, shuffleNodes := [],
          gatherNodes := [] }) with
  | error e => simp [hb] at hbuild
  | ok b =>
    simp only [hb] at hbuild
    have hg : b.graph = g := Except.ok.inj hbuild
    exact hg ▸ hedges _ _ b (hnodes _ _ hprocesses) hb

end Graph

/-- The partition of a command is one of the configured ones. -/
def Command.InRange (count : ℕ) : Command → Prop
  | scatterGatherRun _ _ p | shuffleSort _ p _ => p < count
  | _ => True

def Op.InRange (count : ℕ) : Op → Prop
  | prepare _ c | spawn c => c.InRange count
  | createSortTask _ p | sortRecords _ p | createPartitionRun _ p => p < count
  | _ => True

/-- The partitions of all commands, and of the operations that are about one, are in range. -/
def InRange (count : ℕ) : State n → Prop :=
  Throughout (Op.InRange count) (Command.InRange count) (fun x => x.waitingCounters.length ≤ count)
    fun _ => True

section Range

variable {g : LogicalGraph} {lm : LocalityManager} {s s' : State n} {w : Fin n} {op : Op}
  {e : Effect} {count : ℕ}

theorem inRange_body (hsized : SizedGraph count g) (t : TaskId) {c : Command}
    (hc : c.InRange count) : ∀ op ∈ body g s t c, op.InRange count := by
  intro op hop
  cases c with
  | empty l place => cases hop
  | processBarrier l =>
    obtain ⟨i, -, rfl⟩ := List.mem_map.mp hop
    trivial
  | shuffleBarrier l =>
    simp only [body] at hop
    split at hop
    · next count' hkind =>
      have hcount : count' = count := hsized l _ hkind
      rcases List.mem_append.mp hop with hop | hop
      · obtain ⟨p, hp, rfl⟩ := List.mem_map.mp hop
        rw [hcount] at hp
        exact List.mem_range.mp hp
      · rw [List.mem_singleton.mp hop]
        trivial
    · cases hop
  | shuffleSort l p sources =>
    rw [List.mem_singleton.mp hop]
    exact hc
  | _ =>
    simp only [body, List.mem_cons, List.not_mem_nil, or_false] at hop
    rcases hop with rfl | rfl | rfl | rfl | rfl <;> trivial

theorem inRange_commitFragment (g : LogicalGraph) (x : PortKey) (p : ℕ) (o : Object) :
    ∀ op ∈ commitFragment g x p o, op.InRange count := by
  intro op hop
  obtain ⟨y, -, rfl⟩ := List.mem_map.mp hop
  trivial

/-- What an effect has to keep. -/
def Effect.InRange (count : ℕ) : Effect → Prop :=
  Effect.Throughout (Op.InRange count) (Command.InRange count)
    (fun x => x.waitingCounters.length ≤ count) fun _ => True

theorem inRange_next {next : List Op} {held buffers : Option (List Object)} {allocated : List ℕ}
    {notes : List Note} (h : ∀ op ∈ next, op.InRange count) :
    ({ next := next, held := held, buffers := buffers, allocated := allocated, notes := notes } :
      Effect).InRange count :=
  ⟨h, fun _ _ _ _ => trivial, fun _ _ _ _ => trivial, nofun, nofun⟩

theorem inRange_change {l : ℕ} {y : Local} {next : List Op} {allocated : List ℕ} {notes : List Note}
    (hy : y.waitingCounters.length ≤ count) (h : ∀ op ∈ next, op.InRange count) :
    ({ change := some (l, y), next := next, allocated := allocated, notes := notes } :
      Effect).InRange count := by
  refine ⟨h, nofun, nofun, fun l' y' heq => ?_, nofun⟩
  cases heq
  exact hy

theorem inRange_receiveFragment (h : InRange count s) (x : PortKey) (p : ℕ) (o : Object) :
    (receiveFragment g s x p o).InRange count := by
  have hsingle : ∀ op : Op, op.InRange count → ∀ op' ∈ [op], op'.InRange count := by
    intro op hop op' hop'
    rw [List.mem_singleton.mp hop']
    exact hop
  have hprocess : ∀ proc nonBroadcast, nonBroadcast.InRange count →
      (receiveProcessFragment s proc x o nonBroadcast).InRange count := by
    intro proc nonBroadcast hother
    unfold receiveProcessFragment
    split
    · exact inRange_change (h.locals x.1) nofun
    · exact hother
  unfold receiveFragment
  cases g.kindOf x.1 with
  | none => exact inRange_next nofun
  | some kind =>
    cases kind with
    | inputProcess proc workerCount => exact hprocess proc {} (inRange_next nofun)
    | oneToOneProcess proc workerCount =>
      exact hprocess proc _ (inRange_next (hsingle _ trivial))
    | scatterGatherProcess proc workerCount count' =>
      exact hprocess proc _ (inRange_change (h.locals x.1) (hsingle _ trivial))
    | shuffle count' => exact inRange_next (hsingle _ trivial)
    | gather => exact inRange_change (h.locals x.1) nofun
    | valueSort comparator => exact inRange_next (hsingle _ trivial)

/-- An operation passes a partition on, counts one of the configured ones, or looks at a
counter that is there. -/
theorem Performs.inRange (heffect : Performs g s w op e) (hsized : SizedGraph count g)
    (h : InRange count s) (hop : op ∈ (s.workers w).program) : e.InRange count := by
  have hold := h.operations w op hop
  have hsingle : ∀ op : Op, op.InRange count → ∀ op' ∈ [op], op'.InRange count := by
    intro op hop op' hop'
    rw [List.mem_singleton.mp hop']
    exact hop
  have hcommits : ∀ tasks : List TaskId, ∀ op ∈ tasks.map Op.commit, op.InRange count := by
    intro tasks op hop
    obtain ⟨t, -, rfl⟩ := List.mem_map.mp hop
    trivial
  cases heffect with
  | allocate l callback size => exact inRange_next (hsingle _ trivial)
  | flush l callback port recordCount o hport hbuffer =>
    apply inRange_next
    intro op hop
    rcases List.mem_append.mp hop with hop | hop
    · split at hop
      · exact inRange_commitFragment g _ _ _ op hop
      · cases hop
    · exact hsingle (.inCallback l callback) trivial op hop
  | setTaskCount l taskCount hinput => exact inRange_change (h.locals l) (hsingle _ trivial)
  | step op choice hoption =>
    cases op with
    | prepare t c => exact inRange_next (inRange_body hsized t hold)
    | globalInitialize l =>
      simp only [effect]
      split
      · exact inRange_next (List.forall_mem_nil _)
      · exact inRange_next (by simp [Op.InRange])
    | markGlobalInitialized l | markThreadLocalInitialized l | clearBroadcastInputs l
    | partitionFragment l o | clearPartitionedBuffers l | clearInputs l =>
      exact inRange_change (h.locals l) (List.forall_mem_nil _)
    | afterGlobalInitialize l =>
      simp only [effect]
      split
      · apply inRange_next
        intro op hop
        obtain ⟨i, -, rfl⟩ := List.mem_map.mp hop
        trivial
      · exact inRange_next (List.forall_mem_nil _)
    | createFinalizer l worker =>
      simp only [effect]
      split
      · exact inRange_next (hsingle _ trivial)
      · exact inRange_next (List.forall_mem_nil _)
    | globalFinalize l =>
      simp only [effect]
      split
      · exact inRange_change (h.locals l) (by simp [Op.InRange])
      · exact inRange_next (List.forall_mem_nil _)
    | threadLocalInitialize l =>
      simp only [effect]
      split
      · exact inRange_next (List.forall_mem_nil _)
      · exact inRange_next (by simp [Op.InRange])
    | threadLocalFinalize l =>
      simp only [effect]
      split
      · exact inRange_change (h.locals l) (hsingle _ trivial)
      · exact inRange_next (List.forall_mem_nil _)
    | call l callback inputs => exact inRange_next (hsingle _ trivial)
    | inCallback l callback => exact inRange_next (List.forall_mem_nil _)
    | release => exact inRange_next (List.forall_mem_nil _)
    | notifyCompletion l t => exact inRange_change (h.locals l) (hcommits _)
    | createSortTask l p => exact inRange_next (hsingle _ hold)
    | sortRecords l p => exact inRange_next (inRange_commitFragment g _ _ _)
    | sortValues l p => exact inRange_next (inRange_commitFragment g _ _ _)
    | runGather l inputs =>
      apply inRange_next
      intro op hop
      rcases List.mem_append.mp hop with hop | hop
      · exact inRange_commitFragment g _ _ _ op hop
      · exact hsingle (.clearInputs l) trivial op hop
    | deliver x p o => exact inRange_receiveFragment h x p o
    | countDown l p =>
      have hcounters : ((s.locals l).waitingCounters.modify p (· - 1)).length ≤ count := by
        rw [List.length_modify]
        exact h.locals l
      refine inRange_change hcounters fun op hop => ?_
      split at hop
      · next hzero =>
        rw [List.mem_singleton.mp hop]
        exact Nat.lt_of_lt_of_le (List.getElem?_eq_some_iff.mp hzero).1 hcounters
      · cases hop
    | createPartitionRun l p => exact inRange_change (h.locals l) (hsingle _ hold)
    | spawn c =>
      refine Effect.throughout_action (hsingle _ trivial) fun c' hc' => ?_
      rw [List.mem_singleton.mp hc']
      exact hold
    | link t c dependencies =>
      cases dependencies with
      | nil =>
        simp only [effect, commitTask]
        split
        · exact inRange_change (h.locals _) (hcommits _)
        · exact inRange_next (hcommits [t])
      | cons d rest =>
        exact Effect.throughout_action (hsingle _ trivial) (List.forall_mem_nil _)
    | commit t => exact Effect.throughout_action (List.forall_mem_nil _) (List.forall_mem_nil _)

theorem inRange_start {config : Configuration} (hsized : SizedGraph config.partitionCount g)
    (draws : TaskId → WorkerId) :
    InRange config.partitionCount (State.start g (Plan.setUp g lm draws) : State n) := by
  apply throughout_start
  · intro kind l place
    cases kind <;> cases place <;> trivial
  · intro l
    cases hkind : g.kindOf l with
    | none => exact Nat.zero_le _
    | some kind =>
      have hcount := hsized l kind hkind
      cases kind with
      | scatterGatherProcess proc workerCount count =>
        have hcount : count = config.partitionCount := hcount
        simp [Local.create, hcount]
      | _ => exact Nat.zero_le _

theorem step_inRange (hsized : SizedGraph count g) (h : InRange count s)
    (hstep : Step g lm s s') : InRange count s' :=
  step_throughout h (fun _ _ hc => hc) hstep fun _ _ _ _ hprogram heffect _ =>
    heffect.inRange hsized h (mem_program hprogram)

end Range

end M3bp.Engine
