import M3bp.EngineSetup

/-!
What one operation of a worker may assume and what it leaves for later. Each
operation in a program fits the command of the task that the worker runs: it
delivers to, and creates tasks in front of, physical tasks that the running task
comes before in the recorded dependencies.
-/
namespace M3bp.Engine

open SchedulerCalls Transition

variable {n : ℕ}

/-- The physical task of a consumer that waits for what comes in at a port. -/
def waitPlace (g : LogicalGraph) (x : PortKey) : Option PhysicalSuccessor :=
  (g.kindOf x.1).map fun kind =>
    match kind with
    | .inputProcess proc _ | .oneToOneProcess proc _ | .scatterGatherProcess proc _ _ =>
      if (proc.inputPorts[x.2]?).any fun port => port.movement = .broadcast then .entry
      else .barrier
    | .shuffle _ => .barrier
    | .gather => .entry
    | .valueSort _ => .terminal

/-- Fragments are delivered along the edges, and every edge makes the task wait
that its consumer's port needs. -/
structure Waits (g : LogicalGraph) : Prop where
  endpoints : ∀ e ∈ g.edges, e.producer.1 < g.tasks.length ∧ e.consumer.1 < g.tasks.length
  delivers : g.DeliversAlongEdges
  places : ∀ e ∈ g.edges, waitPlace g e.consumer = some e.physicalSuccessor

/-- The kinds of task that create a command during a run. -/
def Command.createdBy : Command → TaskKind → Bool
  | inputRun .., .inputProcess .. | oneToOneRun .., .oneToOneProcess ..
  | scatterGatherRun .., .scatterGatherProcess .. | threadLocalFinalize .., .inputProcess ..
  | threadLocalFinalize .., .oneToOneProcess .. | threadLocalFinalize .., .scatterGatherProcess ..
  | shufflePartition .., .shuffle _ | shuffleSort .., .shuffle _
  | valueSort .., .valueSort _ => true
  | _, _ => false

theorem before?_of_createdBy {c : Command} {kind : TaskKind} (h : c.createdBy kind = true) :
    ∃ place, c.before? = some place := by
  cases c <;> first
    | exact ⟨_, rfl⟩
    | cases h

/-- A command that is created during a run. -/
def Dynamic (g : LogicalGraph) (c : Command) : Prop :=
  ∃ kind, g.kindOf c.owner = some kind ∧ c.createdBy kind = true

/-- A command of the set-up, on the task it was created for. -/
def Fixed (g : LogicalGraph) (ids : ℕ → Ids) (t : TaskId) (c : Command) : Prop :=
  ∃ kind place, g.kindOf c.owner = some kind ∧ c = commandAt kind c.owner place ∧
    t = (ids c.owner).get place

/-- Whether an operation belongs to a run of task `t` with command `c`. -/
def Fits (g : LogicalGraph) (log : List Event) (commands : List Command) (ids : ℕ → Ids)
    (t : TaskId) (c : Command) : Op → Prop
  | .prepare t' c' => t' = t ∧ c' = c
  | .globalInitialize l | .markGlobalInitialized l | .afterGlobalInitialize l =>
    c = .globalInitialize l
  | .createFinalizer l _ => c = .processBarrier l
  | .globalFinalize l | .clearBroadcastInputs l => c = .globalFinalize l
  | .threadLocalInitialize l | .markThreadLocalInitialized l => c.owner = l ∧ c.isProcessCommand
  | .threadLocalFinalize l => ∃ worker, c = .threadLocalFinalize l worker
  | .call l _ _ | .inCallback l _ => c.owner = l
  | .release | .commit _ => True
  | .notifyCompletion l t' => c.owner = l ∧ c.isProcessCommand ∧ t' = t
  | .partitionFragment l o => c = .shufflePartition l o
  | .createSortTask l _ | .clearPartitionedBuffers l => c = .shuffleBarrier l
  | .sortRecords l p => ∃ sources, c = .shuffleSort l p sources
  | .runGather l _ | .clearInputs l => c = .gather l
  | .sortValues l p => ∃ o, c = .valueSort l o p
  | .deliver x _ _ => ∀ place, waitPlace g x = some place → Before log t ((ids x.1).get place)
  | .countDown l _ | .createPartitionRun l _ =>
    (∃ proc workers count, g.kindOf l = some (.scatterGatherProcess proc workers count)) ∧
      Before log t (ids l).barrier
  | .spawn c' => Dynamic g c' ∧
      ∀ place, c'.before? = some place → Before log t ((ids c'.owner).get place)
  | .link t' c' deps => commands[t']? = some c' ∧ Dynamic g c' ∧
      (∀ place, c'.before? = some place → Before log t ((ids c'.owner).get place)) ∧
      deps ⊆ c'.dependencies (ids c'.owner) t'

section Fits

variable {g : LogicalGraph} {log log' : List Event} {commands : List Command} {ids : ℕ → Ids}
  {t : TaskId} {c : Command}

theorem Fits.mono {op : Op} (h : Fits g log commands ids t c op) (hlog : log ⊆ log')
    (more : List Command) : Fits g log' (commands ++ more) ids t c op := by
  cases op with
  | deliver x p o => exact fun place hplace => (h place hplace).mono hlog
  | countDown l p => exact ⟨h.1, h.2.mono hlog⟩
  | createPartitionRun l p => exact ⟨h.1, h.2.mono hlog⟩
  | spawn c' => exact ⟨h.1, fun place hplace => (h.2 place hplace).mono hlog⟩
  | link t' c' deps =>
    obtain ⟨hc', hdynamic, hbefore, hdeps⟩ := h
    exact ⟨getElem?_append_of_some hc' more, hdynamic,
      fun place hplace => (hbefore place hplace).mono hlog, hdeps⟩
  | _ => exact h

end Fits

/-- The static part of what a run relies on: the fixed tasks with their
dependencies and the kinds of all commands. -/
structure Static (g : LogicalGraph) (log : List Event) (commands : List Command)
    (ids : ℕ → Ids) : Prop where
  laid : ∀ l kind, g.kindOf l = some kind → LaidOut log commands (ids l) l kind
  edges : ∀ e ∈ g.edges, .dependency (ids e.producer.1).terminal
    ((ids e.consumer.1).get e.physicalSuccessor) ∈ log
  kinds : ∀ t c, commands[t]? = some c → Fixed g ids t c ∨ Dynamic g c

section Static

variable {g : LogicalGraph} {log log' : List Event} {commands : List Command} {ids : ℕ → Ids}
  {t : TaskId} {c : Command}

theorem Static.mono (h : Static g log commands ids) (hlog : log ⊆ log') {more : List Command}
    (hmore : ∀ c ∈ more, Dynamic g c) : Static g log' (commands ++ more) ids := by
  refine ⟨fun l kind hkind => (h.laid l kind hkind).mono hlog more,
    fun e he => hlog (h.edges e he), ?_⟩
  intro t c hc
  by_cases ht : t < commands.length
  · rw [List.getElem?_append_left ht] at hc
    exact h.kinds t c hc
  · rw [List.getElem?_append_right (Nat.le_of_not_lt ht)] at hc
    exact Or.inr (hmore c (List.mem_of_getElem? hc))

/-- A command that is never created during a run sits on its fixed task. -/
theorem Static.fixed (h : Static g log commands ids) (hc : commands[t]? = some c)
    (hno : ∀ kind, c.createdBy kind = false) : Fixed g ids t c := by
  rcases h.kinds t c hc with hfixed | ⟨kind, -, hkind⟩
  · exact hfixed
  · rw [hno kind] at hkind
    cases hkind

theorem Before.tail {log : List Event} {a b d : TaskId} (h : Before log a b)
    (hdep : .dependency b d ∈ log) : Before log a d := Relation.TransGen.tail h hdep

theorem Follows.before {log : List Event} {a b d : TaskId} (h : Before log a b)
    (hfollows : Follows log b d) : Before log a d := by
  rcases hfollows with rfl | hdep
  · exact h
  · exact h.tail hdep

/-- Two places with different commands are joined by a dependency. -/
theorem LaidOut.dependency_barrier {l : ℕ} {kind : TaskKind}
    (h : LaidOut log commands (ids l) l kind)
    (hne : commandAt kind l .entry ≠ commandAt kind l .barrier) :
    .dependency (ids l).entry (ids l).barrier ∈ log := by
  refine h.barrier.resolve_left fun heq => hne ?_
  have hentry := h.command .entry
  have hbarrier := h.command .barrier
  simp only [Ids.get] at hentry hbarrier
  rw [heq, hbarrier, Option.some.injEq] at hentry
  exact hentry.symm

theorem LaidOut.dependency_terminal {l : ℕ} {kind : TaskKind}
    (h : LaidOut log commands (ids l) l kind)
    (hne : commandAt kind l .barrier ≠ commandAt kind l .terminal) :
    .dependency (ids l).barrier (ids l).terminal ∈ log := by
  refine h.terminal.resolve_left fun heq => hne ?_
  have hbarrier := h.command .barrier
  have hterminal := h.command .terminal
  simp only [Ids.get] at hbarrier hterminal
  rw [heq, hterminal, Option.some.injEq] at hbarrier
  exact hbarrier.symm

/-- Every fixed task of a logical task is its terminal or comes before it. -/
theorem LaidOut.before_terminal {l : ℕ} {kind : TaskKind}
    (h : LaidOut log commands (ids l) l kind) (place : PhysicalSuccessor) :
    (ids l).get place = (ids l).terminal ∨ Before log ((ids l).get place) (ids l).terminal := by
  have hbarrier : (ids l).barrier = (ids l).terminal ∨
      Before log (ids l).barrier (ids l).terminal := h.terminal.imp_right .single
  cases place with
  | entry =>
    rcases h.barrier with heq | hdep
    · simp only [Ids.get]
      rw [heq]
      exact hbarrier
    · exact Or.inr (Follows.before (.single hdep) h.terminal)
  | barrier => exact hbarrier
  | terminal => exact Or.inl rfl

/-- Every task of a logical task whose dependencies are recorded. -/
theorem Static.before_terminal (h : Static g log commands ids) (hc : commands[t]? = some c)
    (hlinked : ∀ place, c.before? = some place →
      .dependency t ((ids c.owner).get place) ∈ log) :
    t = (ids c.owner).terminal ∨ Before log t (ids c.owner).terminal := by
  rcases h.kinds t c hc with ⟨kind, place, hkind, -, ht⟩ | ⟨kind, hkind, hcreated⟩
  · rw [ht]
    exact (h.laid _ kind hkind).before_terminal place
  · obtain ⟨place, hplace⟩ := before?_of_createdBy hcreated
    right
    rcases (h.laid _ kind hkind).before_terminal place with heq | hbefore
    · rw [← heq]
      exact .single (hlinked place hplace)
    · exact Relation.TransGen.head (hlinked place hplace) hbefore

/-- What is sent along an edge by a task reaches tasks behind it. -/
theorem Static.before_successor (h : Static g log commands ids) (hwaits : Waits g)
    (hc : commands[t]? = some c)
    (hlinked : ∀ place, c.before? = some place → .dependency t ((ids c.owner).get place) ∈ log)
    {port : ℕ} {x : PortKey} (hx : x ∈ g.successorsOf (c.owner, port))
    {place : PhysicalSuccessor} (hplace : waitPlace g x = some place) :
    Before log t ((ids x.1).get place) := by
  rw [hwaits.delivers, List.mem_map] at hx
  obtain ⟨e, he, rfl⟩ := hx
  rw [List.mem_filter, decide_eq_true_eq] at he
  have hedge := h.edges e he.1
  have hsuccessor := hwaits.places e he.1
  rw [hplace, Option.some.injEq] at hsuccessor
  rw [← hsuccessor, he.2] at hedge
  rcases h.before_terminal hc hlinked with heq | hbefore
  · rw [heq]
    exact .single hedge
  · exact hbefore.tail hedge

end Static

end M3bp.Engine
