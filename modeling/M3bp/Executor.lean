import M3bp.CycleDetection
import M3bp.ExecutionCancellation
import M3bp.ExecutionProgress
import M3bp.WorkerPlacement

/-!
The executor behind a `Context`: what the caller sets, the thread that `execute` starts, and
`wait`. A flow graph with a cycle is refused, so the thread always has one without. The
manager of the localities is what its constructor makes of the configuration. Whatever else
can go wrong in the thread itself, before a worker is started or when the profile is written,
ends the execution with some exception.
-/
namespace M3bp.Executor

open Engine SchedulerCalls Transition WorkerPlacement

variable {O E : Type}

/-- The configuration with the affinity, and the file for the profile, which may be empty. -/
structure Settings extends Configuration where
  affinity : AffinityMode
  profileLog : String

/-- What the thread of one call of `execute` has read of the executor, and what it has built.
The processing units of the nodes are those of `Topology::instance`. -/
structure Job (pu : List ℕ) (O : Type) where
  settings : Settings
  flowGraph : FlowGraph
  acyclic : Acyclic flowGraph.Feeds
  threadObservers : List O
  graph : LogicalGraph
  built : GraphBuilder.buildLogicalGraph settings.toConfiguration flowGraph = .ok graph
  manager : WorkerPlacement.LocalityManager
  constructed : ∃ fuel, construct fuel settings.affinity settings.toConfiguration pu = .ok manager
  locality : M3bp.LocalityManager
  shown : manager.Shows locality

abbrev Job.Run {pu : List ℕ} (E : Type) (job : Job pu O) : Type :=
  Execution.State job.settings.maxConcurrency O E

/-- Where `m_executor_thread` is. It is not joinable when it is `idle`; one that has ended
has not been joined. With the execution that has ended, if there was one, stands what the
thread itself has thrown. -/
inductive Thread (pu : List ℕ) (O E : Type)
  | idle
  | starting
  | running (job : Job pu O) (run : job.Run E)
  | ended (last : Option ((job : Job pu O) × job.Run E)) (failure : Option E)

namespace Thread

variable {pu : List ℕ} {job : Job pu O} {run : job.Run E}
  {last : Option ((job : Job pu O) × job.Run E)} {failure : Option E}

theorem starting_ne_running : Thread.starting ≠ running job run := nofun

theorem starting_ne_ended : Thread.starting ≠ ended last failure := nofun

theorem running_ne_idle : running job run ≠ idle := nofun

theorem running_ne_starting : running job run ≠ starting := nofun

theorem running_ne_ended : running job run ≠ ended last failure := nofun

end Thread

structure State (pu : List ℕ) (O E : Type) where
  settings : Settings
  flowGraph : FlowGraph
  acyclic : Acyclic flowGraph.Feeds
  threadObservers : List O
  thread : Thread pu O E
  thrownException : Option E

theorem acyclic_empty : Acyclic FlowGraph.empty.Feeds := by
  rintro u hcycle
  obtain ⟨v, ⟨p, j, hmem⟩, -⟩ := Relation.TransGen.head'_iff.mp hcycle
  simp [FlowGraph.empty, sourcesOf] at hmem

/-- The search of `has_cycle` visits no more vertices than there are. -/
theorem acyclic_of_hasCycle {graph : FlowGraph}
    (h : graph.hasCycle (graph.vertices.length + 1) = some false) : Acyclic graph.Feeds := by
  obtain ⟨found, hfound, hiff⟩ := FlowGraph.hasCycle_spec graph (Nat.lt_succ_self _)
  rw [h] at hfound
  cases hfound
  by_contra hcyclic
  cases hiff.mpr hcyclic

namespace State

variable {pu : List ℕ} (s : State pu O E)

def create (settings : Settings) : State pu O E where
  settings := settings
  flowGraph := FlowGraph.empty
  acyclic := acyclic_empty
  threadObservers := []
  thread := .idle
  thrownException := none

/-- `ContextImpl::set_flow_graph`. -/
def setFlowGraph (graph : FlowGraph) : Except String (State pu O E) :=
  match h : graph.hasCycle (graph.vertices.length + 1) with
  | some false => .ok { s with flowGraph := graph, acyclic := acyclic_of_hasCycle h }
  | _ => .error "A cycle was detected"

def setConfiguration (settings : Settings) : State pu O E :=
  { s with settings := settings }

def addThreadObserver (observer : O) : State pu O E :=
  { s with threadObservers := s.threadObservers ++ [observer] }

def execute : Except String (State pu O E) :=
  match s.thread with
  | .idle => .ok { s with thread := .starting, thrownException := none }
  | _ => .error "Execution thread is already running"

/-- `wait` when the thread has ended: the state, and what is rethrown. -/
def wait : State pu O E × Option E := ({ s with thread := .idle }, s.thrownException)

/-- The thread ends with an exception of its own. -/
def fail (last : Option ((job : Job pu O) × job.Run E)) (eptr : E) : State pu O E :=
  { s with thread := .ended last (some eptr), thrownException := some eptr }

/-- What the thread has read, when the graph and the manager have been built. -/
def job {graph : LogicalGraph} {manager : WorkerPlacement.LocalityManager}
    {locality : M3bp.LocalityManager}
    (built : GraphBuilder.buildLogicalGraph s.settings.toConfiguration s.flowGraph = .ok graph)
    (constructed : ∃ fuel,
      construct fuel s.settings.affinity s.settings.toConfiguration pu = .ok manager)
    (shown : manager.Shows locality) : Job pu O where
  settings := s.settings
  flowGraph := s.flowGraph
  acyclic := s.acyclic
  threadObservers := s.threadObservers
  graph := graph
  built := built
  manager := manager
  constructed := constructed
  locality := locality
  shown := shown

end State

variable {pu : List ℕ}

/-- What the thread does. `ofError` is the exception for an error of `build_logical_graph`. -/
inductive Work (ofError : String → E) (s : State pu O E) : State pu O E → Prop
  | build {graph : LogicalGraph} {manager : WorkerPlacement.LocalityManager}
      {locality : M3bp.LocalityManager} {draws : TaskId → WorkerId}
      (hthread : s.thread = .starting)
      (hbuilt : GraphBuilder.buildLogicalGraph s.settings.toConfiguration s.flowGraph = .ok graph)
      (hconstructed : ∃ fuel,
        construct fuel s.settings.affinity s.settings.toConfiguration pu = .ok manager)
      (hshown : manager.Shows locality) :
      Work ofError s { s with
        thread := .running (s.job hbuilt hconstructed hshown)
          (Execution.start graph locality draws s.threadObservers) }
  | refuse {message : String} (hthread : s.thread = .starting)
      (hfailed : GraphBuilder.buildLogicalGraph s.settings.toConfiguration s.flowGraph =
        .error message) :
      Work ofError s (s.fail none (ofError message))
  | step {job : Job pu O} {run run' : job.Run E} (hthread : s.thread = .running job run)
      (hstep : Execution.Step job.graph job.locality run run') :
      Work ofError s { s with thread := .running job run' }
  | finish {job : Job pu O} {run : job.Run E} {thrown : Option E}
      (hthread : s.thread = .running job run)
      (hfinished : run.threads.executor = .finished thrown) :
      Work ofError s { s with thread := .ended (some ⟨job, run⟩) none, thrownException := thrown }

/-- Other exceptions of the thread: of the set-up, up to the first worker, and of the profile,
which is written when all has gone well. -/
inductive Fails (s : State pu O E) : State pu O E → Prop
  | setUp {eptr : E} (hthread : s.thread = .starting) : Fails s (s.fail none eptr)
  | dump {job : Job pu O} {run : job.Run E} {eptr : E} (hthread : s.thread = .running job run)
      (hfinished : run.threads.executor = .finished none) (hprofile : job.settings.profileLog ≠ "") :
      Fails s (s.fail (some ⟨job, run⟩) eptr)

/-- The calls of the API that do not throw, and the thread. -/
inductive Step (ofError : String → E) (s : State pu O E) : State pu O E → Prop
  | setFlowGraph {graph : FlowGraph} {s' : State pu O E} (h : s.setFlowGraph graph = .ok s') :
      Step ofError s s'
  | setConfiguration (settings : Settings) : Step ofError s (s.setConfiguration settings)
  | addThreadObserver (observer : O) : Step ofError s (s.addThreadObserver observer)
  | execute {s' : State pu O E} (h : s.execute = .ok s') : Step ofError s s'
  | wait {last : Option ((job : Job pu O) × job.Run E)} {failure : Option E}
      (hthread : s.thread = .ended last failure) : Step ofError s s.wait.1
  | work {s' : State pu O E} (h : Work ofError s s') : Step ofError s s'
  | fails {s' : State pu O E} (h : Fails s s') : Step ofError s s'

def Reached (ofError : String → E) : State pu O E → Prop :=
  Reachable (fun s => ∃ settings, s = State.create settings) (Step ofError)

/-- What is known of the thread's execution. -/
def Known (thrown : Option E) : Thread pu O E → Prop
  | .idle | .starting => True
  | .running job run => Execution.Reached job.graph job.locality job.threadObservers run
  | .ended none failure => failure ≠ none ∧ thrown = failure
  | .ended (some ⟨job, run⟩) failure =>
    Execution.Reached job.graph job.locality job.threadObservers run ∧
      (failure = none ∧ run.threads.executor = .finished thrown ∨
        failure ≠ none ∧ thrown = failure ∧ run.threads.executor = .finished none)

section Runs

variable {ofError : String → E} {s s' : State pu O E} {job : Job pu O} {run : job.Run E}

theorem known_work (h : Known s.thrownException s.thread) (hwork : Work ofError s s') :
    Known s'.thrownException s'.thread := by
  cases hwork with
  | build hthread hbuilt => exact .start ⟨_, rfl⟩
  | refuse hthread hfailed => exact ⟨nofun, rfl⟩
  | step hthread hstep =>
    rw [hthread] at h
    exact .next h hstep
  | finish hthread hfinished =>
    rw [hthread] at h
    exact ⟨h, Or.inl ⟨rfl, hfinished⟩⟩

theorem known_reached (hs : Reached ofError s) : Known s.thrownException s.thread := by
  induction hs with
  | start hinit =>
    obtain ⟨settings, rfl⟩ := hinit
    trivial
  | @next s s' _ hstep h =>
    cases hstep with
    | @setFlowGraph graph _ hset =>
      unfold State.setFlowGraph at hset
      split at hset
      · cases hset
        exact h
      · cases hset
    | setConfiguration settings => exact h
    | addThreadObserver observer => exact h
    | execute hexecute =>
      unfold State.execute at hexecute
      split at hexecute
      · cases hexecute
        trivial
      · cases hexecute
    | wait hthread => trivial
    | work hwork => exact known_work h hwork
    | fails hfails =>
      cases hfails with
      | setUp hthread => exact ⟨nofun, rfl⟩
      | dump hthread hfinished hprofile =>
        rw [hthread] at h
        exact ⟨h, Or.inr ⟨nofun, rfl, hfinished⟩⟩

/-- Every execution of the graph is one of the thread that `execute` starts. -/
theorem reached_of_execution (hs : Reached ofError s) (hthread : s.thread = .starting)
    {graph : LogicalGraph} {manager : WorkerPlacement.LocalityManager}
    {locality : M3bp.LocalityManager}
    (hbuilt : GraphBuilder.buildLogicalGraph s.settings.toConfiguration s.flowGraph = .ok graph)
    (hconstructed : ∃ fuel,
      construct fuel s.settings.affinity s.settings.toConfiguration pu = .ok manager)
    (hshown : manager.Shows locality)
    {run : Execution.State s.settings.maxConcurrency O E}
    (hrun : Execution.Reached graph locality s.threadObservers run) :
    Reached ofError { s with thread := .running (s.job hbuilt hconstructed hshown) run } := by
  induction hrun with
  | start hinit =>
    obtain ⟨draws, rfl⟩ := hinit
    exact hs.next (.work (.build hthread hbuilt hconstructed hshown))
  | next _ hstep ih => exact ih.next (.work (.step rfl hstep))

/-- What callbacks of the threads have thrown. -/
def Thread.thrown : Thread pu O E → Set E
  | .running _ run | .ended (some ⟨_, run⟩) _ =>
    {eptr | ∃ w, ∃ c ∈ (run.threads.workers w).calls, c.thrown = some eptr}
  | _ => ∅

/-- Until an execution has ended its thread can go on, whatever else is called, and nothing
needs to throw. -/
theorem busy_never_stuck (hs : Reached ofError s)
    (hreturns : s.thread = .starting →
      Returns s.settings.affinity s.settings.toConfiguration pu)
    (hgraph : ∀ job (run : job.Run E), s.thread = .running job run →
      job.flowGraph.DefinedMovements ∧
        ∀ v ∈ job.flowGraph.vertices, UInt64.ofNat v.processor.maxConcurrency ≠ 0)
    (hbusy : s.thread ≠ .idle) (hended : ∀ last failure, s.thread ≠ .ended last failure) :
    ∃ s', Work ofError s s' ∧ s'.thread.thrown ⊆ s.thread.thrown := by
  have hknown := known_reached hs
  cases hthread : s.thread with
  | idle => exact absurd hthread hbusy
  | ended last failure => exact absurd hthread (hended last failure)
  | starting =>
    cases hbuild : GraphBuilder.buildLogicalGraph s.settings.toConfiguration s.flowGraph with
    | error message => exact ⟨_, .refuse hthread hbuild, Set.Subset.rfl⟩
    | ok graph =>
      obtain ⟨fuel, manager, locality, hconstruct, hshown⟩ := exists_view (hreturns hthread)
      have hwork : Work ofError s { s with
          thread := .running (s.job hbuild ⟨fuel, hconstruct⟩ hshown)
            (Execution.start graph locality (fun _ => 0) s.threadObservers) } :=
        .build hthread hbuild ⟨fuel, hconstruct⟩ hshown
      refine ⟨_, hwork, ?_⟩
      rintro eptr ⟨w, c, hc, -⟩
      cases hc
  | running job run =>
    rw [hthread] at hknown
    obtain ⟨hmovements, hlimits⟩ := hgraph job run hthread
    by_cases hfinished : ∃ thrown, run.threads.executor = .finished thrown
    · obtain ⟨thrown, hfinished⟩ := hfinished
      exact ⟨_, .finish hthread hfinished, Set.Subset.rfl⟩
    · obtain ⟨run', hstep, hquiet⟩ := Execution.exists_step job.acyclic hmovements hlimits
        job.built hknown fun thrown hthrown => hfinished ⟨thrown, hthrown⟩
      refine ⟨_, .step hthread hstep, ?_⟩
      rintro eptr ⟨w, c, hc, hthrown⟩
      rcases hquiet w c hc with hold | hnone
      · exact ⟨w, c, hold, hthrown⟩
      · rw [hnone] at hthrown
        cases hthrown

/-- What `wait` does. The exception that it rethrows has been thrown by a callback of a worker
or by the thread itself; where it is none of a callback, no callback has thrown and everything
that was started has been executed. -/
theorem wait_outcome (hs : Reached ofError s) {last : Option ((job : Job pu O) × job.Run E)}
    {failure : Option E} (hthread : s.thread = .ended last failure)
    (hmovements : ∀ job run, last = some ⟨job, run⟩ → job.flowGraph.DefinedMovements) :
    (∀ eptr, s.wait.2 = some eptr → eptr ∈ s.thread.thrown ∨ failure = some eptr) ∧
      (s.wait.2 = none ∨ failure ≠ none → s.thread.thrown = ∅ ∧ ∀ job run,
        last = some ⟨job, run⟩ → 0 < job.settings.maxConcurrency → Done job.graph run.engine) ∧
      (s.wait.2 = none → failure = none ∧ last ≠ none) := by
  have hknown := known_reached hs
  rw [hthread] at hknown ⊢
  cases last with
  | none =>
    obtain ⟨hfailure, hthrown⟩ := hknown
    exact ⟨fun eptr heptr => Or.inr (hthrown.symm.trans heptr),
      fun _ => ⟨rfl, fun _ _ hsome => absurd hsome.symm (Option.some_ne_none _)⟩,
      fun hnone => absurd (hthrown.symm.trans hnone) hfailure⟩
  | some last =>
    obtain ⟨job, run⟩ := last
    obtain ⟨hreached, hend⟩ := hknown
    have hwaits := (shape_of_build job.built job.acyclic (hmovements job run rfl)).waits
    have hquiet : run.threads.executor = .finished none →
        Thread.thrown (.ended (some ⟨job, run⟩) failure) = ∅ ∧ ∀ job' run',
          some (⟨job, run⟩ : (job : Job pu O) × job.Run E) = some ⟨job', run'⟩ →
            0 < job'.settings.maxConcurrency → Done job'.graph run'.engine := by
      intro hfinished
      obtain ⟨hnone, -, hdone⟩ := Execution.outcome_of_finished hwaits hreached hfinished
      refine ⟨Set.eq_empty_of_forall_notMem ?_, ?_⟩
      · rintro eptr ⟨w, c, hc, hthrown⟩
        rw [hnone.mp rfl w c hc] at hthrown
        cases hthrown
      · rintro job' run' ⟨⟩ hn
        exact (hdone rfl hn).2
    rcases hend with ⟨hfailure, hfinished⟩ | ⟨hfailure, hthrown, hfinished⟩
    · obtain ⟨-, hcaused, -⟩ := Execution.outcome_of_finished hwaits hreached hfinished
      refine ⟨fun eptr heptr => Or.inl (hcaused eptr heptr), fun hor => hquiet ?_,
        fun _ => ⟨hfailure, nofun⟩⟩
      rw [hfinished]
      exact congrArg _ (hor.resolve_right fun hne => hne hfailure)
    · exact ⟨fun eptr heptr => Or.inr (hthrown.symm.trans heptr), fun _ => hquiet hfinished,
        fun hnone => absurd (hthrown.symm.trans hnone) hfailure⟩

/-! The pipe as a job, and the execution of it in which 7 is thrown. -/

def readyState : State [1] ℕ ℕ where
  settings := { maxConcurrency := 1, partitionCount := 1, affinity := .compact, profileLog := "" }
  flowGraph := pipe
  acyclic := acyclic_pipe
  threadObservers := [5]
  thread := .starting
  thrownException := none

theorem reached_readyState : Reached (fun _ => 0) readyState := by
  let s₀ : State [1] ℕ ℕ := State.create readyState.settings
  have hset : s₀.setFlowGraph pipe = .ok { s₀ with flowGraph := pipe, acyclic := acyclic_pipe } := by
    have hcycle : pipe.hasCycle (pipe.vertices.length + 1) = some false := by decide
    unfold State.setFlowGraph
    split
    · rfl
    · next hno => exact absurd hcycle hno
  have hadded : Reached (fun _ => 0) (State.addThreadObserver
      { s₀ with flowGraph := pipe, acyclic := acyclic_pipe } 5) :=
    .next (.next (.start ⟨_, rfl⟩) (.setFlowGraph hset)) (.addThreadObserver 5)
  exact hadded.next (.execute rfl)

/-- The one worker on the one node. -/
def readyManager : WorkerPlacement.LocalityManager :=
  { maxConcurrency := 1, numaNodeCount := 1, threadMapping := [0], partitionMapping := [0]
    nodeToWorker := [[0]] }

theorem constructed_readyManager : ∃ fuel, construct fuel readyState.settings.affinity
    readyState.settings.toConfiguration [1] = .ok readyManager :=
  ⟨1, rfl⟩

theorem shown_readyManager : readyManager.Shows .default where
  maxConcurrency := rfl
  nodeCount := rfl
  threadMapping w hw := by
    obtain rfl := Nat.lt_one_iff.mp hw
    rfl

/-- The executions of the pipe are executions of this executor. -/
theorem reached_running {run : Execution.State 1 ℕ ℕ}
    (hrun : Execution.Reached pipeGraph .default [5] run) :
    Reached (fun _ => 0) { readyState with
      thread := .running (readyState.job build_pipe constructed_readyManager
        shown_readyManager) run } :=
  reached_of_execution reached_readyState rfl build_pipe constructed_readyManager
    shown_readyManager hrun

theorem busy_never_stuck_pipe : (∃ s', Work (fun _ => 0) readyState s') ∧
    ∃ s s' : State [1] ℕ ℕ, (∃ job run, s.thread = .running job run) ∧
      Work (fun _ => 0) s s' ∧ s'.thread.thrown ⊆ s.thread.thrown := by
  have hlimits : ∀ v ∈ pipe.vertices, UInt64.ofNat v.processor.maxConcurrency ≠ 0 := by
    rw [vertices_pipe]
    decide
  have hreturns : Returns .compact readyState.settings.toConfiguration [1] :=
    Or.inr ⟨by decide, by decide, Or.inl rfl⟩
  obtain ⟨started, hstart, -⟩ := busy_never_stuck reached_readyState (fun _ => hreturns)
    (fun _ _ h => absurd h Thread.starting_ne_running) nofun
    fun _ _ => Thread.starting_ne_ended
  obtain ⟨run, hrun, -⟩ := Execution.exists_cancelled
  obtain ⟨s', hwork, hthrown⟩ := busy_never_stuck (reached_running hrun)
    (fun h => absurd h Thread.running_ne_starting) (by
      rintro job run' ⟨⟩
      exact ⟨definedMovements_pipe, hlimits⟩)
    Thread.running_ne_idle fun _ _ => Thread.running_ne_ended
  exact ⟨⟨started, hstart⟩, _, s', ⟨_, _, rfl⟩, hwork, hthrown⟩

theorem wait_outcome_pipe : ∃ s : State [1] ℕ ℕ, Reached (fun _ => 0) s ∧ s.wait.2 = some 7 ∧
    7 ∈ s.thread.thrown := by
  obtain ⟨run, hrun, hfinished, -⟩ := Execution.exists_throwing
  have hended := (reached_running hrun).next (.work (.finish rfl hfinished))
  refine ⟨_, hended, rfl, ?_⟩
  have houtcome := (wait_outcome hended rfl ?_).1 7 rfl
  · exact houtcome.resolve_right nofun
  · rintro job run ⟨⟩
    exact definedMovements_pipe

end Runs

end M3bp.Executor
