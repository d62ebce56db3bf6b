import M3bp.EngineSetup
import M3bp.GraphMeaning

/-!
Runs that can be evaluated. A move says which worker goes on and what its callback
does; the random choices of the engine are made in a fixed way. A replay of moves
from the set-up is a run.
-/
namespace M3bp.Engine

open SchedulerCalls Transition

variable {n : ℕ}

/-- An option that the task may be created with. -/
def Command.plainOption : Command → LocalityOption
  | threadLocalFinalize _ worker => { recommendedWorker := worker, isStealable := false }
  | _ => {}

theorem Command.allows_plainOption (c : Command) : c.Allows c.plainOption := by
  cases c <;> rfl

inductive Move (n : ℕ)
  | take (w : Fin n)
  | steal (w : Fin n) (node : NodeId)
  | work (w : Fin n)
  | allocate (w : Fin n) (size : ℕ)
  | flush (w : Fin n) (port recordCount : ℕ) (o : Object)
  deriving Repr

variable (g : LogicalGraph) (lm : LocalityManager)

def plainChoice : Op → Choice
  | .spawn c => { size := 0, option := c.plainOption }
  | _ => { size := 0, option := {} }

/-- The worker goes on; a callback in progress returns. -/
def State.work? (s : State n) (w : Fin n) : Option (State n) :=
  match s.system.calls (some w) with
  | .committing t => some { s with system := s.system.commitDecrement lm 0 (some w) t }
  | .draining t (x :: rest) => some { s with system := s.system.drain lm 0 (some w) t x rest }
  | .draining t [] =>
    some { s.setActivity w .idle with system := s.system.finishCompletion (some w) t }
  | .idle =>
    match (s.workers w).activity, (s.workers w).program with
    | .running t, [] => some (s.complete w t)
    | .running _, op :: rest => some (s.apply w rest (effect g s (plainChoice op) w op))
    | _, _ => none

/-- The worker goes on inside its callback. -/
def State.inCallback? (s : State n) (w : Fin n) (e : ℕ → Callback → Option Effect) :
    Option (State n) :=
  match s.system.calls (some w), (s.workers w).activity, (s.workers w).program with
  | .idle, .running _, .inCallback l callback :: rest => (e l callback).map (s.apply w rest)
  | _, _, _ => none

def State.move? (s : State n) : Move n → Option (State n)
  | .take w =>
    if (s.workers w).activity = .idle then
      (s.system.scheduler.popFront (.unstealable w)).map fun (t, scheduler) => s.take w t scheduler
    else none
  | .steal w node =>
    if (s.workers w).activity = .idle ∧ node < lm.nodeCount then
      (s.system.scheduler.popFront (.stealable node)).map fun (t, scheduler) => s.take w t scheduler
    else none
  | .work w => s.work? g lm w
  | .allocate w size =>
    s.inCallback? w fun l callback =>
      some
        { next := [.inCallback l callback]
          buffers := some ((s.workers w).buffers ++ [s.nextObject])
          allocated := [size] }
  | .flush w port recordCount o =>
    s.inCallback? w fun l callback =>
      if port < outputPortCount g l ∧ o ∈ (s.workers w).buffers then
        some
          { next := (if 0 < recordCount then commitFragment g (l, port) 0 o else []) ++
              [.inCallback l callback]
            buffers := some ((s.workers w).buffers.erase o)
            notes := if 0 < recordCount then [.flushed (l, port) o] else [] }
      else none

variable {g lm} {s s' : State n}

theorem step_of_work? {w : Fin n} (h : s.work? g lm w = some s') : Step g lm s s' := by
  unfold State.work? at h
  split at h
  · next t hcall =>
    cases h
    exact .commitDecrement hcall
  · next t x rest hcall =>
    cases h
    exact .drain hcall
  · next t hcall =>
    cases h
    exact .finish hcall
  · next hcall =>
    split at h
    · next t hrunning hprogram =>
      cases h
      exact .complete hrunning hcall hprogram
    · next t op rest hrunning hprogram =>
      cases h
      refine .perform hrunning hcall hprogram (.step op (plainChoice op) ?_)
      rintro c rfl
      exact c.allows_plainOption
    · cases h

theorem step_of_inCallback? {w : Fin n} {e : ℕ → Callback → Option Effect}
    (h : s.inCallback? w e = some s')
    (he : ∀ l callback x, e l callback = some x → Performs g s w (.inCallback l callback) x) :
    Step g lm s s' := by
  unfold State.inCallback? at h
  split at h
  · next t l callback rest hcall hrunning hprogram =>
    obtain ⟨x, hx, rfl⟩ := Option.map_eq_some_iff.mp h
    exact .perform hrunning hcall hprogram (he l callback x hx)
  · cases h

theorem step_of_move? {move : Move n} (h : s.move? g lm move = some s') : Step g lm s s' := by
  cases move with
  | take w =>
    simp only [State.move?] at h
    split at h
    · next hidle =>
      obtain ⟨⟨t, scheduler⟩, hpop, rfl⟩ := Option.map_eq_some_iff.mp h
      exact .take hidle (.unstealable hpop)
    · cases h
  | steal w node =>
    simp only [State.move?] at h
    split at h
    · next hidle =>
      obtain ⟨⟨t, scheduler⟩, hpop, rfl⟩ := Option.map_eq_some_iff.mp h
      exact .take hidle.1 (.steal hidle.2 hpop)
    · cases h
  | work w => exact step_of_work? h
  | allocate w size =>
    refine step_of_inCallback? h fun l callback x hx => ?_
    cases hx
    exact .allocate l callback size
  | flush w port recordCount o =>
    refine step_of_inCallback? h fun l callback x hx => ?_
    split at hx
    · next hallowed =>
      cases hx
      exact .flush l callback port recordCount o hallowed.1 hallowed.2
    · cases hx

variable (g lm)

/-- The state after the moves, as long as each is possible. -/
def replay? (n : ℕ) (moves : List (Move n)) : Option (State n) :=
  moves.foldlM (fun s move => s.move? g lm move) (State.start g (Plan.setUp g lm fun _ => 0))

variable {g lm}

theorem run_of_replay? {moves : List (Move n)} (h : replay? g lm n moves = some s) :
    Run g lm s := by
  have hrun : ∀ (moves : List (Move n)) (s₀ s : State n), Run g lm s₀ →
      moves.foldlM (fun s move => s.move? g lm move) s₀ = some s → Run g lm s := by
    intro moves
    induction moves with
    | nil =>
      intro s₀ s hrun h
      cases h
      exact hrun
    | cons move moves ih =>
      intro s₀ s hrun h
      rw [List.foldlM_cons] at h
      obtain ⟨s₁, hmove, hrest⟩ := Option.bind_eq_some_iff.mp h
      exact ih s₁ s (hrun.next (step_of_move? hmove)) hrest
  exact hrun moves _ s (.start ⟨_, rfl⟩) h

/-- What a replay ends with is reached by a run. -/
theorem exists_of_replay? {moves : List (Move n)} {p : State n → Bool}
    (h : (replay? g lm n moves).any p = true) : ∃ s, Run g lm s ∧ p s = true := by
  obtain ⟨s, hs, hp⟩ := (Option.any_eq_true _ _).mp h
  exact ⟨s, run_of_replay? hs, hp⟩

/-! A run with one worker, in which one fragment goes along one edge. -/

/-- A processor with one one-to-one port. -/
def copyProcessor : Processor :=
  { inputPorts := [{ name := "in", movement := .oneToOne, valueComparator := none }]
    outputPorts := []
    taskCount := 0
    maxConcurrency := 1
    consistent := Processor.consistent_oneToOne "in" }

def pipe : FlowGraph :=
  FlowGraph.build
    [.addVertex "source" sourceProcessor, .addVertex "copy" copyProcessor, .addEdge (0, 0) (1, 0)]

theorem vertices_pipe : pipe.vertices =
    [Vertex.create "source" sourceProcessor,
      (Vertex.create "copy" copyProcessor).addSource 0 (0, 0)] := rfl

theorem acyclic_pipe : Acyclic pipe.Feeds := by
  refine Acyclic.of_rank id ?_
  rintro u v ⟨p, j, hmem⟩
  rw [vertices_pipe] at hmem
  rcases v with _ | _ | v
  · simp [sourcesOf, Vertex.create, sourceProcessor] at hmem
  · rcases j with _ | j
    · have hsource : (u, p) = ((0, 0) : PortKey) := by
        simpa [sourcesOf, Vertex.create, Vertex.addSource, copyProcessor] using hmem
      simp [(Prod.mk.inj hsource).1]
    · simp [sourcesOf, Vertex.create, Vertex.addSource, copyProcessor] at hmem
  · simp [sourcesOf] at hmem

theorem definedMovements_pipe : pipe.DefinedMovements := by
  rintro ⟨i, j⟩ iport hin
  rw [vertices_pipe] at hin
  rcases i with _ | _ | i
  · simp [inputPort?, Vertex.create, sourceProcessor] at hin
  · rcases j with _ | j
    · have hport : _ = iport := Option.some.inj hin
      rw [← hport]
      decide
    · simp [inputPort?, Vertex.create, Vertex.addSource, copyProcessor] at hin
  · simp [inputPort?] at hin

def pipeGraph : LogicalGraph :=
  { tasks :=
      [{ kind := .inputProcess sourceProcessor 1, taskName := "source", successors := [[(1, 0)]] },
        { kind := .oneToOneProcess copyProcessor 1, taskName := "copy", successors := [] }]
    edges := [{ producer := (0, 0), consumer := (1, 0), physicalSuccessor := .barrier }] }

theorem build_pipe : GraphBuilder.buildLogicalGraph { maxConcurrency := 1, partitionCount := 1 } pipe =
    .ok pipeGraph := rfl

def pipeMoves : List (Move 1) :=
  let work (k : ℕ) : List (Move 1) := List.replicate k (.work 0)
  List.flatten
    [[.steal 0 0], work 16, [.steal 0 0], work 9, [.steal 0 0], work 6,
      [.allocate 0 8, .flush 0 0 1 0], work 13, [.steal 0 0], work 12, [.steal 0 0], work 10,
      [.take 0], work 9, [.steal 0 0], work 8, [.steal 0 0], work 10, [.take 0], work 9,
      [.steal 0 0], work 7]

/-- The run executes every task and has allocated one buffer. -/
theorem exists_run_pipe :
    ∃ s : State 1, Run pipeGraph .default s ∧ s.system.scheduler.isFinished = true ∧
      s.objectSizes = [8] := by
  have hreplay : ((replay? pipeGraph .default 1 pipeMoves).any
      fun s => s.system.scheduler.isFinished && s.objectSizes = [8]) = true := by decide +kernel
  obtain ⟨s, hrun, hend⟩ := exists_of_replay? hreplay
  rw [Bool.and_eq_true, decide_eq_true_eq] at hend
  exact ⟨s, hrun, hend⟩

end M3bp.Engine
