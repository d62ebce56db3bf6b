import M3bp.EngineSteps
import Mathlib.Tactic.Linarith

/-!
The invariant of the engine. A worker that runs a task has taken it and not
completed it, and its program fits the task. Every task is committed once: until
then its commit is owed by one operation, or it waits in one gate. A task created
in a run has its dependencies recorded before it is committed.
-/
namespace M3bp.Engine

open Finset SchedulerCalls Transition ProcessGate

variable {n : ℕ}

/-- A quantity of the operations, summed over all programs. -/
def State.inPrograms (s : State n) (f : Op → ℕ) : ℕ := ∑ w, ((s.workers w).program.map f).sum

/-- A quantity of the logical tasks, summed over them. -/
def State.inLocals (g : LogicalGraph) (s : State n) (f : ℕ → Local → ℕ) : ℕ :=
  ∑ l ∈ range g.tasks.length, f l (s.locals l)

/-- Whether an operation owes the commit of `t`. -/
def Op.owesCommit (t : TaskId) : Op → ℕ
  | .link t' _ _ | .commit t' => if t' = t then 1 else 0
  | _ => 0

def Local.waiting (t : TaskId) (x : Local) : ℕ := x.gate.taskQueue.count t

/-- Whether the commit of `t` has begun, as a number. -/
def called (log : List Event) (t : TaskId) : ℕ := if .commitCalled t ∈ log then 1 else 0

/-- Whether `t` is among the first identifiers, as a number. -/
def issued (count t : ℕ) : ℕ := if t < count then 1 else 0

/-- The commits of `t` that are owed, and those that have begun. -/
def State.commits (g : LogicalGraph) (s : State n) (t : TaskId) : ℕ :=
  s.inPrograms (Op.owesCommit t) + s.inLocals g (fun _ => Local.waiting t) +
    called s.system.log t

structure Inv (g : LogicalGraph) (lm : LocalityManager) (s : State n) : Prop where
  run : SchedulerCalls.Run lm s.system
  length : s.commands.length = s.system.scheduler.createdTaskCount
  static : Static g s.system.log s.commands s.ids
  ordered : ∀ a b, .dependency a b ∈ s.system.log → Ordered g s.commands a b
  executor : s.system.calls none = .idle
  idle : ∀ w, (s.workers w).activity = .idle ∨ (s.workers w).activity = .returned →
    (s.workers w).program = [] ∧ s.system.calls (some w) = .idle
  running : ∀ w t, (s.workers w).activity = .running t →
    .taken t ∈ s.system.log ∧ .completed t ∉ s.system.log ∧
      (∀ u rest, s.system.calls (some w) ≠ .draining u rest) ∧
      ∃ c, s.commands[t]? = some c ∧
        ∀ op ∈ (s.workers w).program, Fits g s.system.log s.commands s.ids t c op
  completing : ∀ w t, (s.workers w).activity = .completing t →
    (s.workers w).program = [] ∧ ∃ rest, s.system.calls (some w) = .draining t rest
  alone : ∀ w w' t, (s.workers w).activity = .running t →
    (s.workers w').activity = .running t → w = w'
  accounted : ∀ t, .taken t ∈ s.system.log →
    .completed t ∈ s.system.log ∨ ∃ w, (s.workers w).activity = .running t
  linked : ∀ t c place, s.commands[t]? = some c → c.before? = some place →
    .dependency t ((s.ids c.owner).get place) ∈ s.system.log ∨
      ∃ w deps, .link t c deps ∈ (s.workers w).program ∧
        (t, (s.ids c.owner).get place) ∈ deps
  commits : ∀ t, s.commits g t = issued s.commands.length t

section Sums

variable {s : State n} {w : Fin n} {op : Op} {rest : List Op}

theorem inPrograms_update (s : State n) (w : Fin n) (worker : Worker) (f : Op → ℕ) :
    ({ s with workers := Function.update s.workers w worker } : State n).inPrograms f +
        ((s.workers w).program.map f).sum =
      s.inPrograms f + (worker.program.map f).sum := by
  have hsum := Counting.sum_univ_add_of_eq_off
    (fun w' => ((Function.update s.workers w worker w').program.map f).sum)
    (fun w' => ((s.workers w').program.map f).sum) w fun w' hw' => by
      simp only [Function.update_of_ne hw']
  simp only [Function.update_self] at hsum
  exact hsum

theorem inPrograms_apply (hprogram : (s.workers w).program = op :: rest) (e : Effect)
    (f : Op → ℕ) :
    (s.apply w rest e).inPrograms f + f op = s.inPrograms f + (e.next.map f).sum := by
  have hsum := inPrograms_update s w
    { activity := (s.workers w).activity
      program := e.next ++ rest
      held := e.held.getD (s.workers w).held
      buffers := e.buffers.getD (s.workers w).buffers } f
  rw [hprogram] at hsum
  simp only [List.map_cons, List.sum_cons, List.map_append, List.sum_append] at hsum
  have heq : (s.apply w rest e).inPrograms f = ({ s with
      workers := Function.update s.workers w
        { activity := (s.workers w).activity
          program := e.next ++ rest
          held := e.held.getD (s.workers w).held
          buffers := e.buffers.getD (s.workers w).buffers } } : State n).inPrograms f := rfl
  rw [heq]
  omega

theorem mem_program {program : List Op} (hprogram : program = op :: rest) : op ∈ program := by
  rw [hprogram]
  exact List.mem_cons_self

theorem inPrograms_pos {f : Op → ℕ} (hop : op ∈ (s.workers w).program) (hpos : 0 < f op) :
    0 < s.inPrograms f := by
  have hsum : f op ≤ ((s.workers w).program.map f).sum :=
    List.single_le_sum (fun _ _ => Nat.zero_le _) _ (List.mem_map_of_mem hop)
  have hle : ((s.workers w).program.map f).sum ≤ s.inPrograms f :=
    Finset.single_le_sum (f := fun w => ((s.workers w).program.map f).sum)
      (fun _ _ => Nat.zero_le _) (mem_univ w)
  omega

theorem inPrograms_le {f f' : Op → ℕ} (h : ∀ w, ∀ op ∈ (s.workers w).program, f op ≤ f' op) :
    s.inPrograms f ≤ s.inPrograms f' :=
  Finset.sum_le_sum fun w _ => List.sum_le_sum (h w)

/-- A logical task that keeps the quantity. -/
theorem inLocals_apply_same {g : LogicalGraph} {f : ℕ → Local → ℕ} (w : Fin n) (rest : List Op)
    {e : Effect} (h : ∀ l x, e.change = some (l, x) → f l x = f l (s.locals l)) :
    (s.apply w rest e).inLocals g f = s.inLocals g f := by
  refine Finset.sum_congr rfl fun l _ => ?_
  cases hchange : e.change with
  | none => simp [State.apply, hchange]
  | some change =>
    obtain ⟨l', x⟩ := change
    by_cases hl : l = l'
    · subst hl
      simp [State.apply, hchange, h l x hchange]
    · simp [State.apply, hchange, hl]

theorem inLocals_apply {g : LogicalGraph} {f : ℕ → Local → ℕ} (w : Fin n) (rest : List Op)
    {e : Effect} {l : ℕ} {x : Local} (hchange : e.change = some (l, x))
    (hl : l < g.tasks.length) :
    (s.apply w rest e).inLocals g f + f l (s.locals l) = s.inLocals g f + f l x := by
  have hlocals : (s.apply w rest e).locals = Function.update s.locals l x := by
    simp [State.apply, hchange]
  have hsum := Counting.sum_add_of_eq_off (range g.tasks.length)
    (fun l' => f l' (Function.update s.locals l x l')) (fun l' => f l' (s.locals l')) l
    (mem_range.mpr hl) fun l' _ hne => by
      simp only [Function.update_of_ne hne]
  rw [Function.update_self] at hsum
  rw [State.inLocals, State.inLocals, hlocals]
  exact hsum

end Sums

/-! What a call of the scheduler adds to the log. -/

/-- What the caller of the scheduler has to see to. -/
def Action.Valid (s : System (Option (Fin n))) : Action → Prop
  | none | create _ _ => True
  | depend p t => .created p ∈ s.log ∧ .created t ∈ s.log ∧ ¬ Released s.log t
  | commit t => .created t ∈ s.log ∧ .commitCalled t ∉ s.log

/-- The events of an action; an edge out of a completed task is dropped. -/
def Action.events (s : System (Option (Fin n))) : Action → List Event
  | none => []
  | create _ _ => [.created s.nextTask]
  | depend p t => if .completed p ∈ s.log then [] else [.dependency p t]
  | commit t => [.commitCalled t]

/-- The call in which an action leaves the worker. -/
def Action.call : Action → Call
  | commit t => .committing t
  | _ => .idle

section Action

variable {lm : LocalityManager} {s : System (Option (Fin n))} {w : Fin n}

structure Performed (lm : LocalityManager) (s : System (Option (Fin n))) (w : Fin n)
    (a : Action) : Prop where
  run : SchedulerCalls.Run lm (a.perform s w)
  log : (a.perform s w).log = a.events s ++ s.log
  calls : (a.perform s w).calls = Function.update s.calls (some w) a.call
  count : (a.perform s w).scheduler.createdTaskCount =
    s.scheduler.createdTaskCount + a.created.length

theorem performed (hrun : SchedulerCalls.Run lm s) (hidle : s.calls (some w) = .idle) {a : Action}
    (hvalid : a.Valid s) : Performed lm s w a := by
  have hinv := run_inv hrun
  have hsame : s.calls = Function.update s.calls (some w) .idle := by
    rw [← hidle, Function.update_eq_self]
  cases a with
  | none => exact ⟨hrun, rfl, hsame, rfl⟩
  | create option c =>
    exact ⟨hrun.next (.createPhysicalTask s (some w) option hidle), rfl, hsame, rfl⟩
  | commit t =>
    exact ⟨hrun.next (.commitTask s (some w) t hidle hvalid.1 hvalid.2), rfl, rfl, rfl⟩
  | depend p t =>
    obtain ⟨hp, ht, hunreleased⟩ := hvalid
    have hnext := hrun.next (.addDependency s (some w) p t hidle ht hunreleased)
    by_cases hdone : .completed p ∈ s.log
    · have heq := hinv.addDependency_completed t hdone
      refine ⟨hnext, ?_, ?_, ?_⟩
      · simp [Action.perform, Action.events, hdone, heq]
      · simp only [Action.perform, heq]
        exact hsame
      · simp [Action.perform, Action.created, heq]
    · obtain ⟨hlog, hcalls, hcount⟩ := hinv.addDependency_live hp hdone ht hunreleased
      refine ⟨hnext, ?_, ?_, ?_⟩
      · simp [Action.perform, Action.events, hdone, hlog]
      · simp only [Action.perform, hcalls]
        exact hsame
      · simp [Action.perform, Action.created, hcount]

end Action

/-! The operations that call the scheduler. -/

section Perform

variable {g : LogicalGraph} {lm : LocalityManager} {s : State n} {w : Fin n} {t : TaskId}
  {c : Command} {op : Op} {rest : List Op} {e : Effect}

theorem receiveProcessFragment_action (s : State n) (proc : Processor) (x : PortKey) (o : Object)
    {nonBroadcast : Effect} (h : nonBroadcast.action = .none) :
    (receiveProcessFragment s proc x o nonBroadcast).action = .none := by
  unfold receiveProcessFragment
  split
  · rfl
  · exact h

theorem receiveFragment_action (g : LogicalGraph) (s : State n) (x : PortKey) (p : ℕ)
    (o : Object) : (receiveFragment g s x p o).action = .none := by
  unfold receiveFragment
  split
  · exact receiveProcessFragment_action s _ x o rfl
  · exact receiveProcessFragment_action s _ x o rfl
  · exact receiveProcessFragment_action s _ x o rfl
  all_goals rfl

theorem commitTask_action (s : State n) (t : TaskId) (c : Command) :
    (commitTask s t c).action = .none := by
  unfold commitTask
  split <;> rfl

/-- Only three operations call the scheduler. -/
theorem Performs.action (h : Performs g s w op e) :
    e.action = .none ∨
      (∃ c choice, op = .spawn c ∧ c.Allows choice.option ∧ e = effect g s choice w op) ∨
      (∃ t c d deps, op = .link t c (d :: deps) ∧
        e = { action := .depend d.1 d.2, next := [.link t c deps] }) ∨
      ∃ t, op = .commit t ∧ e = { action := .commit t } := by
  cases h with
  | step op choice hoption =>
    cases op with
    | spawn c => exact Or.inr (Or.inl ⟨c, choice, rfl, hoption c rfl, rfl⟩)
    | link t c deps =>
      cases deps with
      | nil => exact Or.inl (commitTask_action s t c)
      | cons d deps => exact Or.inr (Or.inr (Or.inl ⟨t, c, d, deps, rfl, rfl⟩))
    | commit t => exact Or.inr (Or.inr (Or.inr ⟨t, rfl, rfl⟩))
    | deliver x p o => exact Or.inl (receiveFragment_action g s x p o)
    | globalInitialize l | createFinalizer l worker | globalFinalize l | threadLocalInitialize l
    | threadLocalFinalize l | afterGlobalInitialize l =>
      left
      simp only [effect]
      split <;> rfl
    | _ => exact Or.inl rfl
  | _ => exact Or.inl rfl

/-! What the invariant gives an operation. -/

theorem Inv.created_iff (h : Inv g lm s) (t : TaskId) :
    .created t ∈ s.system.log ↔ t < s.commands.length := by
  rw [h.length]
  exact (run_inv h.run).log.created_iff t

theorem Inv.uncalled_of_owed (h : Inv g lm s) (hop : op ∈ (s.workers w).program)
    (howed : 0 < op.owesCommit t) : .commitCalled t ∉ s.system.log ∧ t < s.commands.length := by
  have hpos := inPrograms_pos (f := Op.owesCommit t) hop howed
  have hcommits := h.commits t
  unfold State.commits at hcommits
  constructor
  · intro hcalled
    rw [called, if_pos hcalled] at hcommits
    unfold issued at hcommits
    split at hcommits <;> omega
  · by_contra hlt
    rw [issued, if_neg hlt] at hcommits
    omega

/-- Once its commit has begun, the dependencies of a task are recorded. -/
theorem Inv.linked_of_called (h : Inv g lm s) (hc : s.commands[t]? = some c)
    (hcalled : .commitCalled t ∈ s.system.log) (place : PhysicalSuccessor)
    (hplace : c.before? = some place) :
    .dependency t ((s.ids c.owner).get place) ∈ s.system.log := by
  rcases h.linked t c place hc hplace with hdep | ⟨w, deps, hop, -⟩
  · exact hdep
  · exact absurd hcalled (h.uncalled_of_owed hop (by simp [Op.owesCommit])).1

theorem Inv.running_called (h : Inv g lm s) (hrunning : (s.workers w).activity = .running t) :
    .commitCalled t ∈ s.system.log := by
  have hinv := run_inv h.run
  exact hinv.taken_called (h.running w t hrunning).1

/-- What a running task comes before is not released. -/
theorem Inv.unreleased (h : Inv g lm s) (hrunning : (s.workers w).activity = .running t)
    {b : TaskId} (hbefore : Before s.system.log t b) : ¬ Released s.system.log b :=
  (run_inv h.run).unreleased_of_before hbefore (h.running w t hrunning).2.1

theorem Inv.running_fits (h : Inv g lm s) (hrunning : (s.workers w).activity = .running t)
    (hop : op ∈ (s.workers w).program) :
    ∃ c, s.commands[t]? = some c ∧ Fits g s.system.log s.commands s.ids t c op := by
  obtain ⟨-, -, -, c, hc, hfits⟩ := h.running w t hrunning
  exact ⟨c, hc, hfits op hop⟩

theorem mem_dependencies {ids : Ids} {d : TaskId × TaskId} (h : d ∈ c.dependencies ids t) :
    (∃ place, c.after? = some place ∧ d = (ids.get place, t)) ∨
      ∃ place, c.before? = some place ∧ d = (t, ids.get place) := by
  simp only [Command.dependencies, List.mem_append, List.mem_map, Option.mem_toList] at h
  rcases h with ⟨place, hplace, rfl⟩ | ⟨place, hplace, rfl⟩
  · exact Or.inl ⟨place, hplace, rfl⟩
  · exact Or.inr ⟨place, hplace, rfl⟩

theorem Inv.fixed_created (h : Inv g lm s) {l : ℕ} {kind : TaskKind} (hkind : g.kindOf l = some kind)
    (place : PhysicalSuccessor) : .created ((s.ids l).get place) ∈ s.system.log :=
  (h.created_iff _).mpr (List.getElem?_eq_some_iff.mp
    ((h.static.laid l kind hkind).command place)).1

/-- The calls of the scheduler are those of a permitted caller. -/
theorem Inv.action_valid (h : Inv g lm s) (hrunning : (s.workers w).activity = .running t)
    (hprogram : (s.workers w).program = op :: rest) (heffect : Performs g s w op e) :
    e.action.Valid s.system := by
  have hmem : op ∈ (s.workers w).program := mem_program hprogram
  rcases heffect.action with hnone | ⟨c, choice, rfl, -, rfl⟩ | ⟨t', c', d, deps, rfl, rfl⟩ |
      ⟨t', rfl, rfl⟩
  · rw [hnone]
    trivial
  · trivial
  · obtain ⟨c, -, hc', ⟨kind, hkind, -⟩, hbefore, hdeps⟩ := h.running_fits hrunning hmem
    obtain ⟨huncalled, hlt⟩ := h.uncalled_of_owed (t := t') hmem (by simp [Op.owesCommit])
    have hcreated := (h.created_iff t').mpr hlt
    rcases mem_dependencies (hdeps List.mem_cons_self) with ⟨place, -, rfl⟩ | ⟨place, hplace, rfl⟩
    · exact ⟨h.fixed_created hkind place, hcreated,
        (run_inv h.run).unreleased_of_uncalled huncalled⟩
    · exact ⟨hcreated, h.fixed_created hkind place, h.unreleased hrunning (hbefore place hplace)⟩
  · obtain ⟨huncalled, hlt⟩ := h.uncalled_of_owed (t := t') hmem (by simp [Op.owesCommit])
    exact ⟨(h.created_iff t').mpr hlt, huncalled⟩

/-! Which task a fixed command belongs to. -/

theorem place_of_globalInitialize {kind : TaskKind} {l l' : ℕ} {place : PhysicalSuccessor}
    (h : .globalInitialize l' = commandAt kind l place) :
    kind.isIntermediate = false ∧ place = .entry := by
  cases kind <;> cases place <;> simp [commandAt, TaskKind.isIntermediate] at *

theorem place_of_processBarrier {kind : TaskKind} {l l' : ℕ} {place : PhysicalSuccessor}
    (h : .processBarrier l' = commandAt kind l place) :
    kind.isIntermediate = false ∧ place = .barrier := by
  cases kind <;> cases place <;> simp [commandAt, TaskKind.isIntermediate] at *

theorem place_of_globalFinalize {kind : TaskKind} {l l' : ℕ} {place : PhysicalSuccessor}
    (h : .globalFinalize l' = commandAt kind l place) :
    kind.isIntermediate = false ∧ place = .terminal := by
  cases kind <;> cases place <;> simp [commandAt, TaskKind.isIntermediate] at *

theorem place_of_shuffleBarrier {kind : TaskKind} {l l' : ℕ} {place : PhysicalSuccessor}
    (h : .shuffleBarrier l' = commandAt kind l place) :
    (∃ count, kind = .shuffle count) ∧ place = .barrier := by
  cases kind <;> cases place <;> simp [commandAt] at *

theorem kind_of_gather {kind : TaskKind} {l l' : ℕ} {place : PhysicalSuccessor}
    (h : .gather l' = commandAt kind l place) : kind = .gather := by
  cases kind <;> cases place <;> simp [commandAt] at *

theorem process_distinct {kind : TaskKind} (h : kind.isIntermediate = false) (l : ℕ) :
    commandAt kind l .entry ≠ commandAt kind l .barrier ∧
      commandAt kind l .barrier ≠ commandAt kind l .terminal := by
  cases kind <;> simp [commandAt, TaskKind.isIntermediate] at *

/-- The tasks that a process creates from its entry task. -/
theorem Inv.before_barrier_of_entry (h : Inv g lm s) {l : ℕ}
    (hc : s.commands[t]? = some (.globalInitialize l)) :
    Before s.system.log t (s.ids l).barrier := by
  obtain ⟨kind, place, hkind, hcommand, ht⟩ := h.static.fixed hc fun kind => by cases kind <;> rfl
  obtain ⟨hprocess, rfl⟩ := place_of_globalInitialize hcommand
  rw [ht]
  exact .single ((h.static.laid l kind hkind).dependency_barrier (process_distinct hprocess l).1)

/-- The tasks that a process creates from its barrier. -/
theorem Inv.before_terminal_of_barrier (h : Inv g lm s) {l : ℕ}
    (hc : s.commands[t]? = some (.processBarrier l)) :
    (∃ kind, g.kindOf l = some kind ∧ kind.isIntermediate = false) ∧
      Before s.system.log t (s.ids l).terminal := by
  obtain ⟨kind, place, hkind, hcommand, ht⟩ := h.static.fixed hc fun kind => by cases kind <;> rfl
  obtain ⟨hprocess, rfl⟩ := place_of_processBarrier hcommand
  refine ⟨⟨kind, hkind, hprocess⟩, ?_⟩
  rw [ht]
  exact .single ((h.static.laid l kind hkind).dependency_terminal (process_distinct hprocess l).2)

/-- The tasks that a shuffle creates from its barrier. -/
theorem Inv.before_terminal_of_shuffleBarrier (h : Inv g lm s) {l : ℕ}
    (hc : s.commands[t]? = some (.shuffleBarrier l)) :
    (∃ count, g.kindOf l = some (.shuffle count)) ∧ Before s.system.log t (s.ids l).terminal := by
  obtain ⟨kind, place, hkind, hcommand, ht⟩ := h.static.fixed hc fun kind => by cases kind <;> rfl
  obtain ⟨⟨count, rfl⟩, rfl⟩ := place_of_shuffleBarrier hcommand
  refine ⟨⟨count, hkind⟩, ?_⟩
  rw [ht]
  exact .single ((h.static.laid l _ hkind).dependency_terminal (by simp [commandAt]))

/-- What a running task delivers, it delivers in front of tasks behind it. -/
theorem Inv.fits_commitFragment (h : Inv g lm s) (hwaits : Waits g)
    (hrunning : (s.workers w).activity = .running t) (hc : s.commands[t]? = some c)
    (port p : ℕ) (o : Object) :
    ∀ op' ∈ commitFragment g (c.owner, port) p o,
      Fits g s.system.log s.commands s.ids t c op' := by
  intro op' hop'
  obtain ⟨x, hx, rfl⟩ := List.mem_map.mp hop'
  intro place hplace
  exact h.static.before_successor hwaits hc
    (h.linked_of_called hc (h.running_called hrunning)) hx hplace

theorem fits_body (g : LogicalGraph) (s : State n) (log : List Event) (commands : List Command)
    (ids : ℕ → Ids) (t : TaskId) (c : Command) :
    ∀ op ∈ body g s t c, Fits g log commands ids t c op := by
  intro op hop
  cases c with
  | empty l place => simp [body] at hop
  | processBarrier l =>
    obtain ⟨i, -, rfl⟩ := List.mem_map.mp hop
    rfl
  | shuffleBarrier l =>
    simp only [body] at hop
    split at hop
    · rcases List.mem_append.mp hop with hop | hop
      · obtain ⟨i, -, rfl⟩ := List.mem_map.mp hop
        rfl
      · rw [List.mem_singleton.mp hop]
        rfl
    · simp at hop
  | inputRun l i | oneToOneRun l o port | scatterGatherRun l inputs p =>
    simp only [body, List.mem_cons, List.not_mem_nil, or_false] at hop
    rcases hop with rfl | rfl | rfl | rfl
    · exact ⟨rfl, rfl⟩
    · exact rfl
    · trivial
    · exact ⟨rfl, rfl, rfl⟩
  | threadLocalFinalize l worker =>
    simp only [body, List.mem_cons, List.not_mem_nil, or_false] at hop
    rcases hop with rfl | rfl | rfl
    · exact ⟨worker, rfl⟩
    · trivial
    · exact ⟨rfl, rfl, rfl⟩
  | shuffleSort l p sources =>
    rw [List.mem_singleton.mp hop]
    exact ⟨sources, rfl⟩
  | valueSort l o p =>
    rw [List.mem_singleton.mp hop]
    exact ⟨o, rfl⟩
  | globalInitialize l | globalFinalize l | shufflePartition l o | gather l =>
    rw [List.mem_singleton.mp hop]
    exact rfl

theorem fits_receive {x : PortKey} {p : ℕ} {o : Object}
    (hfit : ∀ place, waitPlace g x = some place →
      Before s.system.log t ((s.ids x.1).get place)) :
    ∀ op' ∈ (receiveFragment g s x p o).next,
      Fits g s.system.log s.commands s.ids t c op' := by
  intro op' hop'
  unfold receiveFragment receiveProcessFragment at hop'
  dsimp only at hop'
  split at hop'
  · split at hop' <;> simp at hop'
  · next proc workers hkind =>
    split at hop'
    · simp at hop'
    · next hport =>
      rw [List.mem_singleton.mp hop']
      refine ⟨⟨_, hkind, rfl⟩, fun place hplace => ?_⟩
      cases hplace
      exact hfit .barrier (by simp [waitPlace, hkind, hport])
  · next proc workers count hkind =>
    split at hop'
    · simp at hop'
    · next hport =>
      rw [List.mem_singleton.mp hop']
      exact ⟨⟨proc, workers, count, hkind⟩, hfit .barrier (by simp [waitPlace, hkind, hport])⟩
  · next count hkind =>
    rw [List.mem_singleton.mp hop']
    refine ⟨⟨_, hkind, rfl⟩, fun place hplace => ?_⟩
    cases hplace
    exact hfit .barrier (by simp [waitPlace, hkind])
  · simp at hop'
  · next comparator hkind =>
    rw [List.mem_singleton.mp hop']
    refine ⟨⟨_, hkind, rfl⟩, fun place hplace => ?_⟩
    cases hplace
    exact hfit .terminal (by simp [waitPlace, hkind])
  · simp at hop'

theorem fits_commits {log : List Event} {commands : List Command} {ids : ℕ → Ids}
    (tasks : List TaskId) :
    ∀ op' ∈ tasks.map Op.commit, Fits g log commands ids t c op' := by
  intro op' hop'
  obtain ⟨u, -, rfl⟩ := List.mem_map.mp hop'
  trivial

/-- What an operation leaves to be done fits the same task. -/
theorem Inv.fits_effect (h : Inv g lm s) (hwaits : Waits g)
    (hrunning : (s.workers w).activity = .running t) (hc : s.commands[t]? = some c)
    (hfit : Fits g s.system.log s.commands s.ids t c op) (choice : Choice)
    (hspawn : ∀ c', op ≠ .spawn c') :
    ∀ op' ∈ (effect g s choice w op).next, Fits g s.system.log s.commands s.ids t c op' := by
  intro op' hop'
  cases op with
  | prepare t' c' =>
    obtain ⟨rfl, rfl⟩ := hfit
    exact fits_body g s _ _ _ _ _ op' hop'
  | globalInitialize l =>
    simp only [effect] at hop'
    split at hop'
    · simp at hop'
    · simp only [List.mem_cons, List.not_mem_nil, or_false] at hop'
      subst hfit
      rcases hop' with rfl | rfl | rfl <;> rfl
  | afterGlobalInitialize l =>
    simp only [effect] at hop'
    subst hfit
    split at hop'
    · next proc workers hkind =>
      obtain ⟨i, -, rfl⟩ := List.mem_map.mp hop'
      refine ⟨⟨_, hkind, rfl⟩, fun place hplace => ?_⟩
      cases hplace
      exact h.before_barrier_of_entry hc
    · simp at hop'
  | createFinalizer l worker =>
    simp only [effect] at hop'
    subst hfit
    split at hop'
    · rw [List.mem_singleton.mp hop']
      obtain ⟨⟨kind, hkind, hprocess⟩, hbefore⟩ := h.before_terminal_of_barrier hc
      refine ⟨⟨kind, hkind, ?_⟩, fun place hplace => ?_⟩
      · cases kind <;> first
          | rfl
          | cases hprocess
      · cases hplace
        exact hbefore
    · simp at hop'
  | globalFinalize l =>
    simp only [effect] at hop'
    subst hfit
    split at hop'
    · simp only [List.mem_cons, List.not_mem_nil, or_false] at hop'
      rcases hop' with rfl | rfl <;> rfl
    · simp at hop'
  | threadLocalInitialize l =>
    simp only [effect] at hop'
    split at hop'
    · simp at hop'
    · simp only [List.mem_cons, List.not_mem_nil, or_false] at hop'
      rcases hop' with rfl | rfl
      · exact hfit.1
      · exact hfit
  | threadLocalFinalize l =>
    simp only [effect] at hop'
    obtain ⟨worker, rfl⟩ := hfit
    split at hop'
    · rw [List.mem_singleton.mp hop']
      exact rfl
    · simp at hop'
  | call l callback inputs =>
    rw [List.mem_singleton.mp hop']
    exact hfit
  | notifyCompletion l t' => exact fits_commits _ op' hop'
  | createSortTask l p =>
    rw [List.mem_singleton.mp hop']
    subst hfit
    obtain ⟨⟨count, hkind⟩, hbefore⟩ := h.before_terminal_of_shuffleBarrier hc
    refine ⟨⟨_, hkind, rfl⟩, fun place hplace => ?_⟩
    cases hplace
    exact hbefore
  | sortRecords l p =>
    obtain ⟨sources, rfl⟩ := hfit
    exact h.fits_commitFragment hwaits hrunning hc 0 p s.nextObject op' hop'
  | sortValues l p =>
    obtain ⟨o, rfl⟩ := hfit
    exact h.fits_commitFragment hwaits hrunning hc 0 p s.nextObject op' hop'
  | runGather l inputs =>
    subst hfit
    rcases List.mem_append.mp hop' with hop' | hop'
    · exact h.fits_commitFragment hwaits hrunning hc 0 0 s.nextObject op' hop'
    · rw [List.mem_singleton.mp hop']
      exact rfl
  | deliver x p o => exact fits_receive hfit op' hop'
  | countDown l p =>
    simp only [effect] at hop'
    split at hop'
    · rw [List.mem_singleton.mp hop']
      exact hfit
    · simp at hop'
  | createPartitionRun l p =>
    rw [List.mem_singleton.mp hop']
    obtain ⟨⟨proc, workers, count, hkind⟩, hbefore⟩ := hfit
    refine ⟨⟨_, hkind, rfl⟩, fun place hplace => ?_⟩
    cases hplace
    exact hbefore
  | spawn c' => exact absurd rfl (hspawn c')
  | link t' c' deps =>
    cases deps with
    | nil =>
      simp only [effect, commitTask] at hop'
      split at hop'
      · exact fits_commits _ op' hop'
      · rw [List.mem_singleton.mp hop']
        trivial
    | cons d deps =>
      rw [List.mem_singleton.mp hop']
      obtain ⟨hc', hdynamic, hbefore, hdeps⟩ := hfit
      exact ⟨hc', hdynamic, hbefore, (List.cons_subset.mp hdeps).2⟩
  | markGlobalInitialized l | clearBroadcastInputs l | markThreadLocalInitialized l
  | inCallback l callback | release | partitionFragment l o | clearPartitionedBuffers l
  | clearInputs l | commit t' => simp [effect] at hop'

theorem Inv.fits_performs (h : Inv g lm s) (hwaits : Waits g)
    (hrunning : (s.workers w).activity = .running t) (hc : s.commands[t]? = some c)
    (hfit : Fits g s.system.log s.commands s.ids t c op) (heffect : Performs g s w op e)
    (hspawn : ∀ c', op ≠ .spawn c') :
    ∀ op' ∈ e.next, Fits g s.system.log s.commands s.ids t c op' := by
  cases heffect with
  | step _ choice _ => exact h.fits_effect hwaits hrunning hc hfit choice hspawn
  | allocate l callback size =>
    intro op' hop'
    rw [List.mem_singleton.mp hop']
    exact hfit
  | flush l callback port recordCount o hport hbuffer =>
    intro op' hop'
    have howner : c.owner = l := hfit
    rcases List.mem_append.mp hop' with hop' | hop'
    · split at hop'
      · rw [← howner] at hop'
        exact h.fits_commitFragment hwaits hrunning hc port 0 o op' hop'
      · simp at hop'
    · rw [List.mem_singleton.mp hop']
      exact hfit
  | setTaskCount l count hinput =>
    intro op' hop'
    rw [List.mem_singleton.mp hop']
    exact hfit

/-! The commits that are owed. -/

/-- The operations that take part in committing tasks. -/
def Op.commits : Op → Bool
  | .spawn _ | .link _ _ _ | .commit _ | .notifyCompletion _ _ => true
  | _ => false

def Op.owesNone : Op → Bool
  | .link _ _ _ | .commit _ => false
  | _ => true

/-- An effect that leaves the commits alone. -/
structure Effect.Plain (s : State n) (e : Effect) : Prop where
  next : ∀ op ∈ e.next, op.owesNone = true
  gate : ∀ l x, e.change = some (l, x) → x.gate = (s.locals l).gate

theorem plain_receive (g : LogicalGraph) (s : State n) (x : PortKey) (p : ℕ) (o : Object) :
    (receiveFragment g s x p o).Plain s := by
  unfold receiveFragment receiveProcessFragment
  dsimp only
  split <;> (try split) <;> constructor <;> simp +contextual [Op.owesNone]

theorem plain_body (g : LogicalGraph) (s : State n) (t : TaskId) (c : Command) :
    ∀ op ∈ body g s t c, op.owesNone = true := by
  cases c <;> simp [body, Op.owesNone]
  split <;> simp +contextual [or_imp]

theorem plain_commitFragment (g : LogicalGraph) (x : PortKey) (p : ℕ) (o : Object) :
    ∀ op ∈ commitFragment g x p o, op.owesNone = true := by
  intro op hop
  obtain ⟨y, -, rfl⟩ := List.mem_map.mp hop
  rfl

theorem Performs.plain (h : Performs g s w op e) (hop : op.commits = false) : e.Plain s := by
  cases h with
  | step op choice hoption =>
    cases op with
    | spawn | link | commit | notifyCompletion => cases hop
    | prepare t c => exact ⟨plain_body g s t c, by simp [effect]⟩
    | deliver x p o => exact plain_receive g s x p o
    | sortRecords l p => exact ⟨plain_commitFragment g _ p _, by simp [effect]⟩
    | sortValues l p => exact ⟨plain_commitFragment g _ p _, by simp [effect]⟩
    | runGather l inputs =>
      refine ⟨?_, by simp [effect]⟩
      intro op' hop'
      rcases List.mem_append.mp hop' with hop' | hop'
      · exact plain_commitFragment g _ 0 _ op' hop'
      · rw [List.mem_singleton.mp hop']
        rfl
    | _ =>
      simp only [effect]
      (try split) <;> constructor <;> simp +contextual [Op.owesNone]
  | flush l callback port recordCount o hport hbuffer =>
    refine ⟨?_, by simp⟩
    intro op' hop'
    rcases List.mem_append.mp hop' with hop' | hop'
    · split at hop'
      · exact plain_commitFragment g _ 0 o op' hop'
      · simp at hop'
    · rw [List.mem_singleton.mp hop']
      rfl
  | _ => constructor <;> simp +contextual [Op.owesNone]

theorem owesCommit_eq_zero (u : TaskId) (hop : op.owesNone = true) : op.owesCommit u = 0 := by
  cases op <;> first
    | rfl
    | cases hop

theorem sum_owesCommit_commits (u : TaskId) (tasks : List TaskId) :
    ((tasks.map Op.commit).map (Op.owesCommit u)).sum = tasks.count u := by
  induction tasks with
  | nil => rfl
  | cons t tasks ih =>
    simp only [List.map_cons, List.sum_cons, ih, List.count_cons, Op.owesCommit, beq_iff_eq]
    omega

theorem Static.kind_of_owner {log : List Event} {commands : List Command} {ids : ℕ → Ids}
    (h : Static g log commands ids) (hc : commands[t]? = some c) :
    ∃ kind, g.kindOf c.owner = some kind := by
  rcases h.kinds t c hc with ⟨kind, _, hkind, -⟩ | ⟨kind, hkind, -⟩
  · exact ⟨kind, hkind⟩
  · exact ⟨kind, hkind⟩

theorem called_append {events log : List Event} {u : TaskId} (h : .commitCalled u ∉ events) :
    called (events ++ log) u = called log u := by
  simp [called, h]

theorem called_cons {log : List Event} {t : TaskId} (h : .commitCalled t ∉ log) (u : TaskId) :
    called (.commitCalled t :: log) u = called log u + if t = u then 1 else 0 := by
  unfold called
  by_cases heq : t = u
  · subst heq
    simp [h]
  · have hne : u ≠ t := Ne.symm heq
    simp [heq, hne]

theorem issued_succ (count u : ℕ) :
    issued (count + 1) u = issued count u + if count = u then 1 else 0 := by
  unfold issued
  split_ifs <;> omega

/-- A task through its gate. -/
theorem waiting_commitTask (s : State n) (t u : TaskId) {c : Command}
    (hc : c.isProcessCommand = true) :
    ∃ x, (commitTask s t c).change = some (c.owner, x) ∧
      ((commitTask s t c).next.map (Op.owesCommit u)).sum + x.waiting u =
        (s.locals c.owner).waiting u + if t = u then 1 else 0 := by
  refine ⟨_, by rw [commitTask, if_pos hc], ?_⟩
  simp only [commitTask, if_pos hc]
  rw [sum_owesCommit_commits]
  exact count_commitProcessCommand _ _ _

/-- What is owed for `u` before and after an operation. -/
theorem Inv.commits_balance (h : Inv g lm s) (hrunning : (s.workers w).activity = .running t)
    (hprogram : (s.workers w).program = op :: rest) (heffect : Performs g s w op e) (u : TaskId) :
    (s.apply w rest e).inPrograms (Op.owesCommit u) +
        (s.apply w rest e).inLocals g (fun _ => Local.waiting u) +
        called (e.action.events s.system ++ s.system.log) u +
        issued s.commands.length u =
      s.inPrograms (Op.owesCommit u) + s.inLocals g (fun _ => Local.waiting u) +
        called s.system.log u + issued (s.commands.length + e.action.created.length) u := by
  have hmem : op ∈ (s.workers w).program := mem_program hprogram
  have hprograms := inPrograms_apply hprogram e (Op.owesCommit u)
  obtain ⟨c, hc, hfit⟩ := h.running_fits hrunning hmem
  have hsame : (∀ l x, e.change = some (l, x) → x.gate = (s.locals l).gate) →
      (s.apply w rest e).inLocals g (fun _ => Local.waiting u) =
        s.inLocals g (fun _ => Local.waiting u) := fun hgate =>
    inLocals_apply_same w rest fun l x hx => by simp only [Local.waiting, hgate l x hx]
  by_cases hop : op.commits = true
  · cases heffect with
    | step op choice hoption =>
      cases op with
      | spawn c' =>
        have hlocals := hsame (by simp [effect])
        have hcalled : called (.created s.system.nextTask :: s.system.log) u =
            called s.system.log u := @called_append [_] _ _ (by simp)
        have hnext : s.system.nextTask = s.commands.length := h.length.symm
        have hnew := issued_succ s.commands.length u
        simp only [effect, hnext, List.map_cons, List.map_nil, List.sum_cons, List.sum_nil,
          Op.owesCommit, Action.events, Action.created, List.singleton_append, List.length_cons,
          List.length_nil, Nat.zero_add] at hprograms hlocals hcalled hnew ⊢
        rw [hlocals, hcalled, hnew]
        omega
      | link t' c' deps =>
        obtain ⟨-, ⟨kind, hkind, -⟩, -, -⟩ := hfit
        cases deps with
        | cons d deps =>
          have hlocals := hsame (by simp [effect])
          have hcalled : called ((Action.depend d.1 d.2).events s.system ++ s.system.log) u =
              called s.system.log u := called_append (by
            simp only [Action.events]
            split <;> simp)
          simp only [effect, List.map_cons, List.map_nil, List.sum_cons, List.sum_nil,
            Op.owesCommit, Action.created, List.length_nil, Nat.add_zero] at hprograms hlocals ⊢
          rw [hlocals, hcalled]
          omega
        | nil =>
          have haction := commitTask_action s t' c'
          by_cases hprocess : c'.isProcessCommand = true
          · obtain ⟨x, hchange, hcount⟩ := waiting_commitTask s t' u hprocess
            have hlocals := inLocals_apply (s := s) (f := fun _ => Local.waiting u) w rest hchange
              (g.lt_of_kindOf hkind)
            simp only [effect, Op.owesCommit, haction, Action.events, Action.created,
              List.nil_append, List.length_nil, Nat.add_zero] at hprograms ⊢
            omega
          · have hlocals := hsame (by simp [effect, commitTask, hprocess])
            simp only [effect, Op.owesCommit, haction, Action.events, Action.created,
              List.nil_append, List.length_nil, Nat.add_zero] at hprograms hlocals ⊢
            simp only [commitTask, hprocess, Bool.false_eq_true, if_false, List.map_cons,
              List.map_nil, List.sum_cons, List.sum_nil, Op.owesCommit] at hprograms hlocals ⊢
            omega
      | commit t' =>
        have hlocals := hsame (by simp [effect])
        have hcalled := called_cons (h.uncalled_of_owed (t := t') hmem (by simp [Op.owesCommit])).1 u
        simp only [effect, List.map_nil, List.sum_nil, Op.owesCommit, Action.events,
          Action.created, List.singleton_append, List.length_nil, Nat.add_zero] at hprograms hlocals ⊢
        rw [hlocals, hcalled]
        omega
      | notifyCompletion l t' =>
        obtain ⟨kind, hkind⟩ := h.static.kind_of_owner hc
        rw [hfit.1] at hkind
        have hlocals := inLocals_apply (s := s) (f := fun _ => Local.waiting u)
          (e := effect g s choice w (.notifyCompletion l t')) w rest rfl (g.lt_of_kindOf hkind)
        have hcount := count_notifyCompletion (s.locals l).gate u
        have hsum := sum_owesCommit_commits u (s.locals l).gate.notifyCompletion.2
        simp only [effect, Op.owesCommit, Action.events, Action.created, List.nil_append,
          List.length_nil, Nat.add_zero, Local.waiting] at hprograms hlocals ⊢
        omega
      | _ => cases hop
    | _ => cases hop
  · have hplain := heffect.plain (by simpa using hop)
    have hlocals := hsame hplain.gate
    have hnone : e.action = .none := by
      rcases heffect.action with hnone | ⟨_, _, rfl, -, -⟩ | ⟨_, _, _, _, rfl, -⟩ | ⟨_, rfl, -⟩
      · exact hnone
      all_goals exact absurd rfl hop
    have hnext : (e.next.map (Op.owesCommit u)).sum = 0 :=
      List.sum_eq_zero fun x hx => by
        obtain ⟨op', hop', rfl⟩ := List.mem_map.mp hx
        exact owesCommit_eq_zero u (hplain.next op' hop')
    have howes : op.owesCommit u = 0 := by
      cases op <;> first
        | rfl
        | exact absurd rfl hop
    simp only [hnone, Action.events, Action.created, List.nil_append, List.length_nil,
      Nat.add_zero] at hlocals ⊢
    omega

theorem Inv.commits_apply (h : Inv g lm s) (hrunning : (s.workers w).activity = .running t)
    (hcall : s.system.calls (some w) = .idle)
    (hprogram : (s.workers w).program = op :: rest) (heffect : Performs g s w op e)
    (u : TaskId) :
    (s.apply w rest e).commits g u = issued (s.apply w rest e).commands.length u := by
  have hlog := (performed h.run hcall (h.action_valid hrunning hprogram heffect)).log
  have hbalance := h.commits_balance hrunning hprogram heffect u
  have hbefore : s.inPrograms (Op.owesCommit u) + s.inLocals g (fun _ => Local.waiting u) +
      called s.system.log u = _ := h.commits u
  have hafter : (s.apply w rest e).commits g u =
      (s.apply w rest e).inPrograms (Op.owesCommit u) +
        (s.apply w rest e).inLocals g (fun _ => Local.waiting u) +
        called (e.action.events s.system ++ s.system.log) u := by
    rw [← hlog]
    rfl
  have hlength : (s.apply w rest e).commands.length =
      s.commands.length + e.action.created.length := List.length_append
  rw [hafter, hlength]
  omega

/-! One operation keeps the invariant. -/

@[simp] theorem apply_activity (s : State n) (w : Fin n) (rest : List Op) (e : Effect)
    (w' : Fin n) : ((s.apply w rest e).workers w').activity = (s.workers w').activity := by
  by_cases hw : w' = w
  · subst hw
    simp [State.apply]
  · simp [State.apply, hw]

@[simp] theorem apply_program_self (s : State n) (w : Fin n) (rest : List Op) (e : Effect) :
    ((s.apply w rest e).workers w).program = e.next ++ rest := by
  simp [State.apply]

theorem apply_program_of_ne (s : State n) {w w' : Fin n} (hw : w' ≠ w) (rest : List Op)
    (e : Effect) : ((s.apply w rest e).workers w').program = (s.workers w').program := by
  simp [State.apply, hw]

/-- Tasks created in a run come between those they wait for and those that wait
for them. -/
theorem level_created {kind : TaskKind} (h : c.createdBy kind = true) :
    (∀ place, c.after? = some place → (commandAt kind c.owner place).level < c.level) ∧
      ∀ place, c.before? = some place → c.level < (commandAt kind c.owner place).level := by
  cases c <;> cases kind <;> simp only [Command.createdBy, Bool.false_eq_true] at h <;>
    simp [Command.after?, Command.before?, commandAt, Command.level]

theorem Inv.ordered_dependency (h : Inv g lm s) (hc : s.commands[t]? = some c)
    (hdynamic : Dynamic g c) {d : TaskId × TaskId}
    (hd : d ∈ c.dependencies (s.ids c.owner) t) : Ordered g s.commands d.1 d.2 := by
  obtain ⟨kind, hkind, hcreated⟩ := hdynamic
  have hcommand := (h.static.laid _ kind hkind).command
  obtain ⟨hafter, hbefore⟩ := level_created hcreated
  rcases mem_dependencies hd with ⟨place, hplace, rfl⟩ | ⟨place, hplace, rfl⟩
  · exact ordered_of_level (hcommand place) hc (owner_commandAt _ _ _) (hafter place hplace)
  · exact ordered_of_level hc (hcommand place) (owner_commandAt _ _ _).symm
      (hbefore place hplace)

theorem notMem_events {a : Action} {sys : System (Option (Fin n))} {e : Event}
    (hcreated : ∀ u, e ≠ .created u) (hdependency : ∀ p u, e ≠ .dependency p u)
    (hcalled : ∀ u, e ≠ .commitCalled u) : e ∉ a.events sys := by
  cases a with
  | none => simp [Action.events]
  | create option c => simpa [Action.events] using hcreated _
  | depend p u =>
    simp only [Action.events]
    split
    · simp
    · simpa using hdependency p u
  | commit u => simpa [Action.events] using hcalled u

/-- The operation that has been carried out was the link of `u`. -/
theorem Inv.linked_apply (h : Inv g lm s) (hrunning : (s.workers w).activity = .running t)
    (hcall : s.system.calls (some w) = .idle)
    (hprogram : (s.workers w).program = op :: rest) (heffect : Performs g s w op e)
    {u : TaskId} {c' : Command} {place : PhysicalSuccessor}
    (hc' : (s.apply w rest e).commands[u]? = some c') (hplace : c'.before? = some place) :
    .dependency u ((s.ids c'.owner).get place) ∈ (s.apply w rest e).system.log ∨
      ∃ w' deps, .link u c' deps ∈ ((s.apply w rest e).workers w').program ∧
        (u, (s.ids c'.owner).get place) ∈ deps := by
  have hmem : op ∈ (s.workers w).program := mem_program hprogram
  have hlog : (s.apply w rest e).system.log = e.action.events s.system ++ s.system.log :=
    (performed h.run hcall (h.action_valid hrunning hprogram heffect)).log
  have hcommands : (s.apply w rest e).commands = s.commands ++ e.action.created := rfl
  rw [hcommands] at hc'
  by_cases hu : u < s.commands.length
  · rw [List.getElem?_append_left hu] at hc'
    rcases h.linked u c' place hc' hplace with hdep | ⟨w', deps, hop, hdeps⟩
    · left
      rw [hlog]
      exact List.mem_append_right _ hdep
    · by_cases hw : w' = w
      · subst hw
        rw [hprogram] at hop
        rcases List.mem_cons.mp hop with rfl | hop
        · -- the link itself: its first dependency is recorded now
          rcases heffect.action with hnone | ⟨_, _, heq, -, -⟩ | ⟨u', c'', d, deps', heq, rfl⟩ |
              ⟨_, heq, -⟩
          · cases heffect
            cases deps with
            | nil => cases hdeps
            | cons d deps => cases hnone
          · cases heq
          · cases heq
            rcases List.mem_cons.mp hdeps with rfl | hdeps
            · left
              have huncalled := (h.uncalled_of_owed (t := u) hmem (by simp [Op.owesCommit])).1
              rw [hlog]
              simp [Action.events, (run_inv h.run).live_of_uncalled huncalled]
            · right
              refine ⟨w', deps', ?_, hdeps⟩
              rw [apply_program_self]
              exact List.mem_append_left _ (List.mem_singleton.mpr rfl)
          · cases heq
        · right
          refine ⟨w', deps, ?_, hdeps⟩
          rw [apply_program_self]
          exact List.mem_append_right _ hop
      · right
        refine ⟨w', deps, ?_, hdeps⟩
        rw [apply_program_of_ne s hw]
        exact hop
  · rw [List.getElem?_append_right (Nat.le_of_not_lt hu)] at hc'
    rcases heffect.action with hnone | ⟨c'', choice, rfl, -, rfl⟩ | ⟨_, _, _, _, -, rfl⟩ | ⟨_, -, rfl⟩
    · simp [hnone, Action.created] at hc'
    · obtain ⟨hlt, heq⟩ := List.getElem?_eq_some_iff.mp hc'
      have hlt' : u - s.commands.length < 1 := hlt
      have hle : s.commands.length ≤ u := Nat.le_of_not_lt hu
      have hu' : u = s.system.nextTask := by
        rw [System.nextTask, ← h.length]
        exact Nat.le_antisymm (Nat.le_of_sub_eq_zero (Nat.lt_one_iff.mp hlt')) hle
      have hsame : c'' = c' := by
        simpa [effect, Action.created, Nat.lt_one_iff.mp hlt'] using heq
      subst hsame
      right
      refine ⟨w, c''.dependencies (s.ids c''.owner) u, ?_, ?_⟩
      · rw [apply_program_self, hu']
        exact List.mem_append_left _ (List.mem_singleton.mpr rfl)
      · simp [Command.dependencies, hplace]
    · simp [Action.created] at hc'
    · simp [Action.created] at hc'

theorem Inv.dynamic_created (h : Inv g lm s) (hrunning : (s.workers w).activity = .running t)
    (hprogram : (s.workers w).program = op :: rest) (heffect : Performs g s w op e) :
    ∀ c' ∈ e.action.created, Dynamic g c' := by
  have hmem : op ∈ (s.workers w).program := mem_program hprogram
  intro c' hc'
  rcases heffect.action with hnone | ⟨c'', choice, rfl, -, rfl⟩ | ⟨_, _, _, _, -, rfl⟩ | ⟨_, -, rfl⟩
  · simp [hnone, Action.created] at hc'
  · obtain ⟨c, -, hdynamic, -⟩ := h.running_fits hrunning hmem
    rw [List.mem_singleton.mp hc']
    exact hdynamic
  · simp [Action.created] at hc'
  · simp [Action.created] at hc'

/-- All that is left to be done fits. -/
theorem Inv.fits_apply (h : Inv g lm s) (hwaits : Waits g)
    (hrunning : (s.workers w).activity = .running t)
    (hcall : s.system.calls (some w) = .idle)
    (hprogram : (s.workers w).program = op :: rest) (heffect : Performs g s w op e)
    (hc : s.commands[t]? = some c)
    (hfits : ∀ op' ∈ (s.workers w).program, Fits g s.system.log s.commands s.ids t c op') :
    ∀ op' ∈ e.next ++ rest,
      Fits g (s.apply w rest e).system.log (s.apply w rest e).commands s.ids t c op' := by
  have hmem : op ∈ (s.workers w).program := mem_program hprogram
  have hlog : (s.apply w rest e).system.log = e.action.events s.system ++ s.system.log :=
    (performed h.run hcall (h.action_valid hrunning hprogram heffect)).log
  have hsub : s.system.log ⊆ (s.apply w rest e).system.log := by
    rw [hlog]
    exact List.subset_append_right _ _
  intro op' hop'
  rcases List.mem_append.mp hop' with hop' | hop'
  · by_cases hspawn : ∃ c', op = .spawn c'
    · obtain ⟨c', rfl⟩ := hspawn
      obtain ⟨hdynamic, hbefore⟩ := hfits _ hmem
      rcases heffect.action with hnone | ⟨c'', choice, heq, -, rfl⟩ | ⟨_, _, _, _, heq, -⟩ |
          ⟨_, heq, -⟩
      · cases heffect
        cases hnone
      · cases heq
        rw [List.mem_singleton.mp hop']
        refine ⟨?_, hdynamic, fun place hplace => (hbefore place hplace).mono hsub,
          List.Subset.refl _⟩
        have hnext : s.system.nextTask = s.commands.length := h.length.symm
        simp [State.apply, hnext, Action.created, effect]
      · cases heq
      · cases heq
    · have hfit := h.fits_performs hwaits hrunning hc (hfits op hmem) heffect
        (fun c' heq => hspawn ⟨c', heq⟩) op' hop'
      exact hfit.mono hsub _
  · have hfit := hfits op' (by
      rw [hprogram]
      exact List.mem_cons_of_mem _ hop')
    exact hfit.mono hsub _

theorem Inv.perform (h : Inv g lm s) (hwaits : Waits g)
    (hrunning : (s.workers w).activity = .running t)
    (hcall : s.system.calls (some w) = .idle)
    (hprogram : (s.workers w).program = op :: rest) (heffect : Performs g s w op e) :
    Inv g lm (s.apply w rest e) := by
  have hmem : op ∈ (s.workers w).program := mem_program hprogram
  have hperformed := performed h.run hcall (h.action_valid hrunning hprogram heffect)
  have hlog : (s.apply w rest e).system.log = e.action.events s.system ++ s.system.log :=
    hperformed.log
  have hcalls : (s.apply w rest e).system.calls =
      Function.update s.system.calls (some w) e.action.call := hperformed.calls
  have hsub : s.system.log ⊆ (s.apply w rest e).system.log := by
    rw [hlog]
    exact List.subset_append_right _ _
  have hold : ∀ ev : Event, (∀ u, ev ≠ .created u) → (∀ p u, ev ≠ .dependency p u) →
      (∀ u, ev ≠ .commitCalled u) → (ev ∈ (s.apply w rest e).system.log ↔ ev ∈ s.system.log) := by
    intro ev h₁ h₂ h₃
    rw [hlog, List.mem_append]
    exact or_iff_right (notMem_events h₁ h₂ h₃)
  refine ⟨hperformed.run, ?_, ?_, ?_, ?_, ?_, ?_, ?_, ?_, ?_, ?_, ?_⟩
  · exact (List.length_append.trans (by rw [h.length])).trans hperformed.count.symm
  · exact h.static.mono hsub (h.dynamic_created hrunning hprogram heffect)
  · intro a b hdep
    rw [hlog] at hdep
    rcases List.mem_append.mp hdep with hnew | hdep
    · rcases heffect.action with hnone | ⟨_, _, rfl, -, rfl⟩ | ⟨u, c', d, deps, rfl, rfl⟩ |
          ⟨_, -, rfl⟩
      · simp [hnone, Action.events] at hnew
      · simp [effect, Action.events] at hnew
      · obtain ⟨c, -, hc', hdynamic, -, hdeps⟩ := h.running_fits hrunning hmem
        have hordered := h.ordered_dependency hc' hdynamic (hdeps List.mem_cons_self)
        simp only [Action.events] at hnew
        split at hnew
        · simp at hnew
        · cases List.mem_singleton.mp hnew
          exact hordered.mono _
      · simp [Action.events] at hnew
    · exact (h.ordered a b hdep).mono _
  · rw [hcalls, Function.update_of_ne (by simp)]
    exact h.executor
  · intro w' hidle
    rw [apply_activity] at hidle
    have hw : w' ≠ w := by
      rintro rfl
      rw [hrunning] at hidle
      rcases hidle with hidle | hidle <;> cases hidle
    rw [apply_program_of_ne s hw, hcalls, Function.update_of_ne (by simpa using hw)]
    exact h.idle w' hidle
  · intro w' u hrunning'
    rw [apply_activity] at hrunning'
    obtain ⟨htaken, hlive, hcalls', c, hc, hfits⟩ := h.running w' u hrunning'
    refine ⟨hsub htaken, ?_, ?_, c, getElem?_append_of_some hc _, ?_⟩
    · rw [hold _ (by simp) (by simp) (by simp)]
      exact hlive
    · intro v rest'
      rw [hcalls]
      by_cases hw : w' = w
      · rw [hw, Function.update_self]
        cases e.action <;> simp [Action.call]
      · rw [Function.update_of_ne (by simpa using hw)]
        exact hcalls' v rest'
    · by_cases hw : w' = w
      · subst hw
        rw [hrunning, Activity.running.injEq] at hrunning'
        subst hrunning'
        rw [apply_program_self]
        exact h.fits_apply hwaits hrunning hcall hprogram heffect hc hfits
      · rw [apply_program_of_ne s hw]
        intro op' hop'
        exact (hfits op' hop').mono hsub _
  · intro w' u hcompleting
    rw [apply_activity] at hcompleting
    have hw : w' ≠ w := by
      rintro rfl
      rw [hrunning] at hcompleting
      cases hcompleting
    rw [apply_program_of_ne s hw, hcalls, Function.update_of_ne (by simpa using hw)]
    exact h.completing w' u hcompleting
  · intro w₁ w₂ u h₁ h₂
    rw [apply_activity] at h₁ h₂
    exact h.alone w₁ w₂ u h₁ h₂
  · intro u htaken
    rw [hold _ (by simp) (by simp) (by simp)] at htaken
    rcases h.accounted u htaken with hdone | ⟨w', hw'⟩
    · exact Or.inl (hsub hdone)
    · exact Or.inr ⟨w', by rw [apply_activity]; exact hw'⟩
  · intro u c' place hc' hplace
    exact h.linked_apply hrunning hcall hprogram heffect hc' hplace
  · exact h.commits_apply hrunning hcall hprogram heffect

end Perform

/-! The steps between operations. -/

section Between

variable {g : LogicalGraph} {lm : LocalityManager} {s s' : State n} {w : Fin n} {t : TaskId}

/-- What the workers are doing, apart from how their tasks came to be. -/
structure WorkerInv (g : LogicalGraph) (s : State n) : Prop where
  executor : s.system.calls none = .idle
  idle : ∀ w, (s.workers w).activity = .idle ∨ (s.workers w).activity = .returned →
    (s.workers w).program = [] ∧ s.system.calls (some w) = .idle
  running : ∀ w t, (s.workers w).activity = .running t →
    .taken t ∈ s.system.log ∧ .completed t ∉ s.system.log ∧
      (∀ u rest, s.system.calls (some w) ≠ .draining u rest) ∧
      ∃ c, s.commands[t]? = some c ∧
        ∀ op ∈ (s.workers w).program, Fits g s.system.log s.commands s.ids t c op
  completing : ∀ w t, (s.workers w).activity = .completing t →
    (s.workers w).program = [] ∧ ∃ rest, s.system.calls (some w) = .draining t rest
  alone : ∀ w w' t, (s.workers w).activity = .running t →
    (s.workers w').activity = .running t → w = w'
  accounted : ∀ t, .taken t ∈ s.system.log →
    .completed t ∈ s.system.log ∨ ∃ w, (s.workers w).activity = .running t

/-- A step that neither creates nor links nor commits. -/
theorem Inv.keep (h : Inv g lm s) (hrun : SchedulerCalls.Run lm s'.system)
    (hcount : s'.system.scheduler.createdTaskCount = s.system.scheduler.createdTaskCount)
    (hcommands : s'.commands = s.commands) (hids : s'.ids = s.ids) (hlocals : s'.locals = s.locals)
    (hsub : s.system.log ⊆ s'.system.log)
    (hdep : ∀ p u, .dependency p u ∈ s'.system.log → .dependency p u ∈ s.system.log)
    (hcalled : ∀ u, .commitCalled u ∈ s'.system.log → .commitCalled u ∈ s.system.log)
    (hprograms : ∀ w op, op ∈ (s.workers w).program → op ∈ (s'.workers w).program)
    (howes : ∀ u, s'.inPrograms (Op.owesCommit u) = s.inPrograms (Op.owesCommit u))
    (hworkers : WorkerInv g s') : Inv g lm s' := by
  refine ⟨hrun, ?_, ?_, ?_, hworkers.executor, hworkers.idle, hworkers.running,
    hworkers.completing, hworkers.alone, hworkers.accounted, ?_, ?_⟩
  · rw [hcommands, hcount]
    exact h.length
  · have hmono := @Static.mono _ _ _ _ _ h.static hsub [] (by simp)
    rw [List.append_nil] at hmono
    rw [hcommands, hids]
    exact hmono
  · intro a b hdep'
    rw [hcommands]
    exact h.ordered a b (hdep a b hdep')
  · intro u c place hc hplace
    rw [hcommands] at hc
    rw [hids]
    rcases h.linked u c place hc hplace with hold | ⟨w, deps, hop, hdeps⟩
    · exact Or.inl (hsub hold)
    · exact Or.inr ⟨w, deps, hprograms w _ hop, hdeps⟩
  · intro u
    have hsame : called s'.system.log u = called s.system.log u := by
      unfold called
      rw [if_congr ⟨hcalled u, @hsub _⟩ rfl rfl]
    have hlocal : s'.inLocals g (fun _ => Local.waiting u) =
        s.inLocals g (fun _ => Local.waiting u) := by
      simp only [State.inLocals, hlocals]
    rw [State.commits, hsame, hlocal, howes, hcommands]
    exact h.commits u

/-- A worker that is about to call the scheduler back is running its task. -/
theorem Inv.running_of_committing (h : Inv g lm s)
    (hcall : s.system.calls (some w) = .committing t) :
    ∃ u, (s.workers w).activity = .running u := by
  cases hactivity : (s.workers w).activity with
  | running u => exact ⟨u, rfl⟩
  | idle =>
    have hidle := (h.idle w (Or.inl hactivity)).2
    rw [hcall] at hidle
    cases hidle
  | returned =>
    have hidle := (h.idle w (Or.inr hactivity)).2
    rw [hcall] at hidle
    cases hidle
  | completing u =>
    obtain ⟨-, rest, hdraining⟩ := h.completing w u hactivity
    rw [hcall] at hdraining
    cases hdraining

theorem Inv.completing_of_draining (h : Inv g lm s) {rest : List TaskId}
    (hcall : s.system.calls (some w) = .draining t rest) :
    (s.workers w).activity = .completing t := by
  cases hactivity : (s.workers w).activity with
  | running u => exact absurd hcall ((h.running w u hactivity).2.2.1 t rest)
  | idle =>
    have hidle := (h.idle w (Or.inl hactivity)).2
    rw [hcall] at hidle
    cases hidle
  | returned =>
    have hidle := (h.idle w (Or.inr hactivity)).2
    rw [hcall] at hidle
    cases hidle
  | completing u =>
    obtain ⟨-, rest', hdraining⟩ := h.completing w u hactivity
    rw [hcall, Call.draining.injEq] at hdraining
    rw [hdraining.1]

/-- A step of the scheduler that ends or goes on with a call of worker `w`. -/
theorem Inv.system (h : Inv g lm s) {sys : System (Option (Fin n))} (events : List Event)
    (next : Call) (hrun : SchedulerCalls.Run lm sys)
    (hcount : sys.scheduler.createdTaskCount = s.system.scheduler.createdTaskCount)
    (hlog : sys.log = events ++ s.system.log)
    (hevents : ∀ ev ∈ events, (∃ u q, ev = .pushed u q) ∨ ∃ u, ev = .committed u)
    (hcalls : sys.calls = Function.update s.system.calls (some w) next)
    (hbusy : (∃ u, (s.workers w).activity = .running u ∧ next = .idle) ∨
      ∃ u rest, (s.workers w).activity = .completing u ∧ next = .draining u rest) :
    Inv g lm { s with system := sys } := by
  have hsub : s.system.log ⊆ sys.log := by
    rw [hlog]
    exact List.subset_append_right _ _
  have hold : ∀ ev : Event, (∀ u q, ev ≠ .pushed u q) → (∀ u, ev ≠ .committed u) →
      (ev ∈ sys.log ↔ ev ∈ s.system.log) := by
    intro ev h₁ h₂
    rw [hlog, List.mem_append]
    refine or_iff_right fun hmem => ?_
    rcases hevents ev hmem with ⟨u, q, heq⟩ | ⟨u, heq⟩
    · exact h₁ u q heq
    · exact h₂ u heq
  refine h.keep hrun hcount rfl rfl rfl hsub (fun p u => (hold _ (by simp) (by simp)).mp)
    (fun u => (hold _ (by simp) (by simp)).mp) (fun _ _ hop => hop) (fun _ => rfl)
    ⟨?_, ?_, ?_, ?_, h.alone, ?_⟩
  · simp only [hcalls]
    rw [Function.update_of_ne (by simp)]
    exact h.executor
  · intro w' hidle
    have hw : w' ≠ w := by
      rintro rfl
      rcases hbusy with ⟨u, hrunning, -⟩ | ⟨u, rest, hcompleting, -⟩
      · rw [hrunning] at hidle
        rcases hidle with hidle | hidle <;> cases hidle
      · rw [hcompleting] at hidle
        rcases hidle with hidle | hidle <;> cases hidle
    simp only [hcalls]
    rw [Function.update_of_ne (by simpa using hw)]
    exact h.idle w' hidle
  · intro w' u hrunning
    obtain ⟨htaken, hlive, hcalls', c, hc, hfits⟩ := h.running w' u hrunning
    refine ⟨hsub htaken, ?_, ?_, c, hc, ?_⟩
    · rw [hold _ (by simp) (by simp)]
      exact hlive
    · intro v rest
      simp only [hcalls]
      by_cases hw : w' = w
      · subst hw
        rw [Function.update_self]
        rcases hbusy with ⟨-, -, rfl⟩ | ⟨v', rest', hcompleting, -⟩
        · exact Call.noConfusion
        · rw [hrunning] at hcompleting
          cases hcompleting
      · rw [Function.update_of_ne (by simpa using hw)]
        exact hcalls' v rest
    · intro op hop
      have hmono := (hfits op hop).mono hsub []
      rwa [List.append_nil] at hmono
  · intro w' u hcompleting
    obtain ⟨hprogram, rest, hcall⟩ := h.completing w' u hcompleting
    refine ⟨hprogram, ?_⟩
    simp only [hcalls]
    by_cases hw : w' = w
    · subst hw
      rw [Function.update_self]
      rcases hbusy with ⟨v, hrunning, -⟩ | ⟨v, rest', hsame, rfl⟩
      · rw [hcompleting] at hrunning
        cases hrunning
      · rw [hcompleting, Activity.completing.injEq] at hsame
        exact ⟨rest', by rw [hsame]⟩
    · rw [Function.update_of_ne (by simpa using hw)]
      exact ⟨rest, hcall⟩
  · intro u htaken
    rw [hold _ (by simp) (by simp)] at htaken
    exact (h.accounted u htaken).imp_left (@hsub _)

theorem sum_update_program (s : State n) {w : Fin n} (hprogram : (s.workers w).program = [])
    (worker : Worker) (f : Op → ℕ) (hzero : (worker.program.map f).sum = 0) :
    ∑ w', ((Function.update s.workers w worker w').program.map f).sum = s.inPrograms f := by
  have hsum := inPrograms_update s w worker f
  rw [hprogram, hzero] at hsum
  exact hsum

theorem Inv.take (h : Inv g lm s) {q : QueueRef} {scheduler : Scheduler}
    (hidle : (s.workers w).activity = .idle)
    (hpop : Scheduler.Pops lm w s.system.scheduler q t scheduler) :
    Inv g lm (s.take w t scheduler) := by
  have hinv := run_inv h.run
  obtain ⟨hprogram, hcall⟩ := h.idle w (Or.inl hidle)
  obtain ⟨rest, hperm, hscheduler⟩ := hpop.perm
  obtain ⟨hpushed, huntaken⟩ := hinv.data.queued q t (hperm.mem_iff.mpr List.mem_cons_self)
  have hlt : t < s.commands.length := (h.created_iff t).mp
    (hinv.log.called_created t (hinv.released_called ⟨q, hpushed⟩))
  have hc : s.commands[t]? = some s.commands[t] := List.getElem?_eq_getElem hlt
  have hlive : .completed t ∉ s.system.log := fun hdone =>
    huntaken (hinv.log.completed_taken t hdone)
  have hself : (s.take w t scheduler).workers w =
      { Worker.idle with activity := .running t, program := [.prepare t s.commands[t]] } := by
    simp [State.take, hc]
  have hother : ∀ w', w' ≠ w → (s.take w t scheduler).workers w' = s.workers w' := by
    intro w' hw
    simp [State.take, hw]
  have hold : ∀ ev : Event, (∀ u, ev ≠ .taken u) →
      (ev ∈ (s.take w t scheduler).system.log ↔ ev ∈ s.system.log) := by
    intro ev hev
    simp [State.take, System.take, hev t]
  refine h.keep (h.run.next (.takeRunnableTask _ (some w) w q t scheduler hcall hpop)) ?_ rfl rfl rfl
    (List.subset_cons_self _ _) (fun p u => (hold _ (by simp)).mp) (fun u => (hold _ (by simp)).mp)
    ?_ ?_ ⟨h.executor, ?_, ?_, ?_, ?_, ?_⟩
  · simp only [State.take, System.take, hscheduler]
    rfl
  · intro w' op hop
    by_cases hw : w' = w
    · subst hw
      rw [hprogram] at hop
      cases hop
    · rw [hother w' hw]
      exact hop
  · intro u
    refine sum_update_program s hprogram _ _ ?_
    simp [hc, Op.owesCommit]
  · intro w' hidle'
    have hw : w' ≠ w := by
      rintro rfl
      rw [hself] at hidle'
      rcases hidle' with hidle' | hidle' <;> cases hidle'
    rw [hother w' hw] at hidle' ⊢
    exact h.idle w' hidle'
  · intro w' u hrunning
    by_cases hw : w' = w
    · subst hw
      rw [hself] at hrunning ⊢
      cases hrunning
      refine ⟨List.mem_cons_self, ?_, ?_, s.commands[t], hc, ?_⟩
      · rw [hold _ (by simp)]
        exact hlive
      · intro v rest'
        simp [State.take, System.take, hcall]
      · intro op hop
        rw [List.mem_singleton.mp hop]
        exact ⟨rfl, rfl⟩
    · rw [hother w' hw] at hrunning ⊢
      obtain ⟨htaken, hlive', hcalls, c, hc', hfits⟩ := h.running w' u hrunning
      refine ⟨List.mem_cons_of_mem _ htaken, ?_, hcalls, c, hc', ?_⟩
      · rw [hold _ (by simp)]
        exact hlive'
      · intro op hop
        have hmono := (hfits op hop).mono (List.subset_cons_self (.taken t) _) []
        rwa [List.append_nil] at hmono
  · intro w' u hcompleting
    have hw : w' ≠ w := by
      rintro rfl
      rw [hself] at hcompleting
      cases hcompleting
    rw [hother w' hw] at hcompleting ⊢
    exact h.completing w' u hcompleting
  · intro w₁ w₂ u h₁ h₂
    have hfresh : ∀ w', w' ≠ w → (s.workers w').activity ≠ .running t := fun w' _ hrunning =>
      huntaken (h.running w' t hrunning).1
    by_cases hw₁ : w₁ = w
    · by_cases hw₂ : w₂ = w
      · rw [hw₁, hw₂]
      · rw [hw₁, hself] at h₁
        cases h₁
        rw [hother w₂ hw₂] at h₂
        exact absurd h₂ (hfresh w₂ hw₂)
    · rw [hother w₁ hw₁] at h₁
      by_cases hw₂ : w₂ = w
      · rw [hw₂, hself] at h₂
        cases h₂
        exact absurd h₁ (hfresh w₁ hw₁)
      · rw [hother w₂ hw₂] at h₂
        exact h.alone w₁ w₂ u h₁ h₂
  · intro u htaken
    rcases List.mem_cons.mp htaken with heq | htaken
    · cases heq
      exact Or.inr ⟨w, by rw [hself]⟩
    · rcases h.accounted u htaken with hdone | ⟨w', hrunning⟩
      · exact Or.inl ((hold _ (by simp)).mpr hdone)
      · refine Or.inr ⟨w', ?_⟩
        rw [hother w' (by
          rintro rfl
          rw [hidle] at hrunning
          cases hrunning)]
        exact hrunning

theorem Inv.complete (h : Inv g lm s) (hrunning : (s.workers w).activity = .running t)
    (hcall : s.system.calls (some w) = .idle) (hprogram : (s.workers w).program = []) :
    Inv g lm (s.complete w t) := by
  obtain ⟨htaken, hlive, -⟩ := h.running w t hrunning
  obtain ⟨rest, hlog, hcalls, hcount⟩ :=
    (run_inv h.run).beginCompletion_effect (some w) htaken hlive
  have hself : (s.complete w t).workers w = { Worker.idle with activity := .completing t } := by
    simp [State.complete]
  have hother : ∀ w', w' ≠ w → (s.complete w t).workers w' = s.workers w' := by
    intro w' hw
    simp [State.complete, hw]
  have hsystem : (s.complete w t).system = s.system.beginCompletion (some w) t := rfl
  have hsub : s.system.log ⊆ (s.complete w t).system.log := by
    rw [hsystem, hlog]
    exact List.subset_cons_self _ _
  have hold : ∀ ev : Event, (∀ u, ev ≠ .completed u) →
      (ev ∈ (s.complete w t).system.log ↔ ev ∈ s.system.log) := by
    intro ev hev
    simp [hsystem, hlog, hev t]
  refine h.keep (h.run.next (.notifyTaskCompletion _ (some w) t hcall htaken hlive)) hcount rfl rfl
    rfl hsub (fun p u => (hold _ (by simp)).mp) (fun u => (hold _ (by simp)).mp)
    ?_ ?_ ⟨?_, ?_, ?_, ?_, ?_, ?_⟩
  · intro w' op hop
    by_cases hw : w' = w
    · subst hw
      rw [hprogram] at hop
      cases hop
    · rw [hother w' hw]
      exact hop
  · intro u
    exact sum_update_program s hprogram _ _ rfl
  · rw [hsystem, hcalls, Function.update_of_ne (by simp)]
    exact h.executor
  · intro w' hidle
    have hw : w' ≠ w := by
      rintro rfl
      rw [hself] at hidle
      rcases hidle with hidle | hidle <;> cases hidle
    rw [hother w' hw] at hidle ⊢
    rw [hsystem, hcalls, Function.update_of_ne (by simpa using hw)]
    exact h.idle w' hidle
  · intro w' u hrunning'
    have hw : w' ≠ w := by
      rintro rfl
      rw [hself] at hrunning'
      cases hrunning'
    rw [hother w' hw] at hrunning' ⊢
    obtain ⟨htaken', hlive', hcalls', c, hc, hfits⟩ := h.running w' u hrunning'
    refine ⟨hsub htaken', ?_, ?_, c, hc, ?_⟩
    · rw [hsystem, hlog, List.mem_cons, not_or]
      refine ⟨fun heq => ?_, hlive'⟩
      cases heq
      exact hw (h.alone w' w t hrunning' hrunning)
    · intro v rest'
      rw [hsystem, hcalls, Function.update_of_ne (by simpa using hw)]
      exact hcalls' v rest'
    · intro op hop
      have hmono := (hfits op hop).mono hsub []
      rwa [List.append_nil] at hmono
  · intro w' u hcompleting
    by_cases hw : w' = w
    · subst hw
      rw [hself] at hcompleting ⊢
      cases hcompleting
      exact ⟨rfl, rest, by rw [hsystem, hcalls, Function.update_self]⟩
    · rw [hother w' hw] at hcompleting ⊢
      rw [hsystem, hcalls, Function.update_of_ne (by simpa using hw)]
      exact h.completing w' u hcompleting
  · intro w₁ w₂ u h₁ h₂
    have hne : ∀ w', ((s.complete w t).workers w').activity = .running u → w' ≠ w := by
      rintro w' hrunning' rfl
      rw [hself] at hrunning'
      cases hrunning'
    rw [hother w₁ (hne w₁ h₁)] at h₁
    rw [hother w₂ (hne w₂ h₂)] at h₂
    exact h.alone w₁ w₂ u h₁ h₂
  · intro u htaken'
    rw [hold _ (by simp)] at htaken'
    rw [hsystem, hlog]
    rcases h.accounted u htaken' with hdone | ⟨w', hrunning'⟩
    · exact Or.inl (List.mem_cons_of_mem _ hdone)
    · by_cases hw : w' = w
      · rw [hw, hrunning] at hrunning'
        cases hrunning'
        exact Or.inl List.mem_cons_self
      · exact Or.inr ⟨w', by rw [hother w' hw]; exact hrunning'⟩

/-- A worker between two tasks comes to the end of its program or of its call. -/
theorem Inv.settle (h : Inv g lm s) {sys : System (Option (Fin n))} (events : List Event)
    {activity : Activity}
    (hactivity : activity = .idle ∨ activity = .returned)
    (hrest : (s.workers w).program = [] ∧ ∀ u, (s.workers w).activity ≠ .running u)
    (hrun : SchedulerCalls.Run lm sys)
    (hcount : sys.scheduler.createdTaskCount = s.system.scheduler.createdTaskCount)
    (hlog : sys.log = events ++ s.system.log)
    (hevents : ∀ ev ∈ events, ∃ u, ev = .finished u)
    (hcalls : sys.calls = Function.update s.system.calls (some w) .idle) :
    Inv g lm { s.setActivity w activity with system := sys } := by
  have hself : ({ s.setActivity w activity with system := sys } : State n).workers w =
      { s.workers w with activity := activity } := by
    simp [State.setActivity]
  have hother : ∀ w', w' ≠ w →
      ({ s.setActivity w activity with system := sys } : State n).workers w' = s.workers w' := by
    intro w' hw
    simp [State.setActivity, hw]
  have hsub : s.system.log ⊆ sys.log := by
    rw [hlog]
    exact List.subset_append_right _ _
  have hold : ∀ ev : Event, (∀ u, ev ≠ .finished u) → (ev ∈ sys.log ↔ ev ∈ s.system.log) := by
    intro ev hev
    rw [hlog, List.mem_append]
    refine or_iff_right fun hmem => ?_
    obtain ⟨u, heq⟩ := hevents ev hmem
    exact hev u heq
  have hquiet : ∀ w' u,
      (({ s.setActivity w activity with system := sys } : State n).workers w').activity =
        .running u → w' ≠ w := by
    rintro w' u hrunning rfl
    rw [hself] at hrunning
    simp only at hrunning
    rcases hactivity with rfl | rfl <;> cases hrunning
  refine h.keep hrun hcount rfl rfl rfl hsub (fun p u => (hold _ (by simp)).mp)
    (fun u => (hold _ (by simp)).mp) ?_ ?_ ⟨?_, ?_, ?_, ?_, ?_, ?_⟩
  · intro w' op hop
    by_cases hw : w' = w
    · subst hw
      rw [hself]
      exact hop
    · rw [hother w' hw]
      exact hop
  · intro u
    refine sum_update_program s hrest.1 _ _ ?_
    simp [hrest.1]
  · simp only [hcalls]
    rw [Function.update_of_ne (by simp)]
    exact h.executor
  · intro w' hidle
    simp only [hcalls]
    by_cases hw : w' = w
    · subst hw
      rw [hself, Function.update_self]
      exact ⟨hrest.1, rfl⟩
    · rw [hother w' hw] at hidle ⊢
      rw [Function.update_of_ne (by simpa using hw)]
      exact h.idle w' hidle
  · intro w' u hrunning
    have hw := hquiet w' u hrunning
    rw [hother w' hw] at hrunning ⊢
    obtain ⟨htaken, hlive, hcalls', c, hc, hfits⟩ := h.running w' u hrunning
    refine ⟨hsub htaken, ?_, ?_, c, hc, ?_⟩
    · rw [hold _ (by simp)]
      exact hlive
    · intro v rest'
      simp only [hcalls]
      rw [Function.update_of_ne (by simpa using hw)]
      exact hcalls' v rest'
    · intro op hop
      have hmono := (hfits op hop).mono hsub []
      rwa [List.append_nil] at hmono
  · intro w' u hcompleting
    have hw : w' ≠ w := by
      rintro rfl
      rw [hself] at hcompleting
      simp only at hcompleting
      rcases hactivity with rfl | rfl <;> cases hcompleting
    rw [hother w' hw] at hcompleting ⊢
    simp only [hcalls]
    rw [Function.update_of_ne (by simpa using hw)]
    exact h.completing w' u hcompleting
  · intro w₁ w₂ u h₁ h₂
    rw [hother w₁ (hquiet w₁ u h₁)] at h₁
    rw [hother w₂ (hquiet w₂ u h₂)] at h₂
    exact h.alone w₁ w₂ u h₁ h₂
  · intro u htaken
    rw [hold _ (by simp)] at htaken
    rcases h.accounted u htaken with hdone | ⟨w', hrunning⟩
    · exact Or.inl (hsub hdone)
    · refine Or.inr ⟨w', ?_⟩
      rw [hother w' (by
        rintro rfl
        exact hrest.2 u hrunning)]
      exact hrunning

theorem start_inv (hends : ∀ e ∈ g.edges, e.producer.1 < g.tasks.length ∧
    e.consumer.1 < g.tasks.length) (draws : TaskId → WorkerId) :
    Inv g lm (State.start g (Plan.setUp g lm draws) : State n) := by
  have h := setUp_spec (n := n) lm draws hends
  refine ⟨h.calm.run, h.calm.length, ⟨h.laid, h.edges, fun t c hc => Or.inl (h.fixed t c hc)⟩,
    h.ordered, h.calm.calls none, fun w _ => ⟨rfl, h.calm.calls (some w)⟩, ?_, ?_, ?_, ?_, ?_, ?_⟩
  · intro w t hrunning
    cases hrunning
  · intro w t hcompleting
    cases hcompleting
  · intro w w' t hrunning
    cases hrunning
  · intro t htaken
    exact absurd htaken (h.calm.untaken t)
  · intro t c place hc hplace
    obtain ⟨kind, place', -, hcommand, -⟩ := h.fixed t c hc
    rw [hcommand, before?_commandAt] at hplace
    cases hplace
  · intro t
    have hprograms : (State.start g (Plan.setUp g lm draws) : State n).inPrograms
        (Op.owesCommit t) = 0 :=
      Finset.sum_eq_zero fun w _ => rfl
    have hlocals : (State.start g (Plan.setUp g lm draws) : State n).inLocals g
        (fun _ => Local.waiting t) = 0 := by
      refine Finset.sum_eq_zero fun l _ => ?_
      simp only [State.start, Local.waiting]
      cases (g.kindOf l).getD .gather <;> rfl
    have hlog : called (State.start g (Plan.setUp g lm draws) : State n).system.log t =
        issued (State.start g (Plan.setUp g lm draws) : State n).commands.length t := by
      unfold called issued
      refine if_congr ⟨fun hcalled => ?_, fun hlt => h.called t hlt⟩ rfl rfl
      have hcreated := (run_inv h.calm.run).log.called_created t hcalled
      have hlt := ((run_inv h.calm.run).log.created_iff t).mp hcreated
      rwa [← h.calm.length] at hlt
    rw [State.commits, hprograms, hlocals, hlog, Nat.zero_add]

theorem step_inv (hwaits : Waits g) (h : Inv g lm s) (hstep : Step g lm s s') : Inv g lm s' := by
  have hinv := run_inv h.run
  cases hstep with
  | take hidle hpop => exact h.take hidle hpop
  | perform hrunning hcall hprogram heffect =>
    exact h.perform hwaits hrunning hcall hprogram heffect
  | complete hrunning hcall hprogram => exact h.complete hrunning hcall hprogram
  | commitDecrement hcall =>
    rename_i w t draw
    obtain ⟨pushes, hpushes, hlog, hcalls, hcount⟩ :=
      hinv.commitDecrement_effect lm draw hcall
    obtain ⟨u, hrunning⟩ := h.running_of_committing hcall
    refine h.system (pushes ++ [.committed t]) .idle
      (h.run.next (.commitDecrement _ _ _ _ hcall)) hcount (by simp [hlog]) ?_ hcalls
      (Or.inl ⟨u, hrunning, rfl⟩)
    intro ev hev
    rcases List.mem_append.mp hev with hev | hev
    · exact Or.inl (hpushes ev hev)
    · exact Or.inr ⟨t, List.mem_singleton.mp hev⟩
  | drain hcall =>
    rename_i w t x rest draw
    obtain ⟨pushes, hpushes, hlog, hcalls, hcount⟩ := hinv.drain_effect lm draw hcall
    exact h.system pushes (.draining t rest)
      (h.run.next (.drain _ _ _ _ _ _ hcall)) hcount hlog (fun ev hev => Or.inl (hpushes ev hev))
      hcalls (Or.inr ⟨t, rest, h.completing_of_draining hcall, rfl⟩)
  | finish hcall =>
    rename_i w t
    have hcompleting := h.completing_of_draining hcall
    refine h.settle [.finished t] (Or.inl rfl)
      ⟨(h.completing w t hcompleting).1, fun u => by simp [hcompleting]⟩
      (h.run.next (.finishCompletion _ _ _ hcall)) rfl rfl
      (fun ev hev => ⟨t, List.mem_singleton.mp hev⟩) rfl
  | leave hidle hfinished =>
    rename_i w
    have hrest := h.idle w (Or.inl hidle)
    exact h.settle [] (Or.inr rfl) ⟨hrest.1, fun u => by simp [hidle]⟩ h.run rfl rfl
      (by simp) (by rw [← hrest.2, Function.update_eq_self])

/-- The invariant of every run. -/
theorem run_invariant (hwaits : Waits g) (hrun : Run g lm s) : Inv g lm s := by
  refine Inductive.reachable ⟨?_, ?_⟩ hrun
  · rintro _ ⟨draws, rfl⟩
    exact start_inv hwaits.endpoints draws
  · intro s s' h hstep
    exact step_inv hwaits h hstep

end Between

end M3bp.Engine
