import M3bp.Engine
import M3bp.SchedulerEffects

/-!
`LogicalGraph::create_physical_tasks`, which runs before any worker starts. It
creates the physical tasks of every logical task, then makes the tasks that are
named by the edges wait for the terminal tasks of their producers, and commits.
-/
namespace M3bp.Engine

open SchedulerCalls Transition

variable {n : ℕ}

/-- The part of the engine that the set-up changes. -/
structure Plan (n : ℕ) where
  system : System (Option (Fin n))
  commands : List Command
  ids : ℕ → Ids

namespace Plan

variable (p : Plan n)

def initial : Plan n :=
  { system := System.initial, commands := [], ids := fun _ => ⟨0, 0, 0⟩ }

def create (c : Command) : Plan n :=
  { p with
    system := p.system.createPhysicalTask {}
    commands := p.commands ++ [c] }

def depend (a b : TaskId) : Plan n := { p with system := p.system.addDependency a b }

def setIds (l : ℕ) (ids : Ids) : Plan n := { p with ids := Function.update p.ids l ids }

/-- `draws` is what the random placement of a task without recommendation returns. -/
def commit (lm : LocalityManager) (draws : TaskId → WorkerId) (t : TaskId) : Plan n :=
  { p with system := (p.system.beginCommit none t).commitDecrement lm (draws t) none t }

/-- The tasks of a process or a shuffle. -/
def createThree (l : ℕ) (entry barrier terminal : Command) : Plan n :=
  let entryId := p.system.nextTask
  let p := p.create entry
  let barrierId := p.system.nextTask
  let p := p.create barrier
  let terminalId := p.system.nextTask
  let p := p.create terminal
  ((p.depend entryId barrierId).depend barrierId terminalId).setIds l
    ⟨entryId, barrierId, terminalId⟩

/-- The tasks of a value sort, whose entry is also its barrier. -/
def createTwo (l : ℕ) (entry terminal : Command) : Plan n :=
  let entryId := p.system.nextTask
  let p := p.create entry
  let terminalId := p.system.nextTask
  let p := p.create terminal
  (p.depend entryId terminalId).setIds l ⟨entryId, entryId, terminalId⟩

def createOne (l : ℕ) (c : Command) : Plan n :=
  let id := p.system.nextTask
  (p.create c).setIds l ⟨id, id, id⟩

/-- `create_physical_tasks` of each kind. -/
def createPhysicalTasks (l : ℕ) : TaskKind → Plan n
  | .inputProcess .. | .oneToOneProcess .. | .scatterGatherProcess .. =>
    p.createThree l (.globalInitialize l) (.processBarrier l) (.globalFinalize l)
  | .shuffle _ => p.createThree l (.empty l .entry) (.shuffleBarrier l) (.empty l .terminal)
  | .gather => p.createOne l (.gather l)
  | .valueSort _ => p.createTwo l (.empty l .entry) (.empty l .terminal)

def addEdge (e : Edge) : Plan n :=
  p.depend (p.ids e.producer.1).terminal ((p.ids e.consumer.1).get e.physicalSuccessor)

/-- `commit_physical_tasks` of each kind. -/
def commitPhysicalTasks (lm : LocalityManager) (draws : TaskId → WorkerId) (l : ℕ) :
    TaskKind → Plan n
  | .inputProcess .. | .oneToOneProcess .. | .scatterGatherProcess .. | .shuffle _ =>
    ((p.commit lm draws (p.ids l).entry).commit lm draws (p.ids l).barrier).commit lm draws
      (p.ids l).terminal
  | .gather => p.commit lm draws (p.ids l).entry
  | .valueSort _ => (p.commit lm draws (p.ids l).entry).commit lm draws (p.ids l).terminal

end Plan

/-- `LogicalGraph::create_physical_tasks`. -/
def Plan.setUp (g : LogicalGraph) (lm : LocalityManager) (draws : TaskId → WorkerId) : Plan n :=
  let created := g.tasks.zipIdx.foldl (fun p (t, l) => p.createPhysicalTasks l t.kind) initial
  let linked := g.edges.foldl addEdge created
  g.tasks.zipIdx.foldl (fun p (t, l) => p.commitPhysicalTasks lm draws l t.kind) linked

/-- What holds of the empty plan and is kept by each of its steps holds of the set-up. -/
theorem Plan.setUp_induction {P : Plan n → Prop} (g : LogicalGraph) (lm : LocalityManager)
    (draws : TaskId → WorkerId) (hinitial : P initial)
    (hcreate : ∀ p (x : LogicalTask × ℕ), P p → P (p.createPhysicalTasks x.2 x.1.kind))
    (hlink : ∀ p e, P p → P (p.addEdge e))
    (hcommit : ∀ p (x : LogicalTask × ℕ), P p →
      P (p.commitPhysicalTasks lm draws x.2 x.1.kind)) :
    P (setUp g lm draws) := by
  have hcreated := List.foldlRecOn g.tasks.zipIdx _ hinitial fun p hp x _ => hcreate p x hp
  have hlinked := List.foldlRecOn g.edges _ hcreated fun p hp e _ => hlink p e hp
  exact List.foldlRecOn g.tasks.zipIdx _ hlinked fun p hp x _ => hcommit p x hp

/-- The engine when the workers are about to start. -/
def State.start (g : LogicalGraph) (p : Plan n) : State n :=
  { system := p.system
    commands := p.commands
    ids := p.ids
    locals := fun l => Local.create ((g.kindOf l).getD .gather)
    workers := fun _ => Worker.idle
    objectSizes := []
    notes := [] }

/-- The runs of the engine with `n` workers. -/
def Run (g : LogicalGraph) (lm : LocalityManager) : State n → Prop :=
  Reachable (fun s => ∃ draws, s = State.start g (Plan.setUp g lm draws)) (Step g lm)

/-! The fixed tasks and how they depend on one another. -/

/-- The commands of the fixed tasks. -/
def commandAt (kind : TaskKind) (l : ℕ) (place : PhysicalSuccessor) : Command :=
  match kind, place with
  | .inputProcess .., .entry | .oneToOneProcess .., .entry | .scatterGatherProcess .., .entry =>
    .globalInitialize l
  | .inputProcess .., .barrier | .oneToOneProcess .., .barrier
  | .scatterGatherProcess .., .barrier => .processBarrier l
  | .inputProcess .., .terminal | .oneToOneProcess .., .terminal
  | .scatterGatherProcess .., .terminal => .globalFinalize l
  | .shuffle _, .entry => .empty l .entry
  | .shuffle _, .barrier => .shuffleBarrier l
  | .shuffle _, .terminal => .empty l .terminal
  | .gather, _ => .gather l
  | .valueSort _, .entry | .valueSort _, .barrier => .empty l .entry
  | .valueSort _, .terminal => .empty l .terminal

/-- The order of the tasks of one logical task. -/
def Command.level : Command → ℕ
  | empty _ .entry | globalInitialize _ => 0
  | inputRun .. | oneToOneRun .. | scatterGatherRun .. | shufflePartition .. | valueSort .. => 1
  | empty _ .barrier | processBarrier _ | shuffleBarrier _ | gather _ => 2
  | threadLocalFinalize .. | shuffleSort .. => 3
  | empty _ .terminal | globalFinalize _ => 4

/-- A dependency leads to a later task of the same logical task or along an edge. -/
def Ordered (g : LogicalGraph) (commands : List Command) (a b : TaskId) : Prop :=
  ∃ c d, commands[a]? = some c ∧ commands[b]? = some d ∧
    (c.owner = d.owner ∧ c.level < d.level ∨
      ∃ e ∈ g.edges, e.producer.1 = c.owner ∧ e.consumer.1 = d.owner)

/-- One task is the other or comes before it at once. -/
def Follows (log : List Event) (a b : TaskId) : Prop := a = b ∨ .dependency a b ∈ log

/-- The fixed tasks of one logical task. -/
structure LaidOut (log : List Event) (commands : List Command) (ids : Ids) (l : ℕ)
    (kind : TaskKind) : Prop where
  command : ∀ place, commands[ids.get place]? = some (commandAt kind l place)
  merged : ∀ place place', commandAt kind l place = commandAt kind l place' →
    ids.get place = ids.get place'
  barrier : Follows log ids.entry ids.barrier
  terminal : Follows log ids.barrier ids.terminal

theorem owner_commandAt (kind : TaskKind) (l : ℕ) (place : PhysicalSuccessor) :
    (commandAt kind l place).owner = l := by
  cases kind <;> cases place <;> rfl

theorem before?_commandAt (kind : TaskKind) (l : ℕ) (place : PhysicalSuccessor) :
    (commandAt kind l place).before? = none := by
  cases kind <;> cases place <;> rfl

theorem getElem?_append_of_some {commands : List Command} {t : TaskId} {c : Command}
    (h : commands[t]? = some c) (more : List Command) : (commands ++ more)[t]? = some c := by
  rw [List.getElem?_append_left (List.getElem?_eq_some_iff.mp h).1]
  exact h

theorem Ordered.mono {g : LogicalGraph} {commands : List Command} {a b : TaskId}
    (h : Ordered g commands a b) (more : List Command) : Ordered g (commands ++ more) a b := by
  obtain ⟨c, d, hc, hd, horder⟩ := h
  exact ⟨c, d, getElem?_append_of_some hc more, getElem?_append_of_some hd more, horder⟩

theorem LaidOut.mono {log log' : List Event} {commands : List Command} {ids : Ids} {l : ℕ}
    {kind : TaskKind} (h : LaidOut log commands ids l kind) (hlog : log ⊆ log')
    (more : List Command) : LaidOut log' (commands ++ more) ids l kind :=
  ⟨fun place => getElem?_append_of_some (h.command place) more, h.merged,
    h.barrier.imp_right (@hlog _), h.terminal.imp_right (@hlog _)⟩

/-! The set-up while nothing is committed. -/

/-- Nothing has been committed yet. -/
structure Quiet (lm : LocalityManager) (p : Plan n) : Prop where
  run : SchedulerCalls.Run lm p.system
  calls : ∀ th, p.system.calls th = .idle
  uncalled : ∀ t, .commitCalled t ∉ p.system.log
  length : p.commands.length = p.system.scheduler.createdTaskCount

namespace Quiet

variable {lm : LocalityManager} {p : Plan n}

theorem nextTask (h : Quiet lm p) : p.system.nextTask = p.commands.length := h.length.symm

theorem created (h : Quiet lm p) {t : TaskId} (ht : t < p.commands.length) :
    .created t ∈ p.system.log :=
  ((run_inv h.run).log.created_iff t).mpr (h.length ▸ ht)

theorem initial : Quiet lm (Plan.initial : Plan n) :=
  ⟨.start rfl, fun _ => rfl, by simp [Plan.initial, System.initial], rfl⟩

theorem create (h : Quiet lm p) (c : Command) : Quiet lm (p.create c) := by
  refine ⟨h.run.next (.createPhysicalTask _ none {} (h.calls none)), h.calls, ?_, ?_⟩
  · intro t hmem
    rcases List.mem_cons.mp hmem with heq | hmem
    · cases heq
    · exact h.uncalled t hmem
  · simp [Plan.create, h.length, System.createPhysicalTask, Scheduler.createPhysicalTask]

theorem depend (h : Quiet lm p) {a b : TaskId} (ha : a < p.commands.length)
    (hb : b < p.commands.length) :
    Quiet lm (p.depend a b) ∧ (p.depend a b).system.log = .dependency a b :: p.system.log := by
  have hinv := run_inv h.run
  have hunreleased := hinv.unreleased_of_uncalled (h.uncalled b)
  obtain ⟨hlog, hcalls, hcount⟩ := hinv.addDependency_live (h.created ha)
    (hinv.live_of_uncalled (h.uncalled a)) (h.created hb) hunreleased
  refine ⟨⟨h.run.next (.addDependency _ none a b (h.calls none) (h.created hb) hunreleased), ?_,
    ?_, ?_⟩, hlog⟩
  · intro th
    simp only [Plan.depend, hcalls]
    exact h.calls th
  · intro t hmem
    rw [Plan.depend, hlog] at hmem
    rcases List.mem_cons.mp hmem with heq | hmem
    · cases heq
    · exact h.uncalled t hmem
  · simp only [Plan.depend, hcount]
    exact h.length

end Quiet

/-- The tasks of the logical tasks before `k` have been created. -/
structure Created (g : LogicalGraph) (lm : LocalityManager) (k : ℕ) (p : Plan n) : Prop where
  quiet : Quiet lm p
  laid : ∀ l < k, ∀ kind, g.kindOf l = some kind →
    LaidOut p.system.log p.commands (p.ids l) l kind
  fixed : ∀ t c, p.commands[t]? = some c → c.owner < k ∧ ∃ kind place,
    g.kindOf c.owner = some kind ∧ c = commandAt kind c.owner place ∧ t = (p.ids c.owner).get place
  ordered : ∀ a b, .dependency a b ∈ p.system.log → Ordered g p.commands a b

section Create

variable {g : LogicalGraph} {lm : LocalityManager} {k : ℕ} {p p' : Plan n} {kind : TaskKind}

theorem Created.extend (h : Created g lm k p) (ids : Ids) (new : List Command)
    (hquiet : Quiet lm p') (hcommands : p'.commands = p.commands ++ new)
    (hids : p'.ids = Function.update p.ids k ids) (hlog : p.system.log ⊆ p'.system.log)
    (hkind : g.kindOf k = some kind) (hlaid : LaidOut p'.system.log p'.commands ids k kind)
    (hnew : ∀ i c, new[i]? = some c →
      ∃ place, c = commandAt kind k place ∧ p.commands.length + i = ids.get place)
    (hdeps : ∀ a b, .dependency a b ∈ p'.system.log →
      .dependency a b ∈ p.system.log ∨ Ordered g p'.commands a b) :
    Created g lm (k + 1) p' := by
  refine ⟨hquiet, ?_, ?_, ?_⟩
  · intro l hl kind' hkind'
    by_cases heq : l = k
    · subst heq
      rw [hkind, Option.some.injEq] at hkind'
      rw [hids, Function.update_self, ← hkind']
      exact hlaid
    · rw [hids, Function.update_of_ne heq, hcommands]
      exact (h.laid l (by omega) kind' hkind').mono hlog new
  · intro t c hc
    rw [hcommands] at hc
    by_cases ht : t < p.commands.length
    · rw [List.getElem?_append_left ht] at hc
      obtain ⟨howner, kind', place, hkind', hcommand, hid⟩ := h.fixed t c hc
      refine ⟨by omega, kind', place, hkind', hcommand, ?_⟩
      rw [hids, Function.update_of_ne (by omega)]
      exact hid
    · rw [List.getElem?_append_right (Nat.le_of_not_lt ht)] at hc
      obtain ⟨place, hcommand, hid⟩ := hnew _ c hc
      have howner : c.owner = k := by rw [hcommand, owner_commandAt]
      refine ⟨by omega, kind, place, by rw [howner, hkind], by rw [howner]; exact hcommand, ?_⟩
      rw [howner, hids, Function.update_self, ← hid]
      exact (Nat.add_sub_cancel' (Nat.le_of_not_lt ht)).symm
  · intro a b hdep
    rcases hdeps a b hdep with hold | hnew
    · rw [hcommands]
      exact (h.ordered a b hold).mono new
    · exact hnew

theorem ordered_of_level {commands : List Command} {a b : TaskId} {c d : Command}
    (hc : commands[a]? = some c) (hd : commands[b]? = some d) (howner : c.owner = d.owner)
    (hlevel : c.level < d.level) : Ordered g commands a b :=
  ⟨c, d, hc, hd, Or.inl ⟨howner, hlevel⟩⟩

theorem Created.createThree (h : Created g lm k p) (hkind : g.kindOf k = some kind)
    (hdistinct : Function.Injective (commandAt kind k))
    (hbarrier : (commandAt kind k .entry).level < (commandAt kind k .barrier).level)
    (hterminal : (commandAt kind k .barrier).level < (commandAt kind k .terminal).level) :
    Created g lm (k + 1) (p.createThree k (commandAt kind k .entry) (commandAt kind k .barrier)
      (commandAt kind k .terminal)) := by
  have hnext := h.quiet.nextTask
  have hquiet := ((h.quiet.create (commandAt kind k .entry)).create
    (commandAt kind k .barrier)).create (commandAt kind k .terminal)
  obtain ⟨hquiet₁, hlog₁⟩ := hquiet.depend (a := p.system.nextTask) (b := p.system.nextTask + 1)
    (by simp [Plan.create, hnext]) (by simp [Plan.create, hnext])
  obtain ⟨hquiet₂, hlog₂⟩ := hquiet₁.depend (a := p.system.nextTask + 1)
    (b := p.system.nextTask + 2) (by simp [Plan.create, Plan.depend, hnext])
    (by simp [Plan.create, Plan.depend, hnext])
  have hlog : (p.createThree k (commandAt kind k .entry) (commandAt kind k .barrier)
      (commandAt kind k .terminal)).system.log =
      .dependency (p.system.nextTask + 1) (p.system.nextTask + 2) ::
        .dependency p.system.nextTask (p.system.nextTask + 1) ::
        .created (p.system.nextTask + 2) :: .created (p.system.nextTask + 1) ::
        .created p.system.nextTask :: p.system.log := by
    exact hlog₂.trans (congrArg _ hlog₁)
  have hcommands : (p.createThree k (commandAt kind k .entry) (commandAt kind k .barrier)
      (commandAt kind k .terminal)).commands =
      p.commands ++ [commandAt kind k .entry, commandAt kind k .barrier,
        commandAt kind k .terminal] := by
    simp [Plan.createThree, Plan.create, Plan.depend, Plan.setIds]
  refine h.extend ⟨p.system.nextTask, p.system.nextTask + 1, p.system.nextTask + 2⟩ _
    ⟨hquiet₂.run, hquiet₂.calls, hquiet₂.uncalled, hquiet₂.length⟩ hcommands rfl ?_ hkind ?_ ?_ ?_
  · rw [hlog]
    intro e he
    simp [he]
  · refine ⟨?_, fun _ _ heq => congrArg _ (hdistinct heq), ?_, ?_⟩
    · intro place
      rw [hcommands, hnext]
      cases place <;> simp [Ids.get]
    · rw [hlog]
      exact Or.inr (by simp)
    · rw [hlog]
      exact Or.inr (by simp)
  · intro i c hc
    rw [hnext]
    match i with
    | 0 => exact ⟨.entry, (Option.some.inj hc).symm, rfl⟩
    | 1 => exact ⟨.barrier, (Option.some.inj hc).symm, rfl⟩
    | 2 => exact ⟨.terminal, (Option.some.inj hc).symm, rfl⟩
    | i + 3 => simp at hc
  · intro a b hdep
    rw [hlog] at hdep
    simp only [List.mem_cons, Event.dependency.injEq, reduceCtorEq, false_or] at hdep
    rcases hdep with ⟨rfl, rfl⟩ | ⟨rfl, rfl⟩ | hold
    · refine Or.inr (ordered_of_level (c := commandAt kind k .barrier)
        (d := commandAt kind k .terminal) ?_ ?_ ?_ hterminal)
      · simp [hcommands, hnext]
      · simp [hcommands, hnext]
      · rw [owner_commandAt, owner_commandAt]
    · refine Or.inr (ordered_of_level (c := commandAt kind k .entry)
        (d := commandAt kind k .barrier) ?_ ?_ ?_ hbarrier)
      · simp [hcommands, hnext]
      · simp [hcommands, hnext]
      · rw [owner_commandAt, owner_commandAt]
    · exact Or.inl hold

theorem Created.createTwo {comparator : ValueComparator} (h : Created g lm k p)
    (hkind : g.kindOf k = some (.valueSort comparator)) :
    Created g lm (k + 1) (p.createTwo k (.empty k .entry) (.empty k .terminal)) := by
  have hnext := h.quiet.nextTask
  have hquiet := (h.quiet.create (.empty k .entry)).create (.empty k .terminal)
  obtain ⟨hquiet₁, hlog₁⟩ := hquiet.depend (a := p.system.nextTask) (b := p.system.nextTask + 1)
    (by simp [Plan.create, hnext]) (by simp [Plan.create, hnext])
  have hlog : (p.createTwo k (.empty k .entry) (.empty k .terminal)).system.log =
      .dependency p.system.nextTask (p.system.nextTask + 1) ::
        .created (p.system.nextTask + 1) :: .created p.system.nextTask :: p.system.log := hlog₁
  have hcommands : (p.createTwo k (.empty k .entry) (.empty k .terminal)).commands =
      p.commands ++ [.empty k .entry, .empty k .terminal] := by
    simp [Plan.createTwo, Plan.create, Plan.depend, Plan.setIds]
  refine h.extend ⟨p.system.nextTask, p.system.nextTask, p.system.nextTask + 1⟩ _
    ⟨hquiet₁.run, hquiet₁.calls, hquiet₁.uncalled, hquiet₁.length⟩ hcommands rfl ?_ hkind ?_ ?_ ?_
  · rw [hlog]
    intro e he
    simp [he]
  · refine ⟨?_, ?_, Or.inl rfl, ?_⟩
    · intro place
      rw [hcommands, hnext]
      cases place <;> simp [Ids.get, commandAt]
    · intro place place' heq
      cases place <;> cases place' <;> simp [commandAt] at heq ⊢ <;> rfl
    · rw [hlog]
      exact Or.inr (by simp)
  · intro i c hc
    rw [hnext]
    match i with
    | 0 => exact ⟨.entry, (Option.some.inj hc).symm, rfl⟩
    | 1 => exact ⟨.terminal, (Option.some.inj hc).symm, rfl⟩
    | i + 2 => simp at hc
  · intro a b hdep
    rw [hlog] at hdep
    simp only [List.mem_cons, Event.dependency.injEq, reduceCtorEq, false_or] at hdep
    rcases hdep with ⟨rfl, rfl⟩ | hold
    · refine Or.inr (ordered_of_level (c := .empty k .entry) (d := .empty k .terminal) ?_ ?_ rfl
        (by simp [Command.level]))
      · simp [hcommands, hnext]
      · simp [hcommands, hnext]
    · exact Or.inl hold

theorem Created.createOne (h : Created g lm k p) (hkind : g.kindOf k = some .gather) :
    Created g lm (k + 1) (p.createOne k (.gather k)) := by
  have hnext := h.quiet.nextTask
  have hquiet := h.quiet.create (.gather k)
  refine h.extend ⟨p.system.nextTask, p.system.nextTask, p.system.nextTask⟩ [.gather k]
    ⟨hquiet.run, hquiet.calls, hquiet.uncalled, hquiet.length⟩ rfl rfl
    (List.subset_cons_self _ _) hkind ?_ ?_ ?_
  · refine ⟨?_, ?_, Or.inl rfl, Or.inl rfl⟩
    · intro place
      rw [hnext]
      cases place <;> simp [Ids.get, commandAt, Plan.createOne, Plan.create, Plan.setIds]
    · intro place place' _
      cases place <;> cases place' <;> rfl
  · intro i c hc
    rw [hnext]
    match i with
    | 0 => exact ⟨.entry, (Option.some.inj hc).symm, rfl⟩
    | i + 1 => simp at hc
  · intro a b hdep
    exact Or.inl (List.mem_of_ne_of_mem (by simp) hdep)

theorem Created.createPhysicalTasks (h : Created g lm k p) (hkind : g.kindOf k = some kind) :
    Created g lm (k + 1) (p.createPhysicalTasks k kind) := by
  cases kind with
  | gather => exact h.createOne hkind
  | valueSort => exact h.createTwo hkind
  | _ =>
    simp only [Plan.createPhysicalTasks]
    have hthree := h.createThree hkind (fun place place' heq => by
        cases place <;> cases place' <;> simp [commandAt] at heq ⊢)
      (by simp [commandAt, Command.level]) (by simp [commandAt, Command.level])
    exact hthree

theorem created_initial : Created g lm 0 (Plan.initial : Plan n) := by
  refine ⟨Quiet.initial, fun l hl => absurd hl (Nat.not_lt_zero l), ?_, ?_⟩
  · intro t c hc
    simp [Plan.initial] at hc
  · intro a b hdep
    simp [Plan.initial, System.initial] at hdep

theorem created_tasks (g : LogicalGraph) (lm : LocalityManager) :
    Created g lm g.tasks.length (g.tasks.zipIdx.foldl
      (fun p (t, l) => p.createPhysicalTasks l t.kind) (Plan.initial : Plan n)) := by
  have hrun : ∀ (tasks : List LogicalTask) (k : ℕ) (p : Plan n), Created g lm k p →
      (∀ i t, tasks[i]? = some t → g.kindOf (k + i) = some t.kind) →
      Created g lm (k + tasks.length)
        ((tasks.zipIdx k).foldl (fun p (t, l) => p.createPhysicalTasks l t.kind) p) := by
    intro tasks
    induction tasks with
    | nil => exact fun _ _ h _ => h
    | cons t tasks ih =>
      intro k p h hkinds
      have hstep := h.createPhysicalTasks (hkinds 0 t rfl)
      have hrest := ih (k + 1) _ hstep fun i u hu => by
        have hkind := hkinds (i + 1) u (by simpa using hu)
        rwa [Nat.add_assoc, Nat.add_comm 1 i]
      rwa [List.length_cons, Nat.add_comm tasks.length 1, ← Nat.add_assoc]
  have hall := hrun g.tasks 0 Plan.initial created_initial fun i t ht => by
    simp [LogicalGraph.kindOf, ht]
  rwa [Nat.zero_add] at hall

/-! The edges. -/

theorem Created.addEdge (h : Created g lm g.tasks.length p) {e : Edge} (he : e ∈ g.edges)
    (hproducer : e.producer.1 < g.tasks.length) (hconsumer : e.consumer.1 < g.tasks.length) :
    Created g lm g.tasks.length (p.addEdge e) ∧
      (p.addEdge e).system.log = .dependency (p.ids e.producer.1).terminal
        ((p.ids e.consumer.1).get e.physicalSuccessor) :: p.system.log := by
  obtain ⟨kind, hkind⟩ := g.kindOf_eq_some hproducer
  obtain ⟨kind', hkind'⟩ := g.kindOf_eq_some hconsumer
  have hterminal : p.commands[(p.ids e.producer.1).terminal]? = _ :=
    (h.laid _ hproducer kind hkind).command .terminal
  have hsuccessor := (h.laid _ hconsumer kind' hkind').command e.physicalSuccessor
  obtain ⟨hquiet, hlog⟩ := h.quiet.depend (List.getElem?_eq_some_iff.mp hterminal).1
    (List.getElem?_eq_some_iff.mp hsuccessor).1
  refine ⟨⟨hquiet, ?_, h.fixed, ?_⟩, hlog⟩
  · intro l hl k hk
    have hmono := (h.laid l hl k hk).mono
      (List.subset_cons_self (.dependency (p.ids e.producer.1).terminal
        ((p.ids e.consumer.1).get e.physicalSuccessor)) _) []
    rw [List.append_nil, ← hlog] at hmono
    exact hmono
  · intro a b hdep
    rw [Plan.addEdge, hlog] at hdep
    rcases List.mem_cons.mp hdep with heq | hdep
    · cases heq
      refine ⟨_, _, hterminal, hsuccessor, Or.inr ⟨e, he, ?_, ?_⟩⟩
      · rw [owner_commandAt]
      · rw [owner_commandAt]
    · exact h.ordered a b hdep

/-- The edges have been turned into dependencies. -/
structure Linked (g : LogicalGraph) (lm : LocalityManager) (edges : List Edge) (p : Plan n) :
    Prop where
  created : Created g lm g.tasks.length p
  edges : ∀ e ∈ edges, .dependency (p.ids e.producer.1).terminal
    ((p.ids e.consumer.1).get e.physicalSuccessor) ∈ p.system.log

theorem linked_edges (h : Created g lm g.tasks.length p)
    (hends : ∀ e ∈ g.edges, e.producer.1 < g.tasks.length ∧ e.consumer.1 < g.tasks.length) :
    Linked g lm g.edges (g.edges.foldl Plan.addEdge p) := by
  have hrun : ∀ (rest done : List Edge) (p : Plan n), Linked g lm done p →
      (∀ e ∈ rest, e ∈ g.edges) → Linked g lm (done ++ rest) (rest.foldl Plan.addEdge p) := by
    intro rest
    induction rest with
    | nil =>
      intro done p h _
      rw [List.append_nil]
      exact h
    | cons e rest ih =>
      intro done p h hsub
      have he := hsub e List.mem_cons_self
      obtain ⟨hcreated, hlog⟩ := h.created.addEdge he (hends e he).1 (hends e he).2
      have hnext := ih (done ++ [e]) (p.addEdge e) ⟨hcreated, fun e' he' => ?_⟩
        fun e' he' => hsub e' (List.mem_cons_of_mem e he')
      · rwa [List.append_assoc] at hnext
      · rw [hlog]
        rcases List.mem_append.mp he' with hold | hnew
        · exact List.mem_cons_of_mem _ (h.edges e' hold)
        · rw [List.mem_singleton.mp hnew]
          exact List.mem_cons_self
  have hall := hrun g.edges [] p ⟨h, by simp⟩ fun _ he => he
  rwa [List.nil_append] at hall

end Create

/-! The commits. -/

/-- No call is in progress and nothing has been taken. -/
structure Calm (lm : LocalityManager) (p : Plan n) : Prop where
  run : SchedulerCalls.Run lm p.system
  calls : ∀ th, p.system.calls th = .idle
  untaken : ∀ t, .taken t ∉ p.system.log
  length : p.commands.length = p.system.scheduler.createdTaskCount

section Commit

variable {g : LogicalGraph} {lm : LocalityManager} {p p' : Plan n} (draws : TaskId → WorkerId)

theorem Quiet.calm (h : Quiet lm p) : Calm lm p := by
  have hinv := run_inv h.run
  refine ⟨h.run, h.calls, fun t ht => ?_, h.length⟩
  exact h.uncalled t (hinv.taken_called ht)

/-- What a number of commits leaves as it was, and what it adds. -/
structure Commits (lm : LocalityManager) (p p' : Plan n) (tasks : List TaskId) : Prop where
  calm : Calm lm p'
  commands : p'.commands = p.commands
  ids : p'.ids = p.ids
  log : p.system.log ⊆ p'.system.log
  dependency : ∀ a b, .dependency a b ∈ p'.system.log → .dependency a b ∈ p.system.log
  called : ∀ t, .commitCalled t ∈ p'.system.log ↔ .commitCalled t ∈ p.system.log ∨ t ∈ tasks

theorem Calm.commit (h : Calm lm p) {t : TaskId} (ht : t < p.commands.length)
    (honce : .commitCalled t ∉ p.system.log) : Commits lm p (p.commit lm draws t) [t] := by
  have hcreated : .created t ∈ p.system.log :=
    ((run_inv h.run).log.created_iff t).mpr (h.length ▸ ht)
  have hbegin := h.run.next (.commitTask p.system none t (h.calls none) hcreated honce)
  have hcall : (p.system.beginCommit none t).calls none = .committing t := by
    simp [System.beginCommit]
  obtain ⟨pushes, hpushes, hlog, hcalls, hcount⟩ :=
    (run_inv hbegin).commitDecrement_effect lm (draws t) hcall
  have hmem : ∀ e : Event, (∀ u q, e ≠ .pushed u q) → (e ∈ (p.commit lm draws t).system.log ↔
      e = .committed t ∨ e = .commitCalled t ∨ e ∈ p.system.log) := by
    intro e he
    rw [Plan.commit, hlog, hpushes.mem_append he, List.mem_cons]
    exact or_congr_right List.mem_cons
  refine ⟨⟨hbegin.next (.commitDecrement _ none t (draws t) hcall), ?_, ?_, ?_⟩, rfl, rfl, ?_, ?_, ?_⟩
  · intro th
    simp only [Plan.commit, hcalls]
    by_cases hth : th = none
    · rw [hth, Function.update_self]
    · rw [Function.update_of_ne hth]
      simp only [System.beginCommit, Function.update_of_ne hth]
      exact h.calls th
  · intro u hu
    simpa [h.untaken u] using (hmem (.taken u) (by simp)).mp hu
  · simp only [Plan.commit, hcount]
    exact h.length
  · intro e he
    rw [Plan.commit, hlog]
    exact List.mem_append_right _ (List.mem_cons_of_mem _ (List.mem_cons_of_mem _ he))
  · intro a b hdep
    simpa using (hmem (.dependency a b) (by simp)).mp hdep
  · intro u
    rw [hmem (.commitCalled u) (by simp), List.mem_singleton]
    simp [or_comm]

theorem Commits.trans {p'' : Plan n} {tasks tasks' : List TaskId} (h : Commits lm p p' tasks)
    (h' : Commits lm p' p'' tasks') : Commits lm p p'' (tasks ++ tasks') := by
  refine ⟨h'.calm, h'.commands.trans h.commands, h'.ids.trans h.ids,
    List.Subset.trans h.log h'.log, fun a b hdep => h.dependency a b (h'.dependency a b hdep), ?_⟩
  intro t
  rw [h'.called, h.called, List.mem_append, or_assoc]

theorem Calm.commits (h : Calm lm p) : Commits lm p p [] :=
  ⟨h, rfl, rfl, List.Subset.refl _, fun _ _ hdep => hdep, by simp⟩

theorem Calm.commitAll {tasks : List TaskId} (h : Calm lm p)
    (hlt : ∀ t ∈ tasks, t < p.commands.length) (hnodup : tasks.Nodup)
    (honce : ∀ t ∈ tasks, .commitCalled t ∉ p.system.log) :
    Commits lm p (tasks.foldl (fun p t => p.commit lm draws t) p) tasks := by
  induction tasks generalizing p with
  | nil => exact h.commits
  | cons t tasks ih =>
    have hhead := h.commit draws (hlt t List.mem_cons_self) (honce t List.mem_cons_self)
    have htail := ih hhead.calm (fun u hu => hlt u (List.mem_cons_of_mem t hu))
      (List.nodup_cons.mp hnodup).2 fun u hu hcalled => by
        rcases (hhead.called u).mp hcalled with hold | hsame
        · exact honce u (List.mem_cons_of_mem t hu) hold
        · rw [List.mem_singleton.mp hsame] at hu
          exact (List.nodup_cons.mp hnodup).1 hu
    exact hhead.trans htail

/-- The places of a kind's tasks, each once. -/
def places : TaskKind → List PhysicalSuccessor
  | .inputProcess .. | .oneToOneProcess .. | .scatterGatherProcess .. | .shuffle _ =>
    [.entry, .barrier, .terminal]
  | .gather => [.entry]
  | .valueSort _ => [.entry, .terminal]

theorem commitPhysicalTasks_eq (p : Plan n) (l : ℕ) (kind : TaskKind) :
    p.commitPhysicalTasks lm draws l kind =
      ((places kind).map (p.ids l).get).foldl (fun p t => p.commit lm draws t) p := by
  cases kind <;> rfl

theorem exists_place (kind : TaskKind) (l : ℕ) (place : PhysicalSuccessor) :
    ∃ place' ∈ places kind, commandAt kind l place = commandAt kind l place' := by
  cases kind <;> cases place <;> simp [places, commandAt]

theorem commandAt_injOn (kind : TaskKind) (l : ℕ) {place place' : PhysicalSuccessor}
    (h : place ∈ places kind) (h' : place' ∈ places kind)
    (heq : commandAt kind l place = commandAt kind l place') : place = place' := by
  cases kind <;> cases place <;> cases place' <;> simp [places, commandAt] at *

theorem nodup_places (kind : TaskKind) : (places kind).Nodup := by
  cases kind <;> simp [places]

/-- The tasks of the logical tasks before `k` have been committed. -/
structure Committed (g : LogicalGraph) (lm : LocalityManager) (k : ℕ) (p p' : Plan n) : Prop where
  commits : ∃ tasks, Commits lm p p' tasks
  called : ∀ t c, p.commands[t]? = some c → (.commitCalled t ∈ p'.system.log ↔ c.owner < k)

theorem Committed.next {k : ℕ} {kind : TaskKind} (h : Committed g lm k p p')
    (hcreated : Created g lm g.tasks.length p) (hkind : g.kindOf k = some kind) :
    Committed g lm (k + 1) p (p'.commitPhysicalTasks lm draws k kind) := by
  obtain ⟨tasks, hcommits⟩ := h.commits
  have hk := g.lt_of_kindOf hkind
  have hlaid := hcreated.laid k hk kind hkind
  have hown : ∀ place, (commandAt kind k place).owner = k := owner_commandAt kind k
  have hnew := @Calm.commitAll _ _ _ draws ((places kind).map (p'.ids k).get) hcommits.calm ?_ ?_ ?_
  · rw [commitPhysicalTasks_eq]
    refine ⟨⟨_, hcommits.trans hnew⟩, ?_⟩
    intro t c hc
    rw [hnew.called, h.called t c hc, hcommits.ids]
    constructor
    · rintro (hlt | hmem)
      · exact Nat.lt_succ_of_lt hlt
      · obtain ⟨place, -, rfl⟩ := List.mem_map.mp hmem
        rw [hlaid.command place, Option.some.injEq] at hc
        rw [← hc, hown]
        exact Nat.lt_succ_self k
    · intro hlt
      rcases Nat.lt_succ_iff_lt_or_eq.mp hlt with hlt | heq
      · exact Or.inl hlt
      · right
        obtain ⟨-, kind', place, hkind', hcommand, hid⟩ := hcreated.fixed t c hc
        rw [heq, hkind, Option.some.injEq] at hkind'
        subst hkind'
        obtain ⟨place', hplace', hsame⟩ := exists_place kind k place
        refine List.mem_map.mpr ⟨place', hplace', ?_⟩
        rw [hid, heq]
        exact (hlaid.merged place place' hsame).symm
  · intro t ht
    obtain ⟨place, -, rfl⟩ := List.mem_map.mp ht
    rw [hcommits.commands, hcommits.ids]
    exact (List.getElem?_eq_some_iff.mp (hlaid.command place)).1
  · refine List.Nodup.map_on ?_ (nodup_places kind)
    intro place hplace place' hplace' heq
    rw [hcommits.ids] at heq
    have hcommand := hlaid.command place
    rw [heq, hlaid.command place', Option.some.injEq] at hcommand
    exact commandAt_injOn kind k hplace hplace' hcommand.symm
  · intro t ht
    obtain ⟨place, -, rfl⟩ := List.mem_map.mp ht
    rw [hcommits.ids, h.called _ _ (hlaid.command place), hown]
    exact Nat.lt_irrefl k

theorem committed_tasks (hcreated : Created g lm g.tasks.length p) :
    Committed g lm g.tasks.length p (g.tasks.zipIdx.foldl
      (fun p (t, l) => p.commitPhysicalTasks lm draws l t.kind) p) := by
  have hrun : ∀ (tasks : List LogicalTask) (k : ℕ) (p' : Plan n), Committed g lm k p p' →
      (∀ i t, tasks[i]? = some t → g.kindOf (k + i) = some t.kind) →
      Committed g lm (k + tasks.length) p
        ((tasks.zipIdx k).foldl (fun p (t, l) => p.commitPhysicalTasks lm draws l t.kind) p') := by
    intro tasks
    induction tasks with
    | nil => exact fun _ _ h _ => h
    | cons t tasks ih =>
      intro k p' h hkinds
      have hstep := h.next draws hcreated (hkinds 0 t rfl)
      have hrest := ih (k + 1) _ hstep fun i u hu => by
        have hkind := hkinds (i + 1) u (by simpa using hu)
        rwa [Nat.add_assoc, Nat.add_comm 1 i]
      rwa [List.length_cons, Nat.add_comm tasks.length 1, ← Nat.add_assoc]
  have hall := hrun g.tasks 0 p ⟨⟨[], hcreated.quiet.calm.commits⟩, ?_⟩ fun i t ht => by
    simp [LogicalGraph.kindOf, ht]
  · rwa [Nat.zero_add] at hall
  · intro t c _
    simp [hcreated.quiet.uncalled t]

end Commit

/-- What the workers find. -/
structure SetUp (g : LogicalGraph) (lm : LocalityManager) (p : Plan n) : Prop where
  calm : Calm lm p
  called : ∀ t, t < p.commands.length → .commitCalled t ∈ p.system.log
  laid : ∀ l kind, g.kindOf l = some kind → LaidOut p.system.log p.commands (p.ids l) l kind
  fixed : ∀ t c, p.commands[t]? = some c → ∃ kind place,
    g.kindOf c.owner = some kind ∧ c = commandAt kind c.owner place ∧ t = (p.ids c.owner).get place
  ordered : ∀ a b, .dependency a b ∈ p.system.log → Ordered g p.commands a b
  edges : ∀ e ∈ g.edges, .dependency (p.ids e.producer.1).terminal
    ((p.ids e.consumer.1).get e.physicalSuccessor) ∈ p.system.log

theorem setUp_spec {g : LogicalGraph} (lm : LocalityManager) (draws : TaskId → WorkerId)
    (hends : ∀ e ∈ g.edges, e.producer.1 < g.tasks.length ∧ e.consumer.1 < g.tasks.length) :
    SetUp g lm (Plan.setUp g lm draws : Plan n) := by
  have hlinked := linked_edges (created_tasks (n := n) g lm) hends
  have hcreated := hlinked.created
  have hcommitted := committed_tasks draws hcreated
  obtain ⟨tasks, hcommits⟩ := hcommitted.commits
  refine ⟨hcommits.calm, ?_, ?_, ?_, ?_, ?_⟩
  · intro t ht
    rw [Plan.setUp, hcommits.commands] at ht
    have hc := List.getElem?_eq_getElem ht
    exact (hcommitted.called t _ hc).mpr (hcreated.fixed t _ hc).1
  · intro l kind hkind
    have hmono := (hcreated.laid l (g.lt_of_kindOf hkind) kind hkind).mono hcommits.log []
    rw [List.append_nil, ← hcommits.commands, ← hcommits.ids] at hmono
    exact hmono
  · intro t c hc
    rw [Plan.setUp, hcommits.commands] at hc
    rw [Plan.setUp, hcommits.ids]
    exact (hcreated.fixed t c hc).2
  · intro a b hdep
    rw [Plan.setUp, hcommits.commands]
    exact hcreated.ordered a b (hcommits.dependency a b hdep)
  · intro e he
    rw [Plan.setUp, hcommits.ids]
    exact hcommits.log (hlinked.edges e he)

end M3bp.Engine
