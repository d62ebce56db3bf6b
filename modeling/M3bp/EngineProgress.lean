import M3bp.EngineGates
import M3bp.EngineMoves

/-!
The engine does not get stuck. The recorded dependencies follow the order of the logical
tasks and of the tasks within one of them. When nothing is being executed, the first
unfinished task in that order waits for no task that is still in a gate, so it is in a
queue.
-/
namespace M3bp.Engine

open Finset SchedulerCalls Transition ProcessGate

variable {n : ℕ} {g : LogicalGraph} {lm : LocalityManager} {s : State n} {l : ℕ} {t : TaskId}
  {c : Command} {r : ℕ → ℕ}

/-- A position of the tasks in the order of the logical tasks. -/
def taskRank (r : ℕ → ℕ) (s : State n) (t : TaskId) : ℕ :=
  (s.commands[t]?).elim 0 fun c => 5 * r c.owner + c.level

theorem taskRank_eq (r : ℕ → ℕ) (hc : s.commands[t]? = some c) :
    taskRank r s t = 5 * r c.owner + c.level := by
  rw [taskRank, hc]
  rfl

theorem Command.level_lt (c : Command) : c.level < 5 := by
  cases c with
  | empty l place => cases place <;> simp [Command.level]
  | _ => simp [Command.level]

theorem Inv.taskRank_lt (h : Inv g lm s) (hr : ∀ a b, g.Feeds a b → r a < r b) {a b : TaskId}
    (hdep : .dependency a b ∈ s.system.log) : taskRank r s a < taskRank r s b := by
  obtain ⟨c, d, hc, hd, horder⟩ := h.ordered a b hdep
  rw [taskRank_eq r hc, taskRank_eq r hd]
  rcases horder with ⟨howner, hlevel⟩ | ⟨e, he, hproducer, hconsumer⟩
  · rw [howner]
    omega
  · have hlt := hr c.owner d.owner ⟨e, he, hproducer, hconsumer⟩
    have hlevel := c.level_lt
    omega

theorem Shape.exists_rank {config : Configuration} (h : Shape config g) :
    ∃ r : ℕ → ℕ, ∀ a b, g.Feeds a b → r a < r b := by
  refine h.acyclic.exists_rank ((Finset.finite_toSet (range g.tasks.length)).subset ?_)
  rintro a ⟨b, e, he, rfl, -⟩
  exact mem_coe.mpr (mem_range.mpr (h.endpoints e he).1)

/-- The physical tasks wait for one another without a cycle. -/
theorem Inv.acyclic_recorded {config : Configuration} (h : Inv g lm s) (hshape : Shape config g) :
    Acyclic (Recorded s.system.log) := by
  obtain ⟨r, hr⟩ := hshape.exists_rank
  exact Acyclic.of_rank (taskRank r s) fun a b hdep => h.taskRank_lt hr hdep

/-! The finalizers come from the barrier. -/

/-- Only the barrier of a process creates its finalizers, one for a worker. -/
def FromBarrier (n : ℕ) (c : Command) : Op → Prop
  | .createFinalizer _ worker => worker < n
  | .spawn (.threadLocalFinalize l worker) | .link _ (.threadLocalFinalize l worker) _ =>
    c = .processBarrier l ∧ worker < n
  | _ => True

theorem fromBarrier_commitFragment (g : LogicalGraph) (producer : PortKey) (p : ℕ) (o : Object) :
    ∀ op ∈ commitFragment g producer p o, FromBarrier n c op := by
  intro op hop
  obtain ⟨x, -, rfl⟩ := List.mem_map.mp hop
  trivial

theorem Performs.fromBarrier {w : Fin n} {op : Op} {e : Effect} (h : Performs g s w op e)
    {log : List Event} {commands : List Command} {ids : ℕ → Ids}
    (hfits : Fits g log commands ids t c op) (hop : FromBarrier n c op) :
    ∀ op' ∈ e.next, FromBarrier n c op' := by
  have hcommit := @fromBarrier_commitFragment n c g
  cases h with
  | step op choice hoption =>
    cases op with
    | prepare t' c' =>
      cases c' with
      | shuffleBarrier l =>
        simp only [effect, body]
        split <;> simp +contextual [or_imp, FromBarrier]
      | _ => simp +contextual [effect, body, FromBarrier]
    | createFinalizer l worker =>
      have hc : c = .processBarrier l := hfits
      have hworker : worker < n := hop
      simp only [effect]
      split <;> simp [FromBarrier, hc, hworker]
    | spawn c' =>
      intro op' hop'
      rw [List.mem_singleton.mp hop']
      cases c' <;> exact hop
    | sortRecords l p => exact hcommit _ p _
    | sortValues l p => exact hcommit _ p _
    | runGather l inputs =>
      intro op' hop'
      rcases List.mem_append.mp hop' with hop' | hop'
      · exact hcommit _ 0 _ op' hop'
      · rw [List.mem_singleton.mp hop']
        trivial
    | deliver x p o =>
      simp only [effect, receiveFragment, receiveProcessFragment]
      split <;> (try split) <;> simp [FromBarrier]
    | link t' c' deps =>
      cases deps with
      | cons d deps =>
        intro op' hop'
        rw [List.mem_singleton.mp hop']
        cases c' <;> exact hop
      | nil =>
        simp only [effect, commitTask]
        split <;> simp +contextual [FromBarrier]
    | _ =>
      simp only [effect]
      (try split) <;> simp +contextual [FromBarrier]
  | flush l callback port recordCount o hport hbuffer =>
    intro op' hop'
    rcases List.mem_append.mp hop' with hop' | hop'
    · split at hop'
      · exact hcommit _ 0 o op' hop'
      · cases hop'
    · rw [List.mem_singleton.mp hop']
      trivial
  | _ =>
    intro op' hop'
    rw [List.mem_singleton.mp hop']
    trivial

theorem Inv.fromBarrier_next (h : Inv g lm s) {w : Fin n} {op : Op} {rest : List Op} {e : Effect}
    (hrunning : (s.workers w).activity = .running t) (hc : s.commands[t]? = some c)
    (hprogram : (s.workers w).program = op :: rest) (heffect : Performs g s w op e)
    (hop : FromBarrier n c op) : ∀ op' ∈ e.next, FromBarrier n c op' :=
  heffect.fromBarrier (h.fits_of_mem hrunning hc (mem_program hprogram)) hop

theorem run_fromBarrier (hwaits : Waits g) (hrun : Run g lm s) : Operations (FromBarrier n) s :=
  run_operations hwaits (fun _ _ => trivial)
    (fun _ _ _ _ _ _ _ h hrunning hc hprogram heffect hop =>
      h.fromBarrier_next hrunning hc hprogram heffect hop) hrun

/-- A finalizer exists when the barrier of its process has been taken. -/
theorem run_finalizer (hwaits : Waits g) (hrun : Run g lm s) (l : ℕ) (worker : WorkerId)
    (hc : s.commands[t]? = some (.threadLocalFinalize l worker)) :
    worker < n ∧ .taken (s.ids l).barrier ∈ s.system.log := by
  refine @run_induction n g lm s hwaits (fun s => ∀ t,
    s.commands[t]? = some (.threadLocalFinalize l worker) →
      worker < n ∧ .taken (s.ids l).barrier ∈ s.system.log) ?_ ?_ ?_ hrun t hc
  · intro draws t hc
    have h := @setUp_spec n g lm draws hwaits.endpoints
    obtain ⟨kind, place, -, hcommand, -⟩ := h.fixed t _ hc
    cases kind <;> cases place <;> cases hcommand
  · intro s w t op rest e hrun h ih hrunning hcall hprogram heffect u hu
    have hlog : (s.apply w rest e).system.log = e.action.events s.system ++ s.system.log :=
      (performed h.run hcall (h.action_valid hrunning hprogram heffect)).log
    have hmem : op ∈ (s.workers w).program := mem_program hprogram
    have hgoal : worker < n ∧ .taken (s.ids l).barrier ∈ s.system.log := by
      rcases Nat.lt_or_ge u s.commands.length with hlt | hge
      · refine ih u ?_
        simp only [State.apply, List.getElem?_append_left hlt] at hu
        exact hu
      · simp only [State.apply, List.getElem?_append_right hge] at hu
        have hnew := List.mem_of_getElem? hu
        rcases heffect.action with hnone | ⟨c, choice, rfl, -, rfl⟩ | ⟨t', c', d, deps, rfl, rfl⟩ |
            ⟨t', rfl, rfl⟩
        · rw [hnone] at hnew
          cases hnew
        · obtain rfl := List.mem_singleton.mp hnew
          obtain ⟨-, -, -, c, hc, -⟩ := h.running w t hrunning
          obtain ⟨rfl, hworker⟩ := run_fromBarrier hwaits hrun w t c hrunning hc _ hmem
          obtain ⟨kind, place, -, hcommand, hid⟩ := h.static.fixed hc fun kind => by
            cases kind <;> rfl
          obtain ⟨-, rfl⟩ := place_of_processBarrier hcommand
          have htaken := (h.running w t hrunning).1
          rw [hid] at htaken
          exact ⟨hworker, htaken⟩
        · cases hnew
        · cases hnew
    rw [hlog]
    exact ⟨hgoal.1, List.mem_append_right _ hgoal.2⟩
  · intro s s' _ ih hbetween u hu
    rw [hbetween.commands] at hu
    rw [hbetween.ids]
    exact ⟨(ih u hu).1, hbetween.log (ih u hu).2⟩

/-! While nothing is being executed. -/

/-- What has been taken is through with its completion. -/
def Quiescent (s : State n) : Prop := ∀ t, .taken t ∈ s.system.log → .finished t ∈ s.system.log

section Quiescent

theorem Inv.not_running (h : Inv g lm s) (hquiet : Quiescent s) (w : Fin n) (t : TaskId) :
    (s.workers w).activity ≠ .running t := by
  intro hrunning
  obtain ⟨htaken, hlive, -⟩ := h.running w t hrunning
  exact hlive ((run_inv h.run).log.finished_completed t (hquiet t htaken))

theorem Inv.program_nil (h : Inv g lm s) (hquiet : Quiescent s) (w : Fin n) :
    (s.workers w).program = [] := h.program_of_not_running (h.not_running hquiet w)

theorem Inv.inPrograms_eq_zero (h : Inv g lm s) (hquiet : Quiescent s) (f : Op → ℕ) :
    s.inPrograms f = 0 := Finset.sum_eq_zero fun w _ => by
  rw [h.program_nil hquiet w]
  rfl

theorem Inv.not_draining (h : Inv g lm s) (hquiet : Quiescent s) (th : Option (Fin n)) (t : TaskId)
    (rest : List TaskId) : s.system.calls th ≠ .draining t rest := by
  intro hcall
  have hlog := (run_inv h.run).log
  obtain ⟨hcompleted, hlive, -⟩ := hlog.draining th t rest hcall
  exact hlive (hquiet t (hlog.completed_taken t hcompleted))

theorem Inv.committed_of_called (h : Inv g lm s) (hquiet : Quiescent s)
    (hcalled : .commitCalled t ∈ s.system.log) : .committed t ∈ s.system.log := by
  refine ((run_inv h.run).log.called_progress t hcalled).resolve_right ?_
  rintro ⟨_ | w, hcall⟩
  · rw [h.executor] at hcall
    cases hcall
  · cases hactivity : (s.workers w).activity with
    | idle =>
      rw [(h.idle w (Or.inl hactivity)).2] at hcall
      cases hcall
    | returned =>
      rw [(h.idle w (Or.inr hactivity)).2] at hcall
      cases hcall
    | running u => exact h.not_running hquiet w u hactivity
    | completing u =>
      obtain ⟨-, rest, hdraining⟩ := h.completing w u hactivity
      exact h.not_draining hquiet _ u rest hdraining

/-- A task that has not been committed waits in a gate. -/
theorem Inv.parked_of_uncalled (h : Inv g lm s) (hquiet : Quiescent s) (ht : t < s.commands.length)
    (hcalled : .commitCalled t ∉ s.system.log) : ∃ l, t ∈ (s.locals l).gate.taskQueue := by
  have hcommits := h.commits t
  rw [State.commits, h.inPrograms_eq_zero hquiet, called, if_neg hcalled, issued, if_pos ht] at hcommits
  obtain ⟨l, -, hl⟩ := Counting.exists_pos_of_sum_pos (show 0 < s.inLocals g fun _ => Local.waiting t by
    omega)
  exact ⟨l, List.count_pos_iff.mp hl⟩

/-- While commands wait in a gate, another command of the processor has been committed and
has not been taken. -/
theorem Inv.exists_called_of_parked (h : Inv g lm s) (hquiet : Quiescent s)
    (hgates : ∀ l, GateInv s l (gateLimit g l)) (hqueue : (s.locals l).gate.taskQueue ≠ [])
    (hlimit : gateLimit g l ≠ 0) :
    ∃ t c, s.commands[t]? = some c ∧ c.gated l = 1 ∧ .commitCalled t ∈ s.system.log ∧
      .taken t ∉ s.system.log := by
  by_contra hnone
  push Not at hnone
  have hslots := (hgates l).slots
  have hparked := (hgates l).parked hqueue
  rw [unnotified, State.tokens, h.inPrograms_eq_zero hquiet, h.inPrograms_eq_zero hquiet, hparked,
    UInt64.toNat_zero] at hslots
  have hle : s.inCommands (Command.gated l) ≤ (s.locals l).gate.taskQueue.length := by
    rw [← (hgates l).sum_count]
    refine Finset.sum_le_sum fun t ht => ?_
    obtain ⟨c, hc⟩ : ∃ c, s.commands[t]? = some c :=
      ⟨_, List.getElem?_eq_getElem (mem_range.mp ht)⟩
    rw [hc, Option.elim_some]
    by_cases htaken : .taken t ∈ s.system.log
    · rw [untaken, if_pos htaken, Nat.zero_mul]
      exact Nat.zero_le _
    rcases gated_eq_zero_or_one c l with hzero | hone
    · rw [hzero]
      exact Nat.zero_le _
    · have hcalled : .commitCalled t ∉ s.system.log := fun hcalled =>
        htaken (hnone t c hc hone hcalled)
      obtain ⟨l', hl'⟩ := h.parked_of_uncalled hquiet (mem_range.mp ht) hcalled
      obtain ⟨c', hc', hgated⟩ := (hgates l').members t hl'
      rw [hc, Option.some.injEq] at hc'
      subst hc'
      have howner : l = l' := (gated_eq_one.mp hone).2.symm.trans (gated_eq_one.mp hgated).2
      rw [← howner] at hl'
      have hpos := List.count_pos_iff.mpr hl'
      rw [untaken, if_neg htaken, hone]
      exact hpos
  have hpositive : 0 < (gateLimit g l).toNat := by
    refine Nat.pos_of_ne_zero fun hzero => hlimit ?_
    exact UInt64.toNat_inj.mp hzero
  omega

/-- A run of a processor comes before its barrier, a finalizer after it. -/
theorem level_of_gated (hgated : c.gated l = 1) :
    c.level = 1 ∧ c.before? = some .barrier ∨
      c.level = 3 ∧ ∃ worker, c = .threadLocalFinalize l worker := by
  obtain ⟨hprocess, howner⟩ := gated_eq_one.mp hgated
  cases c with
  | inputRun | oneToOneRun | scatterGatherRun => exact Or.inl ⟨rfl, rfl⟩
  | threadLocalFinalize l' worker =>
    obtain rfl : l' = l := howner
    exact Or.inr ⟨rfl, worker, rfl⟩
  | _ => cases hprocess

/-- A task that waits in its gate does not come after all the committed ones. -/
theorem Inv.rank_lt_of_parked (h : Inv g lm s) (hwaits : Waits g) (hrun : Run g lm s)
    (hquiet : Quiescent s) (hgates : ∀ l, GateInv s l (gateLimit g l)) (r : ℕ → ℕ)
    (hlimit : gateLimit g l ≠ 0) {p : TaskId} (hparked : p ∈ (s.locals l).gate.taskQueue)
    (hlive : .completed p ∉ s.system.log) :
    ∃ t, .commitCalled t ∈ s.system.log ∧ .taken t ∉ s.system.log ∧
      taskRank r s t ≤ taskRank r s p := by
  obtain ⟨t, c, hc, hgated, hcalled, htaken⟩ :=
    h.exists_called_of_parked hquiet hgates (List.ne_nil_of_mem hparked) hlimit
  refine ⟨t, hcalled, htaken, ?_⟩
  obtain ⟨c', hc', hgated'⟩ := (hgates l).members p hparked
  have howner := (gated_eq_one.mp hgated).2
  have howner' := (gated_eq_one.mp hgated').2
  rw [taskRank_eq r hc, taskRank_eq r hc', howner, howner']
  rcases level_of_gated hgated' with ⟨hlevel', hbefore⟩ | ⟨hlevel', -⟩
  · rcases level_of_gated hgated with ⟨hlevel, -⟩ | ⟨-, worker, rfl⟩
    · omega
    · -- the barrier has been taken, so a run that waits for it in vain is over
      exfalso
      obtain ⟨-, hbarrier⟩ := run_finalizer hwaits hrun l worker hc
      have hreleased := (run_inv h.run).log.taken_released _ hbarrier
      rcases h.linked p c' .barrier hc' hbefore with hdep | ⟨w, deps, hop, -⟩
      · rw [howner'] at hdep
        exact hlive ((run_inv h.run).predecessor_completed hreleased hdep)
      · rw [h.program_nil hquiet w] at hop
        cases hop
  · rcases level_of_gated hgated with ⟨hlevel, -⟩ | ⟨hlevel, -⟩
    · omega
    · omega

/-- While something is unfinished and nothing is being executed, a task is in a queue. -/
theorem exists_queued_of_unfinished {config : Configuration} (hshape : Shape config g)
    (hrun : Run g lm s) (hquiet : Quiescent s)
    (hlimits : ∀ l, (s.locals l).gate.taskQueue ≠ [] → gateLimit g l ≠ 0)
    (hunfinished : s.system.scheduler.unfinishedTaskCount ≠ 0) :
    ∃ q, s.system.scheduler.queues q ≠ [] := by
  have h := run_invariant hshape.waits hrun
  have hinv := run_inv h.run
  have hgates := run_gateInv hshape.waits hrun
  obtain ⟨r, hr⟩ := hshape.exists_rank
  let tasks := unfinishedTasks s.system.scheduler.createdTaskCount s.system.log
  have hmem : ∀ {t}, .commitCalled t ∈ s.system.log → .finished t ∉ s.system.log → t ∈ tasks := by
    intro t hcalled hlive
    have hlt := (hinv.log.created_iff t).mp (hinv.log.called_created t hcalled)
    exact mem_filter.mpr ⟨mem_range.mpr hlt, hcalled, hlive⟩
  have hne : tasks.Nonempty := by
    rw [← Finset.card_ne_zero]
    intro hzero
    have heq := hinv.count.unfinished_eq
    have hcard : (unfinishedTasks s.system.scheduler.createdTaskCount s.system.log).card = 0 := hzero
    rw [hcard] at heq
    exact hunfinished heq
  obtain ⟨m, hm, hmin⟩ := Finset.exists_min_image tasks (taskRank r s) hne
  obtain ⟨-, hcalled, hlive⟩ := mem_filter.mp hm
  have hpred : ∀ p, .dependency p m ∈ s.system.log → .completed p ∈ s.system.log := by
    intro p hdep
    by_contra hp
    have hlt := h.taskRank_lt hr hdep
    obtain ⟨t, ht, hle⟩ : ∃ t ∈ tasks, taskRank r s t ≤ taskRank r s p := by
      by_cases hcalled' : .commitCalled p ∈ s.system.log
      · exact ⟨p, hmem hcalled' fun hdone => hp (hinv.log.finished_completed p hdone), Nat.le_refl _⟩
      · obtain ⟨c, d, hc, -⟩ := h.ordered p m hdep
        obtain ⟨l, hl⟩ := h.parked_of_uncalled hquiet (List.getElem?_eq_some_iff.mp hc).1 hcalled'
        obtain ⟨t, hcalled'', htaken, hle⟩ := h.rank_lt_of_parked hshape.waits hrun hquiet hgates r
          (hlimits l (List.ne_nil_of_mem hl)) hl hp
        exact ⟨t, hmem hcalled'' fun hdone => htaken
          (hinv.finished_taken hdone), hle⟩
    have hle' := hmin t ht
    omega
  obtain ⟨q, hq⟩ := hinv.released_of_no_live_predecessor (h.committed_of_called hquiet hcalled)
    hpred (h.not_draining hquiet)
  have hqueued := hinv.data.pushed_queued q m hq fun htaken => hlive (hquiet m htaken)
  exact ⟨q, List.ne_nil_of_mem hqueued⟩

/-- Only processors have commands that go through a gate. -/
theorem Inv.processor_of_gated (h : Inv g lm s) (hc : s.commands[t]? = some c)
    (hgated : c.gated l = 1) : ∃ kind proc, g.kindOf l = some kind ∧ processor? kind = some proc := by
  obtain ⟨hprocess, rfl⟩ := gated_eq_one.mp hgated
  rcases h.static.kinds t c hc with ⟨kind, place, -, hcommand, -⟩ | ⟨kind, hkind, hcreated⟩
  · rw [hcommand] at hprocess
    cases kind <;> cases place <;> cases hprocess
  · refine ⟨kind, ?_⟩
    cases c <;> first
      | (cases hprocess; done)
      | (cases kind <;> first
          | (cases hcreated; done)
          | exact ⟨_, hkind, rfl⟩)

theorem gateLimit_eq {kind : TaskKind} {proc : Processor} (hkind : g.kindOf l = some kind)
    (hproc : processor? kind = some proc) : gateLimit g l = UInt64.ofNat proc.maxConcurrency := by
  rw [gateLimit, hkind]
  cases kind <;> cases hproc <;> rfl

/-- The processors whose commands have been created so far have a slot for them. -/
def GatesOpen (g : LogicalGraph) (s : State n) : Prop :=
  ∀ (t : TaskId) (c : Command) (kind : TaskKind) (proc : Processor), s.commands[t]? = some c →
    c.isProcessCommand = true → g.kindOf c.owner = some kind → processor? kind = some proc →
      UInt64.ofNat proc.maxConcurrency ≠ 0

theorem Inv.limit_of_gatesOpen (h : Inv g lm s) (hopen : GatesOpen g s)
    (hgates : ∀ l, GateInv s l (gateLimit g l)) (l : ℕ)
    (hqueue : (s.locals l).gate.taskQueue ≠ []) : gateLimit g l ≠ 0 := by
  obtain ⟨t, ht⟩ := List.exists_mem_of_ne_nil _ hqueue
  obtain ⟨c, hc, hgated⟩ := (hgates l).members t ht
  obtain ⟨kind, proc, hkind, hproc⟩ := h.processor_of_gated hc hgated
  obtain ⟨hprocess, rfl⟩ := gated_eq_one.mp hgated
  rw [gateLimit_eq hkind hproc]
  exact hopen t c kind proc hc hprocess hkind hproc

theorem gatesOpen_of_limits {config : Configuration} {fg : FlowGraph}
    (hbuild : GraphBuilder.buildLogicalGraph config fg = .ok g) (hmovements : fg.DefinedMovements)
    (hlimits : ∀ v ∈ fg.vertices, UInt64.ofNat v.processor.maxConcurrency ≠ 0) :
    GatesOpen g s := by
  intro t c kind proc hc hprocess hkind hproc
  obtain ⟨v, hv, rfl⟩ := processor_of_build hbuild hmovements hkind hproc
  exact hlimits v hv

/-- The engine never gets stuck: its physical tasks wait for one another without a cycle,
and while the scheduler is not finished and nothing is being executed, a task is in a queue. -/
theorem never_stuck {config : Configuration} {fg : FlowGraph} (hacyclic : Acyclic fg.Feeds)
    (hmovements : fg.DefinedMovements)
    (hlimits : ∀ v ∈ fg.vertices, UInt64.ofNat v.processor.maxConcurrency ≠ 0)
    (hbuild : GraphBuilder.buildLogicalGraph config fg = .ok g) (hrun : Run g lm s) :
    Acyclic (Recorded s.system.log) ∧
      (0 < s.system.scheduler.unfinishedTaskCount → Quiescent s →
        ∃ q, s.system.scheduler.queues q ≠ []) := by
  have hshape := shape_of_build hbuild hacyclic hmovements
  have h := run_invariant hshape.waits hrun
  refine ⟨h.acyclic_recorded hshape, fun hunfinished hquiet => ?_⟩
  have hopen : GatesOpen g s := gatesOpen_of_limits hbuild hmovements hlimits
  exact exists_queued_of_unfinished hshape hrun hquiet
    (h.limit_of_gatesOpen hopen (run_gateInv hshape.waits hrun)) hunfinished.ne'

theorem never_stuck_pipe :
    ∃ s : State 1, Run pipeGraph .default s ∧ s.system.scheduler.unfinishedTaskCount = 6 ∧
      Acyclic (Recorded s.system.log) ∧ ∃ q, s.system.scheduler.queues q ≠ [] := by
  have hlimits : ∀ v ∈ pipe.vertices, UInt64.ofNat v.processor.maxConcurrency ≠ 0 := by
    rw [vertices_pipe]
    decide
  have hrun : Run pipeGraph .default
      (State.start pipeGraph (Plan.setUp pipeGraph .default fun _ => 0) : State 1) :=
    .start ⟨_, rfl⟩
  have huntaken := (@setUp_spec 1 pipeGraph .default (fun _ => 0) (by decide)).calm.untaken
  obtain ⟨hgraph, hqueue⟩ :=
    never_stuck acyclic_pipe definedMovements_pipe hlimits build_pipe hrun
  exact ⟨_, hrun, by decide +kernel, hgraph,
    hqueue (by decide +kernel) fun t htaken => absurd htaken (huntaken t)⟩

end Quiescent

end M3bp.Engine
