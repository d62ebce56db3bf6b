import M3bp.EngineMoves
import M3bp.EnginePlacement

/-!
Where the engine comes to rest. With workers and with open gates it rests only when every
task has been executed and every processor has been finalised. Without workers nothing is
executed at all, and a command that is submitted to a gate without a slot waits for ever.
-/
namespace M3bp.Engine

open Finset SchedulerCalls Transition ProcessGate

variable {n : ℕ} {g : LogicalGraph} {lm : LocalityManager} {s s' : State n} {w : Fin n} {l : ℕ}
  {t : TaskId} {c : Command} {op : Op} {rest : List Op} {e : Effect}

/-- Every worker has returned, or it waits and finds no task that it could take. -/
def AtRest (lm : LocalityManager) (s : State n) : Prop :=
  ∀ w, (s.workers w).activity = .returned ∨ (s.workers w).activity = .idle ∧
    ∀ q t scheduler, ¬ Scheduler.Pops lm w s.system.scheduler q t scheduler

/-- Every task has been executed and every processor has been finalised. -/
structure Done (g : LogicalGraph) (s : State n) : Prop where
  executed : ∀ t < s.commands.length, .finished t ∈ s.system.log
  finalized : ∀ l kind, g.kindOf l = some kind → kind.isIntermediate = false →
    .called l .globalFinalize ∈ s.notes

/-! A worker returns when the scheduler is finished, and the scheduler stays finished. -/

theorem Inv.finished_of_taken (h : Inv g lm s) (hfinished : s.system.scheduler.isFinished = true)
    (hcalled : .commitCalled t ∈ s.system.log) :
    .finished t ∈ s.system.log ∧ .taken t ∈ s.system.log ∧ .committed t ∈ s.system.log := by
  have hinv := run_inv h.run
  have hdone := hinv.finished_of_isFinished hfinished hcalled
  have htaken := hinv.finished_taken hdone
  exact ⟨hdone, htaken,
    ((hinv.count.released_iff t).mp (hinv.log.taken_released t htaken)).1⟩

theorem Inv.finished_step (h : Inv g lm s) (hfinished : s.system.scheduler.isFinished = true)
    (hstep : Step g lm s s') : s'.system.scheduler.isFinished = true := by
  have hinv := run_inv h.run
  have hidle : ∀ w : Fin n, s.system.calls (some w) = .idle := by
    intro w
    cases hcall : s.system.calls (some w) with
    | idle => rfl
    | committing t =>
      exfalso
      obtain ⟨hcalled, hcommitted⟩ := hinv.log.committing _ t hcall
      exact hcommitted (h.finished_of_taken hfinished hcalled).2.2
    | draining t rest =>
      exfalso
      obtain ⟨hcompleted, hlive, -⟩ := hinv.log.draining _ t rest hcall
      have hcalled := hinv.taken_called (hinv.log.completed_taken t hcompleted)
      exact hlive (h.finished_of_taken hfinished hcalled).1
  have hbusy : ∀ {w : Fin n} {call : Call}, s.system.calls (some w) = call → call ≠ .idle → False :=
    fun hcall hne => hne (hcall.symm.trans (hidle _))
  cases hstep with
  | @take w q t scheduler hw hpop =>
    exfalso
    obtain ⟨tasks, hperm, -⟩ := hpop.perm
    obtain ⟨hpushed, huntaken⟩ := hinv.data.queued q t (hperm.mem_iff.mpr List.mem_cons_self)
    exact huntaken (h.finished_of_taken hfinished (hinv.released_called ⟨q, hpushed⟩)).2.1
  | perform hrunning => exact absurd hrunning (h.not_running_of_finished hfinished _ _)
  | complete hrunning => exact absurd hrunning (h.not_running_of_finished hfinished _ _)
  | commitDecrement hcall => exact (hbusy hcall (by simp)).elim
  | drain hcall => exact (hbusy hcall (by simp)).elim
  | finish hcall => exact (hbusy hcall (by simp)).elim
  | leave hw hfinished' => exact hfinished

theorem run_returned (hwaits : Waits g) (hrun : Run g lm s)
    (hreturned : (s.workers w).activity = .returned) : s.system.scheduler.isFinished = true := by
  induction hrun with
  | start hinit =>
    obtain ⟨draws, rfl⟩ := hinit
    cases hreturned
  | @next s s' hrun hstep ih =>
    have h := run_invariant hwaits hrun
    by_cases hbefore : (s.workers w).activity = .returned
    · exact h.finished_step (ih hbefore) hstep
    · cases hstep with
      | @take w' q t scheduler hw hpop =>
        by_cases heq : w = w' <;> simp_all [State.take]
      | @perform w' t op rest e hrunning hcall hprogram heffect =>
        by_cases heq : w = w' <;> simp_all [State.apply]
      | @complete w' t hrunning hcall hprogram =>
        by_cases heq : w = w' <;> simp_all [State.complete]
      | commitDecrement hcall => exact absurd hreturned hbefore
      | drain hcall => exact absurd hreturned hbefore
      | @finish w' t hcall => by_cases heq : w = w' <;> simp_all [State.setActivity]
      | leave hw hfinished => exact hfinished

/-! What rest means. -/

theorem Inv.quiescent_of_rest (h : Inv g lm s) (hrest : AtRest lm s) : Quiescent s := by
  have hidle : ∀ w, (s.workers w).activity = .idle ∨ (s.workers w).activity = .returned :=
    fun w => (hrest w).symm.imp_left And.left
  intro t htaken
  have hcompleted : .completed t ∈ s.system.log := by
    refine (h.accounted t htaken).resolve_right ?_
    rintro ⟨w, hrunning⟩
    rcases hidle w with hw | hw
    · rw [hw] at hrunning
      cases hrunning
    · rw [hw] at hrunning
      cases hrunning
  refine ((run_inv h.run).log.completed_progress t hcompleted).resolve_right ?_
  rintro ⟨_ | w, tasks, hcall⟩
  · rw [h.executor] at hcall
    cases hcall
  · rw [(h.idle w (hidle w)).2] at hcall
    cases hcall

/-- Some worker can take from a queue that the scheduler has. -/
theorem exists_pops (hn : 0 < n) {scheduler : Scheduler} {q : QueueRef}
    (hserved : Served n lm q) (hqueue : scheduler.queues q ≠ []) :
    ∃ w : Fin n, ∃ t scheduler', Scheduler.Pops lm w scheduler q t scheduler' := by
  cases hq : scheduler.queues q with
  | nil => exact absurd hq hqueue
  | cons t tasks =>
    have hpop : scheduler.popFront q = some (t, scheduler.setQueue q tasks) := by
      simp [Scheduler.popFront, hq]
    cases q with
    | stealable node => exact ⟨⟨0, hn⟩, _, _, .steal hserved hpop⟩
    | unstealable worker => exact ⟨⟨worker, hserved⟩, _, _, .unstealable hpop⟩

/-- With a worker and with open gates the engine rests when the scheduler is finished. -/
theorem finished_of_rest {config : Configuration} (hshape : Shape config g) (hrun : Run g lm s)
    (hn : 0 < n) (hlimits : ∀ l, (s.locals l).gate.taskQueue ≠ [] → gateLimit g l ≠ 0)
    (hrest : AtRest lm s) : s.system.scheduler.isFinished = true := by
  have h := run_invariant hshape.waits hrun
  have hquiet := h.quiescent_of_rest hrest
  by_contra hunfinished
  have hcount : s.system.scheduler.unfinishedTaskCount ≠ 0 := fun hzero =>
    hunfinished (decide_eq_true hzero)
  obtain ⟨q, hq⟩ := exists_queued_of_unfinished hshape hrun hquiet hlimits hcount
  obtain ⟨w, t, scheduler, hpop⟩ :=
    exists_pops hn ((run_placed hshape.waits hrun).queues q hq) hq
  rcases hrest w with hreturned | ⟨-, hnone⟩
  · exact hunfinished (run_returned hshape.waits hrun hreturned)
  · exact hnone q t scheduler hpop

/-! The finalisation of a processor. -/

/-- The logical task whose finalisation an operation is going to call. -/
def Op.closes : Op → Option ℕ
  | prepare _ c => c.finalizes
  | globalFinalize l | call l .globalFinalize _ => some l
  | _ => none

def closing (s : State n) (l : ℕ) : ℕ := s.tokens (marked Op.closes l) (marked Command.finalizes l)

/-- The call of a finalisation that is due is only dropped when it is made, or when the
processor has not been initialised. -/
theorem Performs.closes (h : Performs g s w op e) (l : ℕ)
    (hflag : op = .globalFinalize l → (s.locals l).globalInitialized = true) :
    marked Op.closes l op ≤ (e.next.map (marked Op.closes l)).sum ∨
      .called l .globalFinalize ∈ e.notes := by
  by_cases hop : op.closes = some l
  · cases h with
    | step op choice hoption =>
      cases op with
      | prepare t c =>
        left
        cases c with
        | globalFinalize l' =>
          obtain rfl : l' = l := Option.some.inj hop
          simp [effect, body, marked, Op.closes, Command.finalizes]
        | _ => cases hop
      | globalFinalize l' =>
        left
        obtain rfl : l' = l := Option.some.inj hop
        simp [effect, hflag rfl, marked, Op.closes]
      | call l' callback inputs =>
        right
        cases callback with
        | globalFinalize =>
          obtain rfl : l' = l := Option.some.inj hop
          exact List.mem_cons_self
        | _ => cases hop
      | _ => cases hop
    | _ => cases hop
  · left
    rw [marked_of_ne hop]
    exact Nat.zero_le _

theorem run_closing (hwaits : Waits g) (hrun : Run g lm s) {kind : TaskKind}
    (hkind : g.kindOf l = some kind) (hprocess : kind.isIntermediate = false) :
    0 < closing s l ∨ .called l .globalFinalize ∈ s.notes := by
  refine @run_induction n g lm s hwaits
    (fun s => 0 < closing s l ∨ .called l .globalFinalize ∈ s.notes) ?_ ?_ ?_ hrun
  · intro draws
    left
    have h := @setUp_spec n g lm draws hwaits.endpoints
    refine tokens_pos_of_untaken _ ((h.laid l kind hkind).command .terminal) (h.calm.untaken _) ?_
    rw [marked_of_eq]
    · exact Nat.one_pos
    · cases kind <;> first
        | rfl
        | cases hprocess
  · intro s w t op rest e hrun h ih hrunning hcall hprogram heffect
    have hmem : op ∈ (s.workers w).program := mem_program hprogram
    rcases ih with hpos | hcalled
    · have hcloses := heffect.closes l fun hop =>
        initialized_of_globalFinalize hwaits hrun hrunning (by rw [← hop]; exact hmem)
      rcases hcloses with hle | hnote
      · left
        have htokens := h.tokens_apply hrunning hcall hprogram heffect (marked Op.closes l)
          (marked Command.finalizes l)
        unfold closing at hpos ⊢
        omega
      · exact Or.inr (List.mem_append_left _ hnote)
    · exact Or.inr (List.mem_append_right _ hcalled)
  · intro s s' _ ih hbetween
    have hclosing : closing s' l = closing s l := hbetween.tokens _ _ fun _ _ => rfl
    rw [hclosing, hbetween.notes]
    exact ih

theorem done_of_finished (hwaits : Waits g) (hrun : Run g lm s)
    (hfinished : s.system.scheduler.isFinished = true) : Done g s := by
  refine ⟨fun t ht => executed_of_finished hwaits hrun hfinished ht, ?_⟩
  intro l kind hkind hprocess
  refine (run_closing hwaits hrun hkind hprocess).resolve_left ?_
  rw [closing, tokens_of_finished hwaits hrun hfinished]
  exact Nat.lt_irrefl 0

/-! What is never executed. -/

theorem Step.commands (h : Step g lm s s') : ∃ new, s'.commands = s.commands ++ new := by
  cases h with
  | perform => exact ⟨_, rfl⟩
  | _ => exact ⟨[], (List.append_nil _).symm⟩

theorem Step.exists_worker (h : Step g lm s s') : Nonempty (Fin n) := by
  cases h <;> exact ⟨by assumption⟩

/-- Without workers nothing is taken. -/
theorem run_without_workers {s : State 0} (hwaits : Waits g) (hrun : Run g lm s) (t : TaskId) :
    .taken t ∉ s.system.log := by
  cases hrun with
  | start hinit =>
    obtain ⟨draws, rfl⟩ := hinit
    exact (@setUp_spec 0 g lm draws hwaits.endpoints).calm.untaken t
  | next hrun hstep =>
    obtain ⟨w⟩ := hstep.exists_worker
    exact w.elim0

/-- What a step takes has been committed before. -/
theorem Inv.called_of_taken_step (h : Inv g lm s) (hstep : Step g lm s s')
    (htaken : .taken t ∈ s'.system.log) : .commitCalled t ∈ s.system.log := by
  have hinv := run_inv h.run
  have hold : ∀ {events : List Event}, s'.system.log = events ++ s.system.log →
      .taken t ∉ events → .commitCalled t ∈ s.system.log := by
    intro events hlog hevents
    rw [hlog] at htaken
    exact hinv.taken_called ((List.mem_append.mp htaken).resolve_left hevents)
  cases hstep with
  | @take w q u scheduler hw hpop =>
    rcases List.mem_cons.mp htaken with heq | htaken
    · cases heq
      obtain ⟨tasks, hperm, -⟩ := hpop.perm
      obtain ⟨hpushed, -⟩ := hinv.data.queued q t (hperm.mem_iff.mpr List.mem_cons_self)
      exact hinv.released_called ⟨q, hpushed⟩
    · exact hinv.taken_called htaken
  | @perform w u op rest e hrunning hcall hprogram heffect =>
    exact hold (performed h.run hcall (h.action_valid hrunning hprogram heffect)).log
      (notMem_events (by simp) (by simp) (by simp))
  | @complete w u hrunning hcall hprogram =>
    obtain ⟨htaken', hlive, -⟩ := h.running w u hrunning
    obtain ⟨tasks, hlog, -, -⟩ := hinv.beginCompletion_effect (some w) htaken' hlive
    exact @hold [.completed u] hlog (by simp)
  | @commitDecrement w u draw hcall =>
    obtain ⟨pushes, hpushes, hlog, -, -⟩ := hinv.commitDecrement_effect lm draw hcall
    refine @hold (pushes ++ [.committed u]) (by simp [hlog]) ?_
    simpa using hpushes.notMem (by simp)
  | @drain w u x tasks draw hcall =>
    obtain ⟨pushes, hpushes, hlog, -, -⟩ := hinv.drain_effect lm draw hcall
    exact hold hlog (hpushes.notMem (by simp))
  | @finish w u hcall => exact @hold [.finished u] rfl (by simp)
  | leave hw hfinished => exact hinv.taken_called htaken

theorem committedUntaken_pos (hc : s.commands[t]? = some c) (hgated : c.gated l = 1)
    (hcalled : .commitCalled t ∈ s.system.log) (huntaken : .taken t ∉ s.system.log) :
    0 < committedUntaken s l := by
  have hone : called s.system.log t *
      (untaken s.system.log t * (s.commands[t]?).elim 0 (Command.gated l)) = 1 := by
    rw [called, if_pos hcalled, untaken, if_neg huntaken, hc, Option.elim_some, hgated]
  have hle : called s.system.log t *
      (untaken s.system.log t * (s.commands[t]?).elim 0 (Command.gated l)) ≤
        committedUntaken s l :=
    Finset.single_le_sum (f := fun t => called s.system.log t *
      (untaken s.system.log t * (s.commands[t]?).elim 0 (Command.gated l)))
      (fun _ _ => Nat.zero_le _) (mem_range.mpr (List.getElem?_eq_some_iff.mp hc).1)
  omega

/-- Commands that have been committed and not been taken take up slots. -/
theorem Inv.limit_pos (h : Inv g lm s) {limit : UInt64} (hgate : GateInv s l limit)
    (hc : s.commands[t]? = some c) (hgated : c.gated l = 1)
    (hcalled : .commitCalled t ∈ s.system.log) (huntaken : .taken t ∉ s.system.log) :
    limit ≠ 0 := by
  rintro rfl
  have hslots := hgate.slots
  have hroom := h.gate_room hgate
  have hpos := committedUntaken_pos hc hgated hcalled huntaken
  rw [unnotified, State.tokens, UInt64.toNat_zero] at hslots
  omega

/-- A command whose gate has no slot at all is never committed. -/
theorem run_limit_pos (hwaits : Waits g) (hrun : Run g lm s) (hc : s.commands[t]? = some c)
    (hgated : c.gated l = 1) (hcalled : .commitCalled t ∈ s.system.log) : gateLimit g l ≠ 0 := by
  induction hrun with
  | start hinit =>
    obtain ⟨draws, rfl⟩ := hinit
    exact (start_inv hwaits.endpoints draws).limit_pos (run_gateInv hwaits (.start ⟨draws, rfl⟩) l)
      hc hgated hcalled ((@setUp_spec n g lm draws hwaits.endpoints).calm.untaken t)
  | @next s s' hrun hstep ih =>
    have h := run_invariant hwaits hrun
    by_cases htaken : .taken t ∈ s'.system.log
    · have hcalled' := h.called_of_taken_step hstep htaken
      refine ih ?_ hcalled'
      have hlt := (h.created_iff t).mp ((run_inv h.run).log.called_created t hcalled')
      obtain ⟨new, hcommands⟩ := hstep.commands
      rw [hcommands, List.getElem?_append_left hlt] at hc
      exact hc
    · exact (run_invariant hwaits (hrun.next hstep)).limit_pos
        (run_gateInv hwaits (hrun.next hstep) l) hc hgated hcalled htaken

/-! When rest means that everything is done. -/

section Rest

variable {config : Configuration} {fg : FlowGraph}

/-- What has been executed went through a gate with a slot. -/
theorem gatesOpen_of_executed (hwaits : Waits g) (hrun : Run g lm s)
    (hexecuted : ∀ t < s.commands.length, .finished t ∈ s.system.log) : GatesOpen g s := by
  intro t c kind proc hc hprocess hkind hproc
  have h := run_invariant hwaits hrun
  have hinv := run_inv h.run
  have hdone := hexecuted t (List.getElem?_eq_some_iff.mp hc).1
  have hcalled := hinv.taken_called (hinv.finished_taken hdone)
  rw [← gateLimit_eq hkind hproc]
  exact run_limit_pos hwaits hrun hc (gated_eq_one.mpr ⟨hprocess, rfl⟩) hcalled

/-- Whatever is executed is executed by a worker. -/
theorem workers_of_executed (hwaits : Waits g) (hrun : Run g lm s)
    (hexecuted : ∀ t < s.commands.length, .finished t ∈ s.system.log) : 0 < n ∨ g.tasks = [] := by
  cases n with
  | zero =>
    right
    by_contra htasks
    have h := run_invariant hwaits hrun
    have hlog := (run_inv h.run).log
    obtain ⟨kind, hkind⟩ := g.kindOf_eq_some (List.length_pos_iff.mpr htasks)
    have hentry := (h.static.laid 0 kind hkind).command .entry
    have hdone := hexecuted _ (List.getElem?_eq_some_iff.mp hentry).1
    exact run_without_workers hwaits hrun _
      (hlog.completed_taken _ (hlog.finished_completed _ hdone))
  | succ n => exact Or.inl (Nat.succ_pos n)

theorem tasks_of_build (hbuild : GraphBuilder.buildLogicalGraph config fg = .ok g)
    (hmovements : fg.DefinedMovements) : g.tasks = [] ↔ fg.vertices = [] := by
  constructor
  · intro htasks
    obtain ⟨b, hb, h⟩ := GraphBuilder.buildLogicalGraph_spec config fg hmovements
    have hgb : g = b.graph := Except.ok.inj (hbuild.symm.trans hb)
    have hsize := h.size
    rw [← hgb, htasks, List.length_nil] at hsize
    exact List.eq_nil_of_length_eq_zero (Nat.le_zero.mp hsize)
  · intro hvertices
    unfold GraphBuilder.buildLogicalGraph at hbuild
    rw [hvertices] at hbuild
    cases hbuild
    rfl

/-- Where there is no logical task, there is nothing to execute. -/
theorem finished_of_empty (hwaits : Waits g) (hrun : Run g lm s) (htasks : g.tasks = []) :
    s.system.scheduler.isFinished = true := by
  have h := run_invariant hwaits hrun
  have hcommands : s.commands.length = 0 := by
    by_contra hne
    have hlt : 0 < s.commands.length := Nat.pos_of_ne_zero hne
    obtain ⟨kind, hkind⟩ := h.static.kind_of_owner (List.getElem?_eq_getElem hlt)
    have hl := g.lt_of_kindOf hkind
    rw [htasks] at hl
    cases hl
  have hcount := (run_inv h.run).count.unfinished_eq
  rw [← h.length, hcommands] at hcount
  exact decide_eq_true hcount

/-- At rest everything is done, exactly if there are workers, or nothing to do, and no
command has been created for a processor that admits none. -/
theorem rest_iff_done {s : State config.maxConcurrency} (hacyclic : Acyclic fg.Feeds)
    (hmovements : fg.DefinedMovements) (hbuild : GraphBuilder.buildLogicalGraph config fg = .ok g)
    (hrun : Run g lm s) (hrest : AtRest lm s) :
    Done g s ↔ (0 < config.maxConcurrency ∨ fg.vertices = []) ∧ GatesOpen g s := by
  have hshape := shape_of_build hbuild hacyclic hmovements
  have h := run_invariant hshape.waits hrun
  have hgates := run_gateInv hshape.waits hrun
  constructor
  · intro hdone
    refine ⟨?_, gatesOpen_of_executed hshape.waits hrun hdone.executed⟩
    rw [← tasks_of_build hbuild hmovements]
    exact workers_of_executed hshape.waits hrun hdone.executed
  · rintro ⟨hworkers | hvertices, hopen⟩
    · exact done_of_finished hshape.waits hrun (finished_of_rest hshape hrun hworkers
        (h.limit_of_gatesOpen hopen hgates) hrest)
    · exact done_of_finished hshape.waits hrun
        (finished_of_empty hshape.waits hrun ((tasks_of_build hbuild hmovements).mpr hvertices))

/-! Runs that rest. -/

/-- Whatever has been put into a queue has been taken. -/
def emptied (log : List Event) : Bool :=
  log.all fun event =>
    match event with
    | .pushed t _ => decide (.taken t ∈ log)
    | _ => true

theorem atRest_of_emptied {s : State 1} (hwaits : Waits g) (hrun : Run g lm s)
    (hidle : (s.workers 0).activity = .idle) (hemptied : emptied s.system.log = true) :
    AtRest lm s := by
  intro w
  obtain rfl : w = 0 := Subsingleton.elim w 0
  refine Or.inr ⟨hidle, fun q t scheduler hpop => ?_⟩
  have hinv := run_inv (run_invariant hwaits hrun).run
  obtain ⟨tasks, hperm, -⟩ := hpop.perm
  obtain ⟨hpushed, huntaken⟩ := hinv.data.queued q t (hperm.mem_iff.mpr List.mem_cons_self)
  have htaken := List.all_eq_true.mp hemptied _ hpushed
  exact huntaken (of_decide_eq_true htaken)

theorem rest_iff_done_pipe :
    ∃ s : State 1, Run pipeGraph .default s ∧ AtRest .default s ∧ Done pipeGraph s := by
  have hreplay : ((replay? pipeGraph .default 1 pipeMoves).any fun s =>
      (s.workers 0).activity = .idle && emptied s.system.log) = true := by decide +kernel
  obtain ⟨s, hrun, hend⟩ := exists_of_replay? hreplay
  rw [Bool.and_eq_true, decide_eq_true_eq] at hend
  have hshape := shape_of_build build_pipe acyclic_pipe definedMovements_pipe
  have hrest := atRest_of_emptied hshape.waits hrun hend.1 hend.2
  have hopen : GatesOpen pipeGraph s := by
    apply gatesOpen_of_limits build_pipe definedMovements_pipe
    rw [vertices_pipe]
    decide
  exact ⟨s, hrun, hrest, (rest_iff_done acyclic_pipe definedMovements_pipe build_pipe hrun hrest).mpr
    ⟨Or.inl Nat.one_pos, hopen⟩⟩

/-- A processor with one task that admits no command. -/
def closedProcessor : Processor :=
  { inputPorts := [], outputPorts := [], taskCount := 1, maxConcurrency := 0
    consistent := Processor.consistent_nil }

def closed : FlowGraph := FlowGraph.build [.addVertex "source" closedProcessor]

def closedGraph : LogicalGraph :=
  { tasks := [{ kind := .inputProcess closedProcessor 1, taskName := "source", successors := [] }]
    edges := [] }

theorem acyclic_closed : Acyclic closed.Feeds := by
  refine Acyclic.of_rank id ?_
  rintro u v ⟨p, j, hmem⟩
  have hvertices : closed.vertices = [Vertex.create "source" closedProcessor] := rfl
  rw [hvertices] at hmem
  rcases v with _ | v
  · simp [sourcesOf, Vertex.create, closedProcessor] at hmem
  · simp [sourcesOf] at hmem

theorem definedMovements_closed : closed.DefinedMovements := by
  rintro ⟨i, j⟩ iport hin
  have hvertices : closed.vertices = [Vertex.create "source" closedProcessor] := rfl
  rw [hvertices] at hin
  rcases i with _ | i
  · simp [inputPort?, Vertex.create, closedProcessor] at hin
  · simp [inputPort?] at hin

/-- Without workers a graph with tasks is at rest from the start, and behind a gate
without slots one worker rests before a command that has not been executed. -/
theorem rest_undone :
    (∃ g, GraphBuilder.buildLogicalGraph { maxConcurrency := 0, partitionCount := 1 } pipe = .ok g ∧
      ∃ s : State 0, Run g { LocalityManager.default with maxConcurrency := 0 } s ∧
        AtRest { LocalityManager.default with maxConcurrency := 0 } s ∧ ¬ Done g s) ∧
    GraphBuilder.buildLogicalGraph { maxConcurrency := 1, partitionCount := 1 } closed =
        .ok closedGraph ∧
      ∃ s : State 1, Run closedGraph .default s ∧ AtRest .default s ∧ ¬ Done closedGraph s := by
  refine ⟨⟨_, rfl, _, .start ⟨fun _ => 0, rfl⟩, fun w => w.elim0, fun hdone => ?_⟩, rfl, ?_⟩
  · exact absurd (hdone.executed 0 (by decide +kernel)) (by decide +kernel)
  · have hreplay : ((replay? closedGraph .default 1 (.steal 0 0 :: List.replicate 14 (.work 0))).any
        fun s => ((s.workers 0).activity = .idle && emptied s.system.log) &&
          (1 < s.commands.length && .finished 1 ∉ s.system.log)) = true := by decide +kernel
    obtain ⟨s, hrun, hend⟩ := exists_of_replay? hreplay
    simp only [Bool.and_eq_true, decide_eq_true_eq] at hend
    obtain ⟨⟨hidle, hemptied⟩, hcreated, hunfinished⟩ := hend
    have hshape : Shape { maxConcurrency := 1, partitionCount := 1 } closedGraph :=
      shape_of_build rfl acyclic_closed definedMovements_closed
    exact ⟨s, hrun, atRest_of_emptied hshape.waits hrun hidle hemptied,
      fun hdone => hunfinished (hdone.executed 1 hcreated)⟩

end Rest

end M3bp.Engine
