import M3bp.EnginePlacement
import M3bp.EngineStages

/-!
The finalizers of a processor. Each is meant for a worker, and no other worker runs it. While
a thread is noted as initialised, its finalizer is still to come, so a processor is finalised
only when no thread is left.
-/
namespace M3bp.Engine

open Finset SchedulerCalls Transition

variable {n : ℕ}

/-! Tasks go where their options lead. -/

section Routed

variable {Th : Type} {lm : LocalityManager} {A : TaskId → LocalityOption → Prop}

/-- `A` says which options a task may have been created with. -/
structure Routed (lm : LocalityManager) (A : TaskId → LocalityOption → Prop) (s : System Th) :
    Prop where
  options : ∀ t v, s.scheduler.vertices t = some v → A t v.localityOption
  pushed : ∀ t q, .pushed t q ∈ s.log →
    ∃ option draw, A t option ∧ q = Scheduler.targetQueue lm draw option

/-- The vertices after an operation have their options from before. -/
def OptionsFrom (s s' : Scheduler) : Prop :=
  ∀ t v', s'.vertices t = some v' → ∃ v, s.vertices t = some v ∧ v'.localityOption = v.localityOption

theorem OptionsFrom.of_eq {s s' : Scheduler} (h : s'.vertices = s.vertices) : OptionsFrom s s' :=
  fun _ v' hv' => ⟨v', h ▸ hv', rfl⟩

theorem OptionsFrom.trans {s s' s'' : Scheduler} (h : OptionsFrom s s') (h' : OptionsFrom s' s'') :
    OptionsFrom s s'' := by
  intro t v'' hv''
  obtain ⟨v', hv', hoption'⟩ := h' t v'' hv''
  obtain ⟨v, hv, hoption⟩ := h t v' hv'
  exact ⟨v, hv, hoption'.trans hoption⟩

theorem optionsFrom_setVertex {s : Scheduler} {t : TaskId} {w : Option PhysicalVertex}
    (h : ∀ v', w = some v' → ∃ v, s.vertices t = some v ∧ v'.localityOption = v.localityOption) :
    OptionsFrom s (s.setVertex t w) := by
  intro u v' hv'
  by_cases hu : u = t
  · subst hu
    simp only [Scheduler.setVertex, Function.update_self] at hv'
    exact h v' hv'
  · simp only [Scheduler.setVertex, Function.update_of_ne hu] at hv'
    exact ⟨v', hv', rfl⟩

theorem optionsFrom_addDependency {s s' : Scheduler} {p t : TaskId}
    (h : s.addDependency p t = some s') : OptionsFrom s s' := by
  cases hp : s.vertices p with
  | none =>
    rw [Scheduler.addDependency_erased hp, Option.some.injEq] at h
    exact h ▸ .of_eq rfl
  | some pred =>
    cases ht : s.vertices t with
    | none => simp [Scheduler.addDependency, hp, ht] at h
    | some succ =>
      rw [Scheduler.addDependency_recorded hp ht, Option.some.injEq] at h
      subst h
      intro u v' hv'
      obtain ⟨v, hv, rfl⟩ := Option.map_eq_some_iff.mp hv'
      exact ⟨v, hv, rfl⟩

/-- A decrement keeps the options, and what it pushes goes where its option leads. -/
theorem optionsFrom_decrement {s s' : Scheduler} {draw : WorkerId} {t : TaskId}
    {q : Option QueueRef} (h : s.decrementPredecessorCount lm draw t = some (s', q)) :
    OptionsFrom s s' ∧ ∀ q', q = some q' →
      ∃ v, s.vertices t = some v ∧ q' = Scheduler.targetQueue lm draw v.localityOption := by
  unfold Scheduler.decrementPredecessorCount at h
  split at h
  · cases h
  · next v hv =>
    split at h
    · split at h
      · cases h
      · cases h
        refine ⟨(optionsFrom_setVertex ?_).trans (.of_eq rfl), ?_⟩
        · rintro v' heq
          cases heq
          exact ⟨v, hv, rfl⟩
        · rintro q' heq
          cases heq
          exact ⟨v, hv, rfl⟩
    · cases h
      refine ⟨optionsFrom_setVertex ?_, fun q' hq' => by cases hq'⟩
      rintro v' heq
      cases heq
      exact ⟨v, hv, rfl⟩

variable {s : System Th}

/-- A step that creates and pushes nothing. -/
theorem Routed.keep (h : Routed lm A s) {s' : System Th}
    (hoptions : OptionsFrom s.scheduler s'.scheduler)
    (hlog : ∀ t q, .pushed t q ∈ s'.log → .pushed t q ∈ s.log) : Routed lm A s' := by
  refine ⟨fun t v' hv' => ?_, fun t q hq => h.pushed t q (hlog t q hq)⟩
  obtain ⟨v, hv, hoption⟩ := hoptions t v' hv'
  rw [hoption]
  exact h.options t v hv

theorem Routed.create (h : Routed lm A s) {option : LocalityOption}
    (hoption : A s.nextTask option) : Routed lm A (s.createPhysicalTask option) := by
  refine ⟨fun t v hv => ?_, fun t q hq => h.pushed t q (by simpa [System.createPhysicalTask] using hq)⟩
  by_cases ht : t = s.nextTask
  · subst ht
    simp only [System.createPhysicalTask, Scheduler.createPhysicalTask, Scheduler.setVertex,
      System.nextTask, Function.update_self, Option.some.injEq] at hv
    rw [← hv]
    exact hoption
  · have hne : t ≠ s.scheduler.createdTaskCount := ht
    simp only [System.createPhysicalTask, Scheduler.createPhysicalTask, Scheduler.setVertex,
      Function.update_of_ne hne] at hv
    exact h.options t v hv

theorem Routed.dependency (h : Routed lm A s) (p t : TaskId) : Routed lm A (s.addDependency p t) := by
  unfold System.addDependency
  split
  · exact h.keep (.of_eq rfl) fun _ _ hq => hq
  · next scheduler hscheduler =>
    refine h.keep (optionsFrom_addDependency hscheduler) fun u q hq => ?_
    simp only at hq
    split at hq
    · simpa using hq
    · exact hq

variable [DecidableEq Th]

theorem Routed.decremented (h : Routed lm A s) (draw : WorkerId) (th : Th) (t : TaskId)
    (next : Call) {events : List Event} (hevents : ∀ u q, .pushed u q ∉ events) :
    Routed lm A (s.decrement lm draw th t next events) := by
  unfold System.decrement
  split
  · exact h.keep (.of_eq rfl) fun _ _ hq => hq
  · next scheduler queue hscheduler =>
    obtain ⟨hoptions, hqueue⟩ := optionsFrom_decrement hscheduler
    refine ⟨fun u v' hv' => ?_, fun u q hq => ?_⟩
    · obtain ⟨v, hv, hoption⟩ := hoptions u v' hv'
      rw [hoption]
      exact h.options u v hv
    · rcases List.mem_append.mp hq with hq | hq
      · rcases List.mem_append.mp hq with hq | hq
        · rw [Option.mem_toList, Option.map_eq_some_iff] at hq
          obtain ⟨q', hq', heq⟩ := hq
          cases heq
          obtain ⟨v, hv, hq⟩ := hqueue q hq'
          exact ⟨_, draw, h.options _ v hv, hq⟩
        · exact absurd hq (hevents u q)
      · exact h.pushed u q hq

theorem Routed.completed (h : Routed lm A s) (th : Th) (t : TaskId) :
    Routed lm A (s.beginCompletion th t) := by
  unfold System.beginCompletion Scheduler.eraseVertex
  cases s.scheduler.vertices t with
  | none => exact h.keep (.of_eq rfl) fun _ _ hq => hq
  | some v =>
    refine h.keep (optionsFrom_setVertex fun v' heq => by cases heq) fun u q hq => ?_
    simpa using hq

omit [DecidableEq Th] in
theorem Routed.mono {B : TaskId → LocalityOption → Prop} (h : Routed lm A s)
    (hvertices : ∀ t v, s.scheduler.vertices t = some v → A t v.localityOption → B t v.localityOption)
    (hlog : ∀ t q option, .pushed t q ∈ s.log → A t option → B t option) : Routed lm B s := by
  refine ⟨fun t v hv => hvertices t v hv (h.options t v hv), fun t q hq => ?_⟩
  obtain ⟨option, draw, hA, htarget⟩ := h.pushed t q hq
  exact ⟨option, draw, hlog t q option hq hA, htarget⟩

end Routed

/-- The options that the command of a task allows. -/
def OptionOf (commands : List Command) (t : TaskId) (option : LocalityOption) : Prop :=
  ∀ c, commands[t]? = some c → c.Allows option

theorem optionOf_append {commands : List Command} {t : TaskId} {option : LocalityOption}
    (h : OptionOf commands t option) (ht : t < commands.length) (more : List Command) :
    OptionOf (commands ++ more) t option := by
  intro c hc
  rw [List.getElem?_append_left ht] at hc
  exact h c hc

section SetUp

variable {g : LogicalGraph} {lm : LocalityManager} {p : Plan n}

/-- The fixed tasks are created without an option. -/
structure RoutedPlan (lm : LocalityManager) (p : Plan n) : Prop where
  fixed : ∀ c ∈ p.commands, c.Allows {}
  routed : Routed lm (fun _ option => option = {}) p.system

theorem RoutedPlan.create (h : RoutedPlan lm p) (c : Command) (hc : c.Allows {}) :
    RoutedPlan lm (p.create c) := by
  refine ⟨fun c' hc' => ?_, h.routed.create rfl⟩
  rcases List.mem_append.mp hc' with hc' | hc'
  · exact h.fixed c' hc'
  · rw [List.mem_singleton.mp hc']
    exact hc

theorem RoutedPlan.depend (h : RoutedPlan lm p) (a b : TaskId) : RoutedPlan lm (p.depend a b) :=
  ⟨h.fixed, h.routed.dependency a b⟩

theorem RoutedPlan.commit (h : RoutedPlan lm p) (draws : TaskId → WorkerId) (t : TaskId) :
    RoutedPlan lm (p.commit lm draws t) := by
  have hcalled : Routed lm (fun _ option => option = {}) (p.system.beginCommit none t) :=
    h.routed.keep (.of_eq rfl) fun u q hq => by simpa [System.beginCommit] using hq
  exact ⟨h.fixed, hcalled.decremented (draws t) none t .idle (by simp)⟩

theorem RoutedPlan.tasks (h : RoutedPlan lm p) (l : ℕ) (kind : TaskKind) :
    RoutedPlan lm (p.createPhysicalTasks l kind) := by
  have hset : ∀ {p : Plan n}, RoutedPlan lm p → ∀ ids, RoutedPlan lm (p.setIds l ids) :=
    fun h _ => ⟨h.fixed, h.routed⟩
  cases kind with
  | gather => exact hset (h.create (.gather l) rfl) _
  | valueSort comparator =>
    refine hset (RoutedPlan.depend ?_ _ _) _
    refine RoutedPlan.create (h.create _ ?_) _ ?_ <;> rfl
  | _ =>
    refine hset (RoutedPlan.depend (RoutedPlan.depend ?_ _ _) _ _) _
    refine RoutedPlan.create (RoutedPlan.create (h.create _ ?_) _ ?_) _ ?_ <;> rfl

theorem RoutedPlan.commits (h : RoutedPlan lm p) (draws : TaskId → WorkerId) (l : ℕ)
    (kind : TaskKind) : RoutedPlan lm (p.commitPhysicalTasks lm draws l kind) := by
  cases kind with
  | gather => exact h.commit draws _
  | valueSort comparator => exact (h.commit draws _).commit draws _
  | _ => exact ((h.commit draws _).commit draws _).commit draws _

theorem routedPlan_setUp (g : LogicalGraph) (lm : LocalityManager) (draws : TaskId → WorkerId) :
    RoutedPlan lm (Plan.setUp g lm draws : Plan n) := by
  refine Plan.setUp_induction g lm draws (P := RoutedPlan lm) ⟨by simp [Plan.initial], ?_⟩
    (fun p x hp => RoutedPlan.tasks hp x.2 x.1.kind) (fun p e hp => RoutedPlan.depend hp _ _)
    fun p x hp => RoutedPlan.commits hp draws x.2 x.1.kind
  constructor
  · intro t v hv
    cases hv
  · intro t q hpushed
    cases hpushed

end SetUp

section Runs

variable {g : LogicalGraph} {lm : LocalityManager} {s s' : State n} {w : Fin n} {l : ℕ}
  {t : TaskId} {c : Command} {op : Op} {rest : List Op} {e : Effect}

theorem Inv.lt_of_vertex (h : Inv g lm s) {v : PhysicalVertex}
    (hv : s.system.scheduler.vertices t = some v) : t < s.commands.length :=
  (h.created_iff t).mp (((run_inv h.run).data.live_iff t).mp (Option.isSome_iff_exists.mpr ⟨v, hv⟩)).1

theorem Inv.lt_of_pushed (h : Inv g lm s) {q : QueueRef} (hq : .pushed t q ∈ s.system.log) :
    t < s.commands.length :=
  (h.created_iff t).mp ((run_inv h.run).log.called_created t
    ((run_inv h.run).released_called ⟨q, hq⟩))

/-- More commands do not change where the tasks of before go. -/
theorem Routed.append (h : Routed lm (OptionOf s.commands) s.system) (hinv : Inv g lm s)
    (more : List Command) : Routed lm (OptionOf (s.commands ++ more)) s.system :=
  h.mono (fun _ _ hv hoption => optionOf_append hoption (hinv.lt_of_vertex hv) more)
    fun _ _ _ hq hoption => optionOf_append hoption (hinv.lt_of_pushed hq) more

theorem Routed.perform (hrouted : Routed lm (OptionOf s.commands) s.system) (h : Inv g lm s)
    (heffect : Performs g s w op e) (rest : List Op) :
    Routed lm (OptionOf (s.apply w rest e).commands) (s.apply w rest e).system := by
  have happend := hrouted.append h e.action.created
  rcases heffect.action with hnone | ⟨c, choice, rfl, hallows, rfl⟩ | ⟨_, _, d, deps, -, rfl⟩ |
      ⟨t, -, rfl⟩
  · simp only [State.apply, hnone] at happend ⊢
    exact happend
  · refine happend.create fun c' hc' => ?_
    have hnext : s.system.nextTask = s.commands.length := h.length.symm
    rw [hnext] at hc'
    have heq : c = c' := by simpa [Action.created, effect] using hc'
    exact heq ▸ hallows
  · exact happend.dependency _ _
  · exact happend.keep (.of_eq rfl) fun u q hq => by
      simpa [State.apply, Action.perform, System.beginCommit] using hq

theorem cancel_routed (hwaits : Waits g) (hrun : CancelRun g lm s) :
    Routed lm (OptionOf s.commands) s.system := by
  induction hrun with
  | start hinit =>
    obtain ⟨draws, rfl⟩ := hinit
    obtain ⟨hfixed, hrouted⟩ := routedPlan_setUp (n := n) g lm draws
    have hoption : ∀ t option, option = {} → OptionOf (Plan.setUp g lm draws : Plan n).commands t option := by
      rintro t option rfl c hc
      exact hfixed c (List.mem_of_getElem? hc)
    exact hrouted.mono (fun t v _ => hoption t _) fun t q option _ => hoption t option
  | @next s s' hrun hstep ih =>
    have h := cancel_invariant hwaits hrun
    cases hstep with
    | clear l x _ => exact ih
    | step hstep =>
      cases hstep with
      | take hidle hpop =>
        obtain ⟨rest, -, hscheduler⟩ := hpop.perm
        refine ih.keep (.of_eq ?_) fun u q hq => by simpa [State.take, System.take] using hq
        simp only [State.take, System.take, hscheduler]
        rfl
      | perform hrunning hcall hprogram heffect => exact ih.perform h heffect _
      | complete hrunning hcall hprogram => exact ih.completed _ _
      | commitDecrement hcall => exact ih.decremented _ _ _ _ (by simp)
      | drain hcall => exact ih.decremented _ _ _ _ (by simp)
      | finish hcall =>
        exact ih.keep (.of_eq rfl) fun u q hq => by simpa [System.finishCompletion] using hq
      | leave hidle hfinished => exact ih

/-- A task that is meant for a worker is popped by no other. -/
theorem pops_unstealable {worker : WorkerId} {q : QueueRef} {scheduler scheduler' : Scheduler}
    {v : WorkerId} (hpop : Scheduler.Pops lm worker scheduler q t scheduler')
    (hq : q = .unstealable v) : worker = v := by
  cases hpop with
  | unstealable hpop => exact QueueRef.unstealable.inj hq
  | localStealable hpop => cases hq
  | steal hnode hpop => cases hq

/-- A finalizer runs on the worker that it finalises. -/
theorem cancel_pinned (hwaits : Waits g) (hrun : CancelRun g lm s) {worker : WorkerId}
    (hrunning : (s.workers w).activity = .running t)
    (hc : s.commands[t]? = some (.threadLocalFinalize l worker)) : (w : WorkerId) = worker := by
  induction hrun with
  | start hinit =>
    obtain ⟨draws, rfl⟩ := hinit
    cases hrunning
  | @next s s' hrun hstep ih =>
    have h := cancel_invariant hwaits hrun
    cases hstep with
    | clear l x _ => exact ih hrunning hc
    | step hstep =>
      cases hstep with
      | @take w' q t' scheduler hidle hpop =>
        by_cases hw : w = w'
        · subst hw
          simp only [State.take, Function.update_self, Activity.running.injEq] at hrunning
          subst hrunning
          obtain ⟨tasks, hperm, -⟩ := hpop.perm
          have hpushed := ((run_inv h.run).data.queued q t'
            (hperm.mem_iff.mpr List.mem_cons_self)).1
          obtain ⟨option, draw, hoption, rfl⟩ := (cancel_routed hwaits hrun).pushed t' q hpushed
          have hallows : option = { recommendedWorker := worker, isStealable := false } :=
            hoption _ hc
          exact pops_unstealable hpop (by simp [hallows, Scheduler.targetQueue])
        · simp only [State.take, Function.update_of_ne hw] at hrunning
          exact ih hrunning hc
      | perform hrunning' hcall hprogram heffect =>
        rw [apply_activity] at hrunning
        exact ih hrunning (h.command_of_step hrunning hc)
      | @complete w' t' hrunning' hcall hprogram =>
        by_cases hw : w = w'
        · subst hw
          simp [State.complete] at hrunning
        · simp only [State.complete, Function.update_of_ne hw] at hrunning
          exact ih hrunning hc
      | commitDecrement hcall => exact ih hrunning hc
      | drain hcall => exact ih hrunning hc
      | @finish w' t' hcall =>
        by_cases hw : w = w'
        · subst hw
          simp [State.setActivity] at hrunning
        · simp only [State.setActivity, Function.update_of_ne hw] at hrunning
          exact ih hrunning hc
      | @leave w' hidle hfinished =>
        by_cases hw : w = w'
        · subst hw
          simp [State.setActivity] at hrunning
        · simp only [State.setActivity, Function.update_of_ne hw] at hrunning
          exact ih hrunning hc

/-! A thread that is noted as initialised has its finalizer still to come. -/

/-- Whether a command leads to the finalization of `worker`. -/
def Command.owes (l : ℕ) (worker : WorkerId) : Command → ℕ
  | processBarrier l' => if l' = l then 1 else 0
  | threadLocalFinalize l' worker' => if l' = l ∧ worker' = worker then 1 else 0
  | _ => 0

def Op.owes (l : ℕ) (worker : WorkerId) : Op → ℕ
  | prepare _ c | spawn c => c.owes l worker
  | createFinalizer l' worker' => if l' = l ∧ worker' = worker then 1 else 0
  | _ => 0

/-- The finalizers of `worker` that are still to come. -/
def State.owed (s : State n) (l : ℕ) (worker : WorkerId) : ℕ :=
  s.tokens (Op.owes l worker) (Command.owes l worker)

theorem sum_owes_finalizers (l : ℕ) {worker : WorkerId} (hworker : worker < n) :
    0 < (((List.range n).map (Op.createFinalizer l)).map (Op.owes l worker)).sum := by
  have hmem : (1 : ℕ) ∈ ((List.range n).map (Op.createFinalizer l)).map (Op.owes l worker) := by
    simp only [List.map_map, List.mem_map, List.mem_range, Function.comp_apply]
    exact ⟨worker, hworker, by simp [Op.owes]⟩
  exact Nat.lt_of_lt_of_le Nat.one_pos
    (List.single_le_sum (fun _ _ => Nat.zero_le _) _ hmem)

/-- What becomes of a finalizer that is still to come. -/
theorem Performs.owes (h : Performs g s w op e) {worker : WorkerId} (hworker : worker < n) :
    Op.owes l worker op ≤
        (e.next.map (Op.owes l worker)).sum + (e.action.created.map (Command.owes l worker)).sum ∨
      (∃ t, op = .prepare t (.threadLocalFinalize l worker) ∧ .threadLocalFinalize l ∈ e.next) ∨
      op = .createFinalizer l worker ∧ (s.locals l).threadLocalInitialized worker = false := by
  rcases Nat.eq_zero_or_pos (Op.owes l worker op) with hzero | hpos
  · left
    omega
  · cases h with
    | step op choice hoption =>
      cases op with
      | prepare t c =>
        cases c with
        | processBarrier l' =>
          left
          have hl : l' = l := by
            by_contra hne
            simp [Op.owes, Command.owes, hne] at hpos
          subst hl
          have hsum := sum_owes_finalizers l' hworker
          simp only [Op.owes, Command.owes, effect, body, if_true] at hsum ⊢
          omega
        | threadLocalFinalize l' worker' =>
          right; left
          have heq : l' = l ∧ worker' = worker := by
            by_contra hne
            simp [Op.owes, Command.owes, hne] at hpos
          obtain ⟨rfl, rfl⟩ := heq
          exact ⟨t, rfl, List.mem_cons_self⟩
        | _ => exact absurd hpos (Nat.lt_irrefl 0)
      | createFinalizer l' worker' =>
        have heq : l' = l ∧ worker' = worker := by
          by_contra hne
          simp [Op.owes, hne] at hpos
        obtain ⟨rfl, rfl⟩ := heq
        by_cases hflag : (s.locals l').threadLocalInitialized worker' = true
        · left
          simp [Op.owes, Command.owes, effect, hflag]
        · exact Or.inr (Or.inr ⟨rfl, by simpa using hflag⟩)
      | spawn c =>
        left
        simp [Op.owes, effect, Action.created]
      | _ => exact absurd hpos (Nat.lt_irrefl 0)
    | _ => exact absurd hpos (Nat.lt_irrefl 0)

/-- What a running task has in front of it has not been released. -/
theorem Inv.unreleased_before (h : Inv g lm s) (hrunning : (s.workers w).activity = .running t)
    (hc : s.commands[t]? = some c) {place : PhysicalSuccessor} (hplace : c.before? = some place) :
    ¬ Released s.system.log ((s.ids c.owner).get place) :=
  h.unreleased hrunning
    (.single (h.linked_of_called hc (h.running_called hrunning) place hplace))

/-- When the terminal task of a process has been taken, no other of its tasks runs. -/
theorem Inv.terminal_of_running (h : Inv g lm s) (hrunning : (s.workers w).activity = .running t)
    (hc : s.commands[t]? = some c) (htaken : .taken (s.ids c.owner).terminal ∈ s.system.log) :
    t = (s.ids c.owner).terminal := by
  refine (h.static.before_terminal hc
    (h.linked_of_called hc (h.running_called hrunning))).resolve_right fun hbefore => ?_
  exact h.unreleased hrunning hbefore ((run_inv h.run).log.taken_released _ htaken)

theorem process_of_createdBy {kind : TaskKind} (hrun : c.isRun = true)
    (hcreated : c.createdBy kind = true) : kind.isIntermediate = false := by
  cases c <;> cases kind <;>
    simp [Command.isRun, Command.createdBy, TaskKind.isIntermediate] at *

/-- The runs of a process lie between its entry and its barrier. -/
theorem Inv.process_of_isRun (h : Inv g lm s) (hc : s.commands[t]? = some c)
    (hrun : c.isRun = true) :
    (∃ kind, g.kindOf c.owner = some kind ∧ kind.isIntermediate = false) ∧
      c.after? = some .entry ∧ c.before? = some .barrier := by
  have hplaces : c.after? = some .entry ∧ c.before? = some .barrier := by
    cases c <;> first
      | exact ⟨rfl, rfl⟩
      | cases hrun
  refine ⟨?_, hplaces⟩
  rcases h.static.kinds t c hc with ⟨kind, place, -, hcommand, -⟩ | ⟨kind, hkind, hcreated⟩
  · rw [hcommand] at hrun
    cases kind <;> cases place <;> cases hrun
  · exact ⟨kind, hkind, process_of_createdBy hrun hcreated⟩

theorem Inv.command_barrier (h : Inv g lm s) {kind : TaskKind} (hkind : g.kindOf l = some kind)
    (hprocess : kind.isIntermediate = false) :
    s.commands[(s.ids l).barrier]? = some (.processBarrier l) := by
  have hcommand := (h.static.laid l kind hkind).command .barrier
  cases kind <;> first
    | exact hcommand
    | cases hprocess

/-- While the flag of a thread is set, a finalizer is still to come or about to clear it. -/
def Owed (s : State n) : Prop := ∀ l (v : Fin n), (s.locals l).threadLocalInitialized v = true →
  0 < s.owed l v ∨ .threadLocalFinalize l ∈ (s.workers v).program

/-- A flag is set by a run, so before the barrier. -/
theorem Inv.owed_of_mark (h : Inv g lm s) (hcourse : Programs OnCourse s)
    (hrunning : (s.workers w).activity = .running t)
    (hop : .markThreadLocalInitialized l ∈ (s.workers w).program) (worker : WorkerId) :
    0 < s.owed l worker := by
  obtain ⟨-, -, -, c, hc, -⟩ := h.running w t hrunning
  obtain ⟨rfl, hcalls⟩ := (hcourse w t c hrunning hc).calls (mem_stagesOf hop List.mem_cons_self)
  obtain ⟨⟨kind, hkind, hprocess⟩, -, hbefore⟩ := h.process_of_isRun hc hcalls
  refine tokens_pos_of_untaken _ (h.command_barrier hkind hprocess) (fun htaken => ?_) ?_
  · exact h.unreleased_before hrunning hc hbefore ((run_inv h.run).log.taken_released _ htaken)
  · simp [Command.owes]

theorem eq_mark_of_stages (h : op.stages = [(l, .marking .threadLocalInitialize)]) :
    op = .markThreadLocalInitialized l := by
  cases op with
  | markThreadLocalInitialized l' =>
    simp only [Op.stages, List.cons.injEq, Prod.mk.injEq, and_true] at h
    rw [h]
  | prepare t c => cases c <;> simp [Op.stages, Command.course] at h
  | _ => simp [Op.stages] at h

theorem flags_create (kind : TaskKind) (worker : WorkerId) :
    (Local.create kind).threadLocalInitialized worker = false := by
  cases kind <;> rfl

/-- An operation sets no flag of a thread but that of its own worker. -/
theorem Performs.threadFlag (h : Performs g s w op e) (rest : List Op) {v : Fin n}
    (hflag : ((s.apply w rest e).flags l).locals v = true) :
    (s.flags l).locals v = true ∨ op = .markThreadLocalInitialized l ∧ v = w := by
  rcases h.turn rest with hquiet | ⟨l', st, more, hturns⟩
  · left
    rw [flags_apply_quiet rest hquiet] at hflag
    exact hflag
  · by_cases hl : l = l'
    · subst hl
      obtain ⟨hstages, -, hturn, -⟩ := hturns
      generalize (s.apply w rest e).flags l = f' at hflag hturn
      cases hturn with
      | markThreadInitialized =>
        by_cases hv : v = w
        · exact Or.inr ⟨eq_mark_of_stages hstages, hv⟩
        · left
          simpa [Flags.setLocal, hv] using hflag
      | threadFinalize hset =>
        by_cases hv : v = w
        · subst hv
          simp [Flags.setLocal] at hflag
        · left
          simpa [Flags.setLocal, hv] using hflag
      | _ => exact Or.inl hflag
    · left
      rw [hturns.others l hl] at hflag
      exact hflag

/-- The finalization of a thread leaves its flag cleared. -/
theorem Performs.cleared (h : Performs g s w (.threadLocalFinalize l) e) (rest : List Op) :
    ((s.apply w rest e).flags l).locals w = false := by
  cases h with
  | step _ choice _ =>
    by_cases hflag : (s.locals l).threadLocalInitialized w = true
    · simp [State.flags, State.apply, effect, hflag]
    · simp [State.flags, State.apply, effect, hflag]

theorem Owed.apply (howed : Owed s) (h : Inv g lm s) (hcourse : Programs OnCourse s)
    (hpinned : ∀ worker, s.commands[t]? = some (.threadLocalFinalize l worker) →
      (w : WorkerId) = worker)
    (hrunning : (s.workers w).activity = .running t) (hcall : s.system.calls (some w) = .idle)
    (hprogram : (s.workers w).program = op :: rest) (heffect : Performs g s w op e) (v : Fin n)
    (hflag : ((s.apply w rest e).locals l).threadLocalInitialized v = true) :
    0 < (s.apply w rest e).owed l v ∨
      .threadLocalFinalize l ∈ ((s.apply w rest e).workers v).program := by
  have hmem : op ∈ (s.workers w).program := mem_program hprogram
  have htokens := h.tokens_apply hrunning hcall hprogram heffect (Op.owes l v) (Command.owes l v)
  have hcases : 0 < s.owed l v ∨ .threadLocalFinalize l ∈ (s.workers v).program := by
    rcases heffect.threadFlag rest hflag with hold | ⟨rfl, rfl⟩
    · exact howed l v hold
    · exact Or.inl (h.owed_of_mark hcourse hrunning hmem _)
  rcases hcases with hpos | hop
  · rcases heffect.owes (l := l) v.isLt with hle | ⟨t', rfl, hnext⟩ | ⟨rfl, hclear⟩
    · left
      unfold State.owed at hpos ⊢
      omega
    · -- the finalizer is about to run, on the worker that it is for
      right
      obtain ⟨c, hc, rfl, rfl⟩ := h.running_fits hrunning hmem
      have hv : v = w := Fin.ext (hpinned v hc).symm
      subst hv
      rw [apply_program_self]
      exact List.mem_append_left _ hnext
    · rcases heffect.threadFlag rest hflag with hold | ⟨heq, -⟩
      · rw [show (s.flags l).locals v = (s.locals l).threadLocalInitialized v from rfl, hclear] at hold
        cases hold
      · cases heq
  · right
    by_cases hv : v = w
    · subst hv
      rw [hprogram] at hop
      rcases List.mem_cons.mp hop with rfl | hop
      · have hclear := heffect.cleared rest
        rw [show ((s.apply v rest e).flags l).locals v =
          ((s.apply v rest e).locals l).threadLocalInitialized v from rfl, hflag] at hclear
        cases hclear
      · rw [apply_program_self]
        exact List.mem_append_right _ hop
    · rw [apply_program_of_ne s hv]
      exact hop

theorem cancel_owed (hwaits : Waits g) (hrun : CancelRun g lm s) : Owed s := by
  refine @cancel_induction n g lm s hwaits Owed ?_ ?_ ?_ ?_ hrun
  · intro draws l v hflag
    have hfresh := flags_create ((g.kindOf l).getD .gather) v
    exact absurd hflag (by simpa [State.start] using hfresh)
  · intro s w t op rest e hrun h howed hrunning hcall hprogram heffect l v hflag
    exact howed.apply h (cancel_onCourse hwaits hrun)
      (fun worker hc => cancel_pinned hwaits hrun hrunning hc) hrunning hcall hprogram heffect v hflag
  · intro s s' _ howed hbetween hstill l v hflag
    rw [hbetween.locals] at hflag
    rcases howed l v hflag with hpos | hop
    · left
      unfold State.owed at hpos ⊢
      rw [hbetween.tokens _ _ fun _ _ => rfl]
      exact hpos
    · right
      rw [hstill v (List.ne_nil_of_mem hop)]
      exact hop
  · intro s l x howed hcleared l' v hflag
    have hold : (s.locals l').threadLocalInitialized v = true := by
      by_cases hl : l' = l
      · subst hl
        exact hcleared.lowered v (by simpa [State.setLocal] using hflag)
      · simpa [State.setLocal, hl] using hflag
    exact howed l' v hold

/-- The weight of a finalizer lies with the barrier or with the finalizer. -/
theorem Inv.before_of_owes (h : Inv g lm s) (hfrom : Operations (FromBarrier n) s)
    (hrunning : (s.workers w).activity = .running t) (hop : op ∈ (s.workers w).program)
    {worker : WorkerId} (howes : 0 < op.owes l worker) :
    ∃ c, s.commands[t]? = some c ∧ c.owner = l ∧ ∀ l', c ≠ .globalFinalize l' := by
  obtain ⟨c, hc, hfits⟩ := h.running_fits hrunning hop
  have hbarrier := hfrom w t c hrunning hc op hop
  refine ⟨c, hc, ?_⟩
  cases op with
  | prepare t' c' =>
    obtain ⟨-, rfl⟩ := hfits
    cases c' with
    | processBarrier l' =>
      refine ⟨?_, by simp⟩
      by_contra hne
      exact absurd howes (by simp [Op.owes, Command.owes, show ¬ l' = l from hne])
    | threadLocalFinalize l' worker' =>
      refine ⟨?_, by simp⟩
      by_contra hne
      exact absurd howes (by simp [Op.owes, Command.owes, show ¬ l' = l from hne])
    | _ => exact absurd howes (Nat.lt_irrefl 0)
  | createFinalizer l' worker' =>
    have hc' : c = .processBarrier l' := hfits
    subst hc'
    refine ⟨?_, by simp⟩
    by_contra hne
    exact absurd howes (by simp [Op.owes, show ¬ l' = l from hne])
  | spawn c' =>
    cases c' with
    | threadLocalFinalize l' worker' =>
      obtain ⟨rfl, -⟩ := hbarrier
      refine ⟨?_, by simp⟩
      by_contra hne
      exact absurd howes (by simp [Op.owes, Command.owes, show ¬ l' = l from hne])
    | processBarrier l' =>
      obtain ⟨⟨kind, -, hcreated⟩, -⟩ := hfits
      cases hcreated
    | _ => exact absurd howes (Nat.lt_irrefl 0)
  | _ => exact absurd howes (Nat.lt_irrefl 0)

/-- When the terminal task of a process is taken, no thread is noted as initialised. -/
theorem flags_of_terminal_taken (hwaits : Waits g) (hrun : CancelRun g lm s) {kind : TaskKind}
    (hkind : g.kindOf l = some kind) (hprocess : kind.isIntermediate = false)
    (htaken : .taken (s.ids l).terminal ∈ s.system.log) (v : Fin n) :
    (s.locals l).threadLocalInitialized v = false := by
  have h := cancel_invariant hwaits hrun
  have hinv := run_inv h.run
  have hlaid := h.static.laid l kind hkind
  have hterminal : s.commands[(s.ids l).terminal]? = some (.globalFinalize l) := by
    have hcommand := hlaid.command .terminal
    cases kind <;> first
      | exact hcommand
      | cases hprocess
  have hreleased := hinv.log.taken_released _ htaken
  -- no task but the terminal one runs any more
  have hnone : ∀ {w t c}, (s.workers w).activity = .running t → s.commands[t]? = some c →
      c.owner = l → (∀ l', c ≠ .globalFinalize l') → False := by
    rintro w t c hrunning hc rfl hne
    have ht := h.terminal_of_running hrunning hc htaken
    rw [ht, hterminal, Option.some.injEq] at hc
    exact hne _ hc.symm
  by_contra hflag
  rw [Bool.not_eq_false] at hflag
  rcases cancel_owed hwaits hrun l v hflag with hpos | hop
  · rcases exists_of_tokens_pos hpos with ⟨w, op, hop, howes⟩ | ⟨u, c, hc, huntaken, howes⟩
    · obtain ⟨t, hrunning⟩ := h.running_of_mem hop
      obtain ⟨c, hc, howner, hne⟩ :=
        h.before_of_owes (cancel_fromBarrier hwaits hrun) hrunning hop howes
      exact hnone hrunning hc howner hne
    · have hover : ∀ {a}, Before s.system.log a (s.ids l).terminal → .taken a ∈ s.system.log := by
        intro a hbefore
        by_contra hlive
        refine hinv.unreleased_of_before hbefore (fun hdone => ?_) hreleased
        exact hlive (hinv.log.completed_taken _ hdone)
      cases c with
      | processBarrier l' =>
        have hl : l' = l := by
          by_contra hne
          simp [Command.owes, hne] at howes
        subst hl
        obtain ⟨kind', place, -, hcommand, rfl⟩ := h.static.fixed hc fun kind => by
          cases kind <;> rfl
        obtain ⟨-, rfl⟩ := place_of_processBarrier hcommand
        exact huntaken (hover (.single (hlaid.dependency_terminal (process_distinct hprocess _).2)))
      | threadLocalFinalize l' worker =>
        have hl : l' = l := by
          by_contra hne
          simp [Command.owes, hne] at howes
        subst hl
        rcases h.linked u _ .terminal hc rfl with hdep | ⟨w, deps, hop, -⟩
        · exact huntaken (hover (.single hdep))
        · obtain ⟨t, hrunning⟩ := h.running_of_mem hop
          obtain ⟨c, hc', -⟩ := h.running_fits hrunning hop
          obtain ⟨rfl, -⟩ := cancel_fromBarrier hwaits hrun w t c hrunning hc' _ hop
          exact hnone hrunning hc' rfl (by simp)
      | _ => exact absurd howes (Nat.lt_irrefl 0)
  · obtain ⟨t, hrunning⟩ := h.running_of_mem hop
    obtain ⟨c, hc, worker, rfl⟩ := h.running_fits hrunning hop
    exact hnone hrunning hc rfl (by simp)

end Runs

end M3bp.Engine
