import M3bp.EngineProgress

/-!
The engine while the sweeps of a cancellation clear the flags of processors and their
broadcast inputs. Which tasks there are and which come before which does not depend on
these, so what holds of the tasks in every run holds here too.
-/
namespace M3bp.Engine

open SchedulerCalls Transition

variable {n : ℕ}

/-- What a sweep may do to a logical task. -/
structure Local.Cleared (x y : Local) : Prop where
  same : y = { x with
    globalInitialized := y.globalInitialized
    threadLocalInitialized := y.threadLocalInitialized
    broadcastInputs := y.broadcastInputs }
  lowered : ∀ w, y.threadLocalInitialized w = true → x.threadLocalInitialized w = true

theorem Local.Cleared.gate {x y : Local} (h : x.Cleared y) : y.gate = x.gate := by
  rw [h.same]

def State.setLocal (s : State n) (l : ℕ) (x : Local) : State n :=
  { s with locals := Function.update s.locals l x }

/-- A step of the engine, or a sweep that clears. -/
inductive CancelStep (g : LogicalGraph) (lm : LocalityManager) (s : State n) : State n → Prop
  | step {s' : State n} (hstep : Step g lm s s') : CancelStep g lm s s'
  | clear (l : ℕ) (x : Local) (hcleared : (s.locals l).Cleared x) :
      CancelStep g lm s (s.setLocal l x)

def CancelRun (g : LogicalGraph) (lm : LocalityManager) : State n → Prop :=
  Reachable (fun s => ∃ draws, s = State.start g (Plan.setUp g lm draws)) (CancelStep g lm)

section Runs

variable {g : LogicalGraph} {lm : LocalityManager} {s s' : State n} {w : Fin n} {l : ℕ}
  {t : TaskId} {c : Command} {op : Op} {rest : List Op} {e : Effect}

theorem Inv.setLocal (h : Inv g lm s) {x : Local} (hgate : x.gate = (s.locals l).gate) :
    Inv g lm (s.setLocal l x) := by
  refine ⟨h.run, h.length, h.static, h.ordered, h.executor, h.idle, h.running, h.completing,
    h.alone, h.accounted, h.linked, fun u => ?_⟩
  have hlocals : (s.setLocal l x).inLocals g (fun _ => Local.waiting u) =
      s.inLocals g (fun _ => Local.waiting u) := by
    refine Finset.sum_congr rfl fun l' _ => ?_
    by_cases hl : l' = l
    · subst hl
      simp [State.setLocal, Local.waiting, hgate]
    · simp [State.setLocal, hl]
  have hcommits := h.commits u
  unfold State.commits at hcommits ⊢
  rw [hlocals]
  exact hcommits

theorem cancel_invariant (hwaits : Waits g) (hrun : CancelRun g lm s) : Inv g lm s := by
  refine Inductive.reachable ⟨?_, ?_⟩ hrun
  · rintro _ ⟨draws, rfl⟩
    exact start_inv hwaits.endpoints draws
  · intro s s' h hstep
    cases hstep with
    | step hstep => exact step_inv hwaits h hstep
    | clear l x hcleared => exact h.setLocal hcleared.gate

/-- Nothing happens to a worker that has something to do, unless it does it. -/
theorem Inv.step_still (h : Inv g lm s) (hstep : Step g lm s s') :
    (∃ w t op rest e, (s.workers w).activity = .running t ∧ s.system.calls (some w) = .idle ∧
      (s.workers w).program = op :: rest ∧ Performs g s w op e ∧ s' = s.apply w rest e) ∨
    ∀ w, (s.workers w).program ≠ [] → s'.workers w = s.workers w := by
  have hbusy : ∀ w w', (s.workers w).program ≠ [] → (s.workers w').program = [] → w ≠ w' := by
    rintro w w' hprogram hnil rfl
    exact hprogram hnil
  cases hstep with
  | perform hrunning hcall hprogram heffect =>
    exact Or.inl ⟨_, _, _, _, _, hrunning, hcall, hprogram, heffect, rfl⟩
  | @take w' q t scheduler hidle hpop =>
    refine Or.inr fun w hw => ?_
    simp [State.take, hbusy w w' hw (h.idle w' (Or.inl hidle)).1]
  | @complete w' t hrunning hcall hnil =>
    refine Or.inr fun w hw => ?_
    simp [State.complete, hbusy w w' hw hnil]
  | commitDecrement hcall => exact Or.inr fun _ _ => rfl
  | drain hcall => exact Or.inr fun _ _ => rfl
  | @finish w' t hcall =>
    refine Or.inr fun w hw => ?_
    simp [State.setActivity,
      hbusy w w' hw (h.completing w' t (h.completing_of_draining hcall)).1]
  | @leave w' hidle hfinished =>
    refine Or.inr fun w hw => ?_
    simp [State.setActivity, hbusy w w' hw (h.idle w' (Or.inl hidle)).1]

/-- The induction over a run with sweeps. -/
theorem cancel_induction (hwaits : Waits g) {P : State n → Prop}
    (hstart : ∀ draws, P (State.start g (Plan.setUp g lm draws)))
    (hperform : ∀ (s : State n) w t op rest e, CancelRun g lm s → Inv g lm s → P s →
      (s.workers w).activity = .running t → s.system.calls (some w) = .idle →
      (s.workers w).program = op :: rest → Performs g s w op e → P (s.apply w rest e))
    (hbetween : ∀ s s' : State n, Inv g lm s → P s → Between s s' →
      (∀ w, (s.workers w).program ≠ [] → s'.workers w = s.workers w) → P s')
    (hclear : ∀ (s : State n) l x, P s → (s.locals l).Cleared x → P (s.setLocal l x))
    (hrun : CancelRun g lm s) : P s := by
  induction hrun with
  | start hinit =>
    obtain ⟨draws, rfl⟩ := hinit
    exact hstart draws
  | @next s s' hrun hstep ih =>
    have h := cancel_invariant hwaits hrun
    cases hstep with
    | clear l x hcleared => exact hclear s l x ih hcleared
    | step hstep =>
      rcases h.step_cases hstep with ⟨w, t, op, rest, e, hrunning, hcall, hprogram, heffect, rfl⟩ |
          hother
      · exact hperform s w t op rest e hrun h ih hrunning hcall hprogram heffect
      · rcases h.step_still hstep with
          ⟨w, t, op, rest, e, hrunning, hcall, hprogram, heffect, rfl⟩ | hstill
        · exact hperform s w t op rest e hrun h ih hrunning hcall hprogram heffect
        · exact hbetween s s' h ih hother hstill

/-- What is kept by every operation holds of the programs in a run with sweeps. -/
theorem cancel_programs (hwaits : Waits g) {Q : Command → List Op → Prop}
    (hprepare : ∀ t c, Q c [.prepare t c])
    (hnext : ∀ (s : State n) w t c op rest e, Inv g lm s → (s.workers w).activity = .running t →
      s.commands[t]? = some c → (s.workers w).program = op :: rest → Performs g s w op e →
        Q c (op :: rest) → Q c (e.next ++ rest))
    (hrun : CancelRun g lm s) : Programs Q s := by
  induction hrun with
  | start hinit =>
    obtain ⟨draws, rfl⟩ := hinit
    exact programs_start _ g _
  | @next s s' hrun hstep ih =>
    have h := cancel_invariant hwaits hrun
    cases hstep with
    | clear l x _ => exact ih
    | step hstep =>
      exact step_programs h hprepare (fun w t c op rest e => hnext s w t c op rest e h) ih hstep

theorem cancel_operations (hwaits : Waits g) {R : Command → Op → Prop}
    (hprepare : ∀ t c, R c (.prepare t c))
    (hnext : ∀ (s : State n) w t c op rest e, Inv g lm s → (s.workers w).activity = .running t →
      s.commands[t]? = some c → (s.workers w).program = op :: rest → Performs g s w op e →
        R c op → ∀ op' ∈ e.next, R c op')
    (hrun : CancelRun g lm s) : Operations R s := by
  refine cancel_programs hwaits ?_ ?_ hrun
  · intro t c op hop
    rw [List.mem_singleton.mp hop]
    exact hprepare t c
  · intro s w t c op rest e h hrunning hc hprogram heffect hold op' hop'
    rcases List.mem_append.mp hop' with hop' | hop'
    · exact hnext s w t c op rest e h hrunning hc hprogram heffect (hold op List.mem_cons_self)
        op' hop'
    · exact hold op' (List.mem_cons_of_mem _ hop')

/-! The fixed tasks. -/

/-- The tasks of the set-up have been committed. -/
theorem cancel_fixed_called (hwaits : Waits g) (hrun : CancelRun g lm s) {kind : TaskKind}
    (hkind : g.kindOf l = some kind) (place : PhysicalSuccessor) :
    .commitCalled ((s.ids l).get place) ∈ s.system.log := by
  refine @cancel_induction n g lm s hwaits
    (fun s => .commitCalled ((s.ids l).get place) ∈ s.system.log) ?_ ?_ ?_ ?_ hrun
  · intro draws
    have h := @setUp_spec n g lm draws hwaits.endpoints
    have hcommand := (h.laid l kind hkind).command place
    exact h.called _ (List.getElem?_eq_some_iff.mp hcommand).1
  · intro s w t op rest e _ h hcalled hrunning hcall hprogram heffect
    have hlog : (s.apply w rest e).system.log = e.action.events s.system ++ s.system.log :=
      (performed h.run hcall (h.action_valid hrunning hprogram heffect)).log
    rw [hlog]
    exact List.mem_append_right _ hcalled
  · intro s s' _ hcalled hbetween _
    rw [hbetween.ids]
    exact hbetween.log hcalled
  · intro s l x hcalled _
    exact hcalled

/-- A scheduler that is finished has executed the fixed tasks. -/
theorem cancel_fixed_completed (hwaits : Waits g) (hrun : CancelRun g lm s)
    (hfinished : s.system.scheduler.isFinished = true) {kind : TaskKind}
    (hkind : g.kindOf l = some kind) (place : PhysicalSuccessor) :
    .completed ((s.ids l).get place) ∈ s.system.log := by
  have h := cancel_invariant hwaits hrun
  have hcalled := cancel_fixed_called hwaits hrun hkind place
  exact (run_inv h.run).log.finished_completed _
    ((run_inv h.run).finished_of_isFinished hfinished hcalled)

/-! The finalizers come from the barrier. -/

theorem cancel_fromBarrier (hwaits : Waits g) (hrun : CancelRun g lm s) :
    Operations (FromBarrier n) s :=
  cancel_operations hwaits (fun _ _ => trivial)
    (fun _ _ _ _ _ _ _ h hrunning hc hprogram heffect hop =>
      h.fromBarrier_next hrunning hc hprogram heffect hop) hrun

/-- A finalizer that is about to be created comes from a barrier that runs. -/
theorem Inv.barrier_of_spawn (h : Inv g lm s) (hfrom : Operations (FromBarrier n) s)
    (hrunning : (s.workers w).activity = .running t) {worker : WorkerId}
    (hop : .spawn (.threadLocalFinalize l worker) ∈ (s.workers w).program) :
    worker < n ∧ t = (s.ids l).barrier := by
  obtain ⟨-, -, -, c, hc, -⟩ := h.running w t hrunning
  obtain ⟨rfl, hworker⟩ := hfrom w t c hrunning hc _ hop
  obtain ⟨kind, place, -, hcommand, hid⟩ := h.static.fixed hc fun kind => by cases kind <;> rfl
  obtain ⟨-, rfl⟩ := place_of_processBarrier hcommand
  exact ⟨hworker, hid⟩

/-- A new command is the one that an operation spawns. -/
theorem Performs.created_of_lt (heffect : Performs g s w op e) (hge : s.commands.length ≤ t)
    (hc : (s.apply w rest e).commands[t]? = some c) :
    op = .spawn c ∧ ∃ choice : Choice, c.Allows choice.option ∧ e = effect g s choice w op := by
  simp only [State.apply, List.getElem?_append_right hge] at hc
  have hnew := List.mem_of_getElem? hc
  rcases heffect.action with hnone | ⟨c', choice, rfl, hallows, rfl⟩ | ⟨_, _, _, _, -, rfl⟩ |
      ⟨_, -, rfl⟩
  · rw [hnone] at hnew
    cases hnew
  · obtain rfl := List.mem_singleton.mp hnew
    exact ⟨rfl, choice, hallows, rfl⟩
  · cases hnew
  · cases hnew

/-- A finalizer exists when the barrier of its process has been taken. -/
theorem cancel_finalizer (hwaits : Waits g) (hrun : CancelRun g lm s) {worker : WorkerId}
    (hc : s.commands[t]? = some (.threadLocalFinalize l worker)) :
    worker < n ∧ .taken (s.ids l).barrier ∈ s.system.log := by
  refine @cancel_induction n g lm s hwaits (fun s => ∀ t,
    s.commands[t]? = some (.threadLocalFinalize l worker) →
      worker < n ∧ .taken (s.ids l).barrier ∈ s.system.log) ?_ ?_ ?_ ?_ hrun t hc
  · intro draws t hc
    have h := @setUp_spec n g lm draws hwaits.endpoints
    obtain ⟨kind, place, -, hcommand, -⟩ := h.fixed t _ hc
    cases kind <;> cases place <;> cases hcommand
  · intro s w t op rest e hrun h ih hrunning hcall hprogram heffect u hu
    have hlog : (s.apply w rest e).system.log = e.action.events s.system ++ s.system.log :=
      (performed h.run hcall (h.action_valid hrunning hprogram heffect)).log
    have hgoal : worker < n ∧ .taken (s.ids l).barrier ∈ s.system.log := by
      rcases Nat.lt_or_ge u s.commands.length with hlt | hge
      · refine ih u ?_
        simpa only [State.apply, List.getElem?_append_left hlt] using hu
      · obtain ⟨rfl, -⟩ := heffect.created_of_lt hge hu
        obtain ⟨hworker, hbarrier⟩ := h.barrier_of_spawn (cancel_fromBarrier hwaits hrun) hrunning
          (mem_program hprogram)
        exact ⟨hworker, hbarrier ▸ (h.running w t hrunning).1⟩
    rw [hlog]
    exact ⟨hgoal.1, List.mem_append_right _ hgoal.2⟩
  · intro s s' _ ih hbetween _ u hu
    rw [hbetween.commands] at hu
    rw [hbetween.ids]
    exact ⟨(ih u hu).1, hbetween.log (ih u hu).2⟩
  · intro s l x ih _
    exact ih

/-! What a created task waits for. -/

/-- A task that waits for a fixed one: that one is over, or the dependency is recorded or
will be. -/
def Awaits (s : State n) : Prop := ∀ t c place, s.commands[t]? = some c → c.after? = some place →
  .completed ((s.ids c.owner).get place) ∈ s.system.log ∨
    .dependency ((s.ids c.owner).get place) t ∈ s.system.log ∨
      ∃ w deps, .link t c deps ∈ (s.workers w).program ∧ ((s.ids c.owner).get place, t) ∈ deps

theorem awaits_start (hwaits : Waits g) (draws : TaskId → WorkerId) :
    Awaits (State.start g (Plan.setUp g lm draws) : State n) := by
  intro t c place hc hplace
  have h := @setUp_spec n g lm draws hwaits.endpoints
  obtain ⟨kind, place', -, hcommand, -⟩ := h.fixed t c hc
  rw [hcommand] at hplace
  cases kind <;> cases place' <;> cases hplace

theorem Awaits.apply (hawaits : Awaits s) (h : Inv g lm s)
    (hrunning : (s.workers w).activity = .running t)
    (hcall : s.system.calls (some w) = .idle) (hprogram : (s.workers w).program = op :: rest)
    (heffect : Performs g s w op e) : Awaits (s.apply w rest e) := by
  have hlog : (s.apply w rest e).system.log = e.action.events s.system ++ s.system.log :=
    (performed h.run hcall (h.action_valid hrunning hprogram heffect)).log
  intro u c place hc hplace
  show Event.completed ((s.ids c.owner).get place) ∈ (s.apply w rest e).system.log ∨
    Event.dependency ((s.ids c.owner).get place) u ∈ (s.apply w rest e).system.log ∨
      ∃ w' deps, .link u c deps ∈ ((s.apply w rest e).workers w').program ∧
        ((s.ids c.owner).get place, u) ∈ deps
  rcases Nat.lt_or_ge u s.commands.length with hlt | hge
  · have hc' : s.commands[u]? = some c := by
      simpa only [State.apply, List.getElem?_append_left hlt] using hc
    rw [hlog]
    rcases hawaits u c place hc' hplace with hdone | hdep | ⟨w', deps, hop, hdeps⟩
    · exact Or.inl (List.mem_append_right _ hdone)
    · exact Or.inr (Or.inl (List.mem_append_right _ hdep))
    · by_cases hw : w' = w
      · subst hw
        rw [hprogram] at hop
        rcases List.mem_cons.mp hop with rfl | hop
        · -- the link itself goes on with its next dependency
          rcases heffect.action with hnone | ⟨_, _, heq, -, -⟩ | ⟨u', c', d, deps', heq, rfl⟩ |
              ⟨_, heq, -⟩
          · cases heffect
            cases deps with
            | nil => cases hdeps
            | cons d deps => cases hnone
          · cases heq
          · cases heq
            rcases List.mem_cons.mp hdeps with rfl | hdeps
            · by_cases hdone : .completed ((s.ids c.owner).get place) ∈ s.system.log
              · exact Or.inl (List.mem_append_right _ hdone)
              · right; left
                simp [Action.events, hdone]
            · refine Or.inr (Or.inr ⟨w', deps', ?_, hdeps⟩)
              rw [apply_program_self]
              exact List.mem_append_left _ (List.mem_singleton.mpr rfl)
          · cases heq
        · refine Or.inr (Or.inr ⟨w', deps, ?_, hdeps⟩)
          rw [apply_program_self]
          exact List.mem_append_right _ hop
      · refine Or.inr (Or.inr ⟨w', deps, ?_, hdeps⟩)
        rw [apply_program_of_ne s hw]
        exact hop
  · obtain ⟨rfl, choice, -, rfl⟩ := heffect.created_of_lt hge hc
    have hu : u = s.system.nextTask := by
      have hlt : u < (s.commands ++ [c]).length := (List.getElem?_eq_some_iff.mp hc).1
      rw [List.length_append, List.length_singleton] at hlt
      have hnext : s.system.nextTask = s.commands.length := h.length.symm
      exact (Nat.le_antisymm (Nat.le_of_lt_succ hlt) hge).trans hnext.symm
    refine Or.inr (Or.inr ⟨w, c.dependencies (s.ids c.owner) u, ?_, ?_⟩)
    · rw [apply_program_self, hu]
      exact List.mem_append_left _ (List.mem_singleton.mpr rfl)
    · simp [Command.dependencies, hplace]

theorem cancel_awaits (hwaits : Waits g) (hrun : CancelRun g lm s) : Awaits s := by
  refine @cancel_induction n g lm s hwaits Awaits (awaits_start hwaits) ?_ ?_ ?_ hrun
  · intro s w t op rest e _ h hawaits hrunning hcall hprogram heffect
    exact hawaits.apply h hrunning hcall hprogram heffect
  · intro s s' _ hawaits hbetween hstill u c place hc hplace
    rw [hbetween.commands] at hc
    rw [hbetween.ids]
    rcases hawaits u c place hc hplace with hdone | hdep | ⟨w, deps, hop, hdeps⟩
    · exact Or.inl (hbetween.log hdone)
    · exact Or.inr (Or.inl (hbetween.log hdep))
    · refine Or.inr (Or.inr ⟨w, deps, ?_, hdeps⟩)
      rw [hstill w (List.ne_nil_of_mem hop)]
      exact hop
  · intro s l x hawaits _
    exact hawaits

/-- The fixed task that a taken task waited for is over. -/
theorem completed_of_taken (hwaits : Waits g) (hrun : CancelRun g lm s)
    (hc : s.commands[t]? = some c) {place : PhysicalSuccessor} (hplace : c.after? = some place)
    (htaken : .taken t ∈ s.system.log) : .completed ((s.ids c.owner).get place) ∈ s.system.log := by
  have h := cancel_invariant hwaits hrun
  have hinv := run_inv h.run
  rcases cancel_awaits hwaits hrun t c place hc hplace with hdone | hdep | ⟨w, deps, hop, -⟩
  · exact hdone
  · exact hinv.predecessor_completed (hinv.log.taken_released t htaken) hdep
  · have hcalled := hinv.taken_called htaken
    exact absurd hcalled (h.uncalled_of_owed hop (by simp [Op.owesCommit])).1

end Runs

end M3bp.Engine
