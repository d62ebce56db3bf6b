import M3bp.EngineLedger

/-!
What holds of the programs of the running tasks. A program starts with the preparation of
its command, and each operation replaces the head by what it leads to.
-/
namespace M3bp.Engine

open SchedulerCalls

variable {n : ℕ} {g : LogicalGraph} {lm : LocalityManager} {s s' : State n} {w : Fin n}
  {t : TaskId} {c : Command} {op : Op}

/-- `Q` holds of every running task's command and program. -/
def Programs (Q : Command → List Op → Prop) (s : State n) : Prop :=
  ∀ w t c, (s.workers w).activity = .running t → s.commands[t]? = some c →
    Q c (s.workers w).program

theorem Inv.command_of_step (h : Inv g lm s) {new : List Command}
    (hrunning : (s.workers w).activity = .running t) (hc : (s.commands ++ new)[t]? = some c) :
    s.commands[t]? = some c := by
  obtain ⟨-, -, -, c₀, hc₀, -⟩ := h.running w t hrunning
  rw [getElem?_append_of_some hc₀, Option.some.injEq] at hc
  rw [← hc]
  exact hc₀

/-- What holds of the preparation of every command and is kept by every operation holds of
the programs after a step. -/
theorem step_programs {Q : Command → List Op → Prop} (h : Inv g lm s)
    (hprepare : ∀ t c, Q c [.prepare t c])
    (hnext : ∀ w t c op rest e, (s.workers w).activity = .running t → s.commands[t]? = some c →
      (s.workers w).program = op :: rest → Performs g s w op e → Q c (op :: rest) →
        Q c (e.next ++ rest))
    (hQ : Programs Q s) (hstep : Step g lm s s') : Programs Q s' := by
  intro w' t' c' hrunning' hc'
  cases hstep with
  | @take w q t scheduler hidle hpop =>
    by_cases hw : w' = w
    · subst hw
      simp only [State.take, Function.update_self, Activity.running.injEq] at hrunning' ⊢
      subst hrunning'
      have hc : s.commands[t]? = some c' := hc'
      rw [hc]
      exact hprepare t c'
    · simp only [State.take, Function.update_of_ne hw] at hrunning' ⊢
      exact hQ w' t' c' hrunning' hc'
  | @perform w t op rest e hrunning hcall hprogram heffect =>
    by_cases hw : w' = w
    · subst hw
      simp only [State.apply, Function.update_self] at hrunning' hc' ⊢
      rw [hrunning, Activity.running.injEq] at hrunning'
      subst hrunning'
      have hc := h.command_of_step hrunning hc'
      apply hnext w' t c' op rest e hrunning hc hprogram heffect
      rw [← hprogram]
      exact hQ w' t c' hrunning hc
    · simp only [State.apply, Function.update_of_ne hw] at hrunning' hc' ⊢
      exact hQ w' t' c' hrunning' (h.command_of_step hrunning' hc')
  | @complete w t hrunning hcall hprogram =>
    by_cases hw : w' = w
    · subst hw
      simp [State.complete] at hrunning'
    · simp only [State.complete, Function.update_of_ne hw] at hrunning' ⊢
      exact hQ w' t' c' hrunning' hc'
  | commitDecrement hcall => exact hQ w' t' c' hrunning' hc'
  | drain hcall => exact hQ w' t' c' hrunning' hc'
  | @finish w t hcall =>
    by_cases hw : w' = w
    · subst hw
      simp [State.setActivity] at hrunning'
    · simp only [State.setActivity, Function.update_of_ne hw] at hrunning' ⊢
      exact hQ w' t' c' hrunning' hc'
  | @leave w hidle hfinished =>
    by_cases hw : w' = w
    · subst hw
      simp [State.setActivity] at hrunning'
    · simp only [State.setActivity, Function.update_of_ne hw] at hrunning' ⊢
      exact hQ w' t' c' hrunning' hc'

/-- `R` holds of every operation that a running task still has to carry out. -/
def Operations (R : Command → Op → Prop) : State n → Prop :=
  Programs fun c program => ∀ op ∈ program, R c op

/-- What holds of the preparation of every command and is handed on from operation to
operation holds of all operations after a step. -/
theorem step_operations {R : Command → Op → Prop} (h : Inv g lm s)
    (hprepare : ∀ t c, R c (.prepare t c))
    (hnext : ∀ w t c op rest e, (s.workers w).activity = .running t → s.commands[t]? = some c →
      (s.workers w).program = op :: rest → Performs g s w op e → R c op → ∀ op' ∈ e.next, R c op')
    (hR : Operations R s) (hstep : Step g lm s s') : Operations R s' := by
  refine step_programs h ?_ ?_ hR hstep
  · intro t c op hop
    rw [List.mem_singleton.mp hop]
    exact hprepare t c
  · intro w t c op rest e hrunning hc hprogram heffect hold op' hop'
    rcases List.mem_append.mp hop' with hop' | hop'
    · exact hnext w t c op rest e hrunning hc hprogram heffect (hold op List.mem_cons_self) op' hop'
    · exact hold op' (List.mem_cons_of_mem _ hop')

theorem programs_start (Q : Command → List Op → Prop) (g : LogicalGraph) (p : Plan n) :
    Programs Q (State.start g p) := by
  intro w t c hrunning
  cases hrunning

theorem run_operations (hwaits : Waits g) {R : Command → Op → Prop}
    (hprepare : ∀ t c, R c (.prepare t c))
    (hnext : ∀ (s : State n) w t c op rest e, Inv g lm s → (s.workers w).activity = .running t →
      s.commands[t]? = some c → (s.workers w).program = op :: rest → Performs g s w op e →
        R c op → ∀ op' ∈ e.next, R c op')
    (hrun : Run g lm s) : Operations R s := by
  induction hrun with
  | start hinit =>
    obtain ⟨draws, rfl⟩ := hinit
    exact programs_start _ g _
  | @next s s' hrun hstep ih =>
    have h := run_invariant hwaits hrun
    refine step_operations h hprepare ?_ ih hstep
    intro w t c op rest e hrunning hc hprogram heffect
    exact hnext s w t c op rest e h hrunning hc hprogram heffect

/-- The command of a running task with what an operation of its program may assume. -/
theorem Inv.fits_of_mem (h : Inv g lm s) (hrunning : (s.workers w).activity = .running t)
    (hc : s.commands[t]? = some c) (hop : op ∈ (s.workers w).program) :
    Fits g s.system.log s.commands s.ids t c op := by
  obtain ⟨c', hc', hfits⟩ := h.running_fits hrunning hop
  rw [hc, Option.some.injEq] at hc'
  rw [hc']
  exact hfits

/-! What holds wherever an operation, a command, a logical task or an object stands. -/

structure Throughout (O : Op → Prop) (C : Command → Prop) (L : Local → Prop) (R : Object → Prop)
    (s : State n) : Prop where
  operations : ∀ w, ∀ op ∈ (s.workers w).program, O op
  held : ∀ w, ∀ o ∈ (s.workers w).held, R o
  buffers : ∀ w, ∀ o ∈ (s.workers w).buffers, R o
  locals : ∀ l, L (s.locals l)
  commands : ∀ c ∈ s.commands, C c

structure Effect.Throughout (O : Op → Prop) (C : Command → Prop) (L : Local → Prop)
    (R : Object → Prop) (e : Effect) : Prop where
  next : ∀ op ∈ e.next, O op
  held : ∀ objects, e.held = some objects → ∀ o ∈ objects, R o
  buffers : ∀ objects, e.buffers = some objects → ∀ o ∈ objects, R o
  change : ∀ l y, e.change = some (l, y) → L y
  created : ∀ c ∈ e.action.created, C c

section Throughout

variable {O : Op → Prop} {C : Command → Prop} {L : Local → Prop} {R : Object → Prop} {e : Effect}
  {rest : List Op}

theorem Effect.throughout_action {next : List Op} {action : Action} (hnext : ∀ op ∈ next, O op)
    (hcreated : ∀ c ∈ action.created, C c) :
    ({ next := next, action := action } : Effect).Throughout O C L R where
  next := hnext
  held := by simp
  buffers := by simp
  change := by simp
  created := hcreated

theorem Effect.throughout_held {next : List Op} {objects : List Object}
    (hnext : ∀ op ∈ next, O op) (hheld : ∀ o ∈ objects, R o) :
    ({ next := next, held := some objects } : Effect).Throughout O C L R where
  next := hnext
  held := by simpa using hheld
  buffers := by simp
  change := by simp
  created := List.forall_mem_nil _

theorem Effect.throughout_buffers {next : List Op} {objects : List Object}
    {allocated : List ℕ} {notes : List Note} (hnext : ∀ op ∈ next, O op)
    (hbuffers : ∀ o ∈ objects, R o) :
    ({ next := next, buffers := some objects, allocated := allocated, notes := notes } :
      Effect).Throughout O C L R where
  next := hnext
  held := by simp
  buffers := by simpa using hbuffers
  change := by simp
  created := List.forall_mem_nil _

theorem Throughout.apply (h : Throughout O C L R s) (hprogram : (s.workers w).program = op :: rest)
    (he : e.Throughout O C L R) : Throughout O C L R (s.apply w rest e) := by
  refine ⟨fun w' op' hop' => ?_, fun w' o ho => ?_, fun w' o ho => ?_, fun l => ?_, fun c hc => ?_⟩
  · by_cases hw : w' = w
    · subst hw
      simp only [State.apply, Function.update_self, List.mem_append] at hop'
      rcases hop' with hop' | hop'
      · exact he.next op' hop'
      · apply h.operations w'
        rw [hprogram]
        exact List.mem_cons_of_mem _ hop'
    · simp only [State.apply, Function.update_of_ne hw] at hop'
      exact h.operations w' op' hop'
  · by_cases hw : w' = w
    · subst hw
      simp only [State.apply, Function.update_self] at ho
      cases hheld : e.held with
      | none =>
        rw [hheld] at ho
        exact h.held w' o ho
      | some objects =>
        rw [hheld] at ho
        exact he.held objects hheld o ho
    · simp only [State.apply, Function.update_of_ne hw] at ho
      exact h.held w' o ho
  · by_cases hw : w' = w
    · subst hw
      simp only [State.apply, Function.update_self] at ho
      cases hbuffers : e.buffers with
      | none =>
        rw [hbuffers] at ho
        exact h.buffers w' o ho
      | some objects =>
        rw [hbuffers] at ho
        exact he.buffers objects hbuffers o ho
    · simp only [State.apply, Function.update_of_ne hw] at ho
      exact h.buffers w' o ho
  · simp only [State.apply]
    cases hchange : e.change with
    | none => exact h.locals l
    | some change =>
      simp only [Option.elim_some]
      by_cases hl : l = change.1
      · subst hl
        rw [Function.update_self]
        exact he.change change.1 change.2 hchange
      · rw [Function.update_of_ne hl]
        exact h.locals l
  · rcases List.mem_append.mp hc with hc | hc
    · exact h.commands c hc
    · exact he.created c hc

/-- A worker that has no program left and holds nothing, or is as it was. -/
theorem Throughout.settle (h : Throughout O C L R s)
    (hworkers : ∀ w, (s'.workers w).program = [] ∧ (s'.workers w).held = [] ∧
        (s'.workers w).buffers = [] ∨
      (s'.workers w).program = (s.workers w).program ∧ (s'.workers w).held = (s.workers w).held ∧
        (s'.workers w).buffers = (s.workers w).buffers)
    (hlocals : s'.locals = s.locals) (hcommands : s'.commands = s.commands) :
    Throughout O C L R s' := by
  refine ⟨fun w op hop => ?_, fun w o ho => ?_, fun w o ho => ?_, fun l => ?_, fun c hc => ?_⟩
  · rcases hworkers w with ⟨hnil, -, -⟩ | ⟨hsame, -, -⟩
    · rw [hnil] at hop
      cases hop
    · exact h.operations w op (hsame ▸ hop)
  · rcases hworkers w with ⟨-, hnil, -⟩ | ⟨-, hsame, -⟩
    · rw [hnil] at ho
      cases ho
    · exact h.held w o (hsame ▸ ho)
  · rcases hworkers w with ⟨-, -, hnil⟩ | ⟨-, -, hsame⟩
    · rw [hnil] at ho
      cases ho
    · exact h.buffers w o (hsame ▸ ho)
  · rw [hlocals]
    exact h.locals l
  · rw [hcommands] at hc
    exact h.commands c hc

theorem Throughout.take (h : Throughout O C L R s) (hprepare : ∀ t c, C c → O (.prepare t c))
    (w : Fin n) (t : TaskId) (scheduler : Scheduler) :
    Throughout O C L R (s.take w t scheduler) := by
  have hother : ∀ w', w' ≠ w → (s.take w t scheduler).workers w' = s.workers w' :=
    fun w' hw => Function.update_of_ne hw _ _
  have hself : (s.take w t scheduler).workers w =
      { Worker.idle with
        activity := .running t
        program := (s.commands[t]?).toList.map (.prepare t) } := Function.update_self _ _ _
  refine ⟨fun w' op hop => ?_, fun w' o ho => ?_, fun w' o ho => ?_, h.locals, h.commands⟩
  · by_cases hw : w' = w
    · rw [hw, hself] at hop
      obtain ⟨c, hc, rfl⟩ := List.mem_map.mp hop
      rw [Option.mem_toList] at hc
      exact hprepare t c (h.commands c (List.mem_of_getElem? hc))
    · rw [hother w' hw] at hop
      exact h.operations w' op hop
  · by_cases hw : w' = w
    · rw [hw, hself] at ho
      cases ho
    · rw [hother w' hw] at ho
      exact h.held w' o ho
  · by_cases hw : w' = w
    · rw [hw, hself] at ho
      cases ho
    · rw [hother w' hw] at ho
      exact h.buffers w' o ho

/-- What every effect of an operation keeps is kept by a step. -/
theorem step_throughout (h : Throughout O C L R s) (hprepare : ∀ t c, C c → O (.prepare t c))
    (hstep : Step g lm s s')
    (hperform : ∀ w op rest e, (s.workers w).program = op :: rest → Performs g s w op e →
      s' = s.apply w rest e → e.Throughout O C L R) : Throughout O C L R s' := by
  have hsettle : ∀ (w : Fin n) (activity : Activity) (system : System (Option (Fin n))),
      Throughout O C L R { s.setActivity w activity with system := system } := by
    intro w activity system
    refine h.settle (fun w' => Or.inr ?_) rfl rfl
    by_cases hw : w' = w
    · subst hw
      simp [State.setActivity]
    · simp [State.setActivity, hw]
  cases hstep with
  | take hidle hpop => exact h.take hprepare _ _ _
  | perform hrunning hcall hprogram heffect =>
    exact h.apply hprogram (hperform _ _ _ _ hprogram heffect rfl)
  | @complete w t hrunning hcall hprogram =>
    refine h.settle (fun w' => ?_) rfl rfl
    by_cases hw : w' = w
    · subst hw
      exact Or.inl ⟨by simp [State.complete, Worker.idle], by simp [State.complete, Worker.idle],
        by simp [State.complete, Worker.idle]⟩
    · exact Or.inr ⟨by simp [State.complete, hw], by simp [State.complete, hw],
        by simp [State.complete, hw]⟩
  | commitDecrement hcall => exact ⟨h.operations, h.held, h.buffers, h.locals, h.commands⟩
  | drain hcall => exact ⟨h.operations, h.held, h.buffers, h.locals, h.commands⟩
  | finish hcall => exact hsettle _ _ _
  | leave hidle hfinished => exact hsettle _ _ _

theorem commands_createPhysicalTasks (p : Plan n) (l : ℕ) (kind : TaskKind) :
    ∀ c ∈ (p.createPhysicalTasks l kind).commands,
      c ∈ p.commands ∨ ∃ place, c = commandAt kind l place := by
  intro c hc
  cases kind with
  | gather =>
    rcases List.mem_append.mp hc with hc | hc
    · exact Or.inl hc
    · exact Or.inr ⟨.entry, List.mem_singleton.mp hc⟩
  | valueSort comparator =>
    rcases List.mem_append.mp hc with hc | hc
    · rcases List.mem_append.mp hc with hc | hc
      · exact Or.inl hc
      · exact Or.inr ⟨.entry, List.mem_singleton.mp hc⟩
    · exact Or.inr ⟨.terminal, List.mem_singleton.mp hc⟩
  | _ =>
    rcases List.mem_append.mp hc with hc | hc
    · rcases List.mem_append.mp hc with hc | hc
      · rcases List.mem_append.mp hc with hc | hc
        · exact Or.inl hc
        · exact Or.inr ⟨.entry, List.mem_singleton.mp hc⟩
      · exact Or.inr ⟨.barrier, List.mem_singleton.mp hc⟩
    · exact Or.inr ⟨.terminal, List.mem_singleton.mp hc⟩

/-- The set-up creates the fixed tasks and no others. -/
theorem commands_setUp (g : LogicalGraph) (lm : LocalityManager) (draws : TaskId → WorkerId) :
    ∀ c ∈ (Plan.setUp g lm draws : Plan n).commands, ∃ kind l place, c = commandAt kind l place := by
  refine Plan.setUp_induction g lm draws
    (P := fun p : Plan n => ∀ c ∈ p.commands, ∃ kind l place, c = commandAt kind l place)
    (List.forall_mem_nil _) ?_ (fun p e hp => hp) ?_
  · intro p x hp c hc
    rcases commands_createPhysicalTasks p x.2 x.1.kind c hc with hc | ⟨place, hc⟩
    · exact hp c hc
    · exact ⟨_, _, place, hc⟩
  · intro p x hp
    obtain ⟨⟨kind, name, successors⟩, l⟩ := x
    cases kind <;> exact hp

theorem throughout_start (hC : ∀ kind l place, C (commandAt kind l place))
    (hL : ∀ l, L (Local.create ((g.kindOf l).getD .gather))) (draws : TaskId → WorkerId) :
    Throughout O C L R (State.start g (Plan.setUp g lm draws) : State n) := by
  refine ⟨nofun, nofun, nofun, hL, fun c hc => ?_⟩
  obtain ⟨kind, l, place, rfl⟩ := commands_setUp g lm draws c hc
  exact hC kind l place

end Throughout

end M3bp.Engine
