import M3bp.ExecutionEras

/-!
What an execution does to a processor: each of its steps is a step of the processor's view,
with the event that it logs, or it leaves the view as it is.
-/
namespace M3bp.Execution

open Engine SchedulerCalls Transition
open Lifecycle (View stageEvent thrownEvent)
open WorkerThread (Answer)

variable {n : ℕ} {O E : Type}

/-- The entries that belong to the logical task `l`. -/
def ofTask {α : Type} (l : ℕ) (xs : List (ℕ × α)) : List α :=
  xs.filterMap fun x => if x.1 = l then some x.2 else none

section OfTask

variable {α : Type} {l l' : ℕ} {a : α} {xs ys : List (ℕ × α)}

@[simp] theorem ofTask_nil : ofTask l ([] : List (ℕ × α)) = [] := rfl

@[simp] theorem ofTask_append : ofTask l (xs ++ ys) = ofTask l xs ++ ofTask l ys :=
  List.filterMap_append

@[simp] theorem ofTask_cons_self : ofTask l ((l, a) :: xs) = a :: ofTask l xs := by
  simp [ofTask]

theorem ofTask_cons_of_ne (h : l' ≠ l) : ofTask l ((l', a) :: xs) = ofTask l xs := by
  simp [ofTask, h]

@[simp] theorem ofTask_map_self (as : List α) : ofTask l (as.map (l, ·)) = as := by
  induction as with
  | nil => rfl
  | cons a as ih => rw [List.map_cons, ofTask_cons_self, ih]

theorem ofTask_map_of_ne (h : l' ≠ l) (as : List α) : ofTask l (as.map (l', ·)) = [] := by
  induction as with
  | nil => rfl
  | cons a as ih => rw [List.map_cons, ofTask_cons_of_ne h, ih]

theorem mem_ofTask : a ∈ ofTask l xs ↔ (l, a) ∈ xs := by
  simp [ofTask]

end OfTask

def State.logOf (s : State n O E) (l : ℕ) : List (Lifecycle.Event n E) := ofTask l s.log

/-- The processor `l` in an execution. -/
def State.view (s : State n O E) (l : ℕ) : View n where
  flags := s.engine.flags l
  work w := ofTask l (stagesOf (s.engine.workers w).program)
  isOut w := isOut (s.phase w)
  sweeping w := decide (s.finalizing w = some l)
  executing := decide (s.globalFinalizing = some l)
  isOver := s.threads.executor ≠ .joining
  entryTaken := .taken (s.engine.ids l).entry ∈ s.engine.system.log
  barrierTaken := .taken (s.engine.ids l).barrier ∈ s.engine.system.log
  terminalTaken := .taken (s.engine.ids l).terminal ∈ s.engine.system.log

section Views

variable {g : LogicalGraph} {lm : LocalityManager} {observers : List O} {s s' : State n O E}
  {w : Fin n} {a : Answer E TaskId} {l l' : ℕ} {t : TaskId} {c : Command} {op : Op}
  {rest : List Op} {e : Effect}

/-- Nothing of the processor has changed. -/
def Unseen (l : ℕ) (s s' : State n O E) : Prop := s'.view l = s.view l ∧ s'.logOf l = s.logOf l

/-- The processor has changed, and the log says so. -/
def Seen (l : ℕ) (s s' : State n O E) : Prop :=
  ∃ ev, View.Step (s.view l) ev (s'.view l) ∧ s'.logOf l = ev.toList ++ s.logOf l

theorem view_advance (s : State n O E) (g : LogicalGraph) (w : Fin n) (a : Answer E TaskId) (l : ℕ) :
    (s.advance g w a).view l = { s.view l with
      isOut := Function.update (s.view l).isOut w (isOut ((s.advance g w a).phase w)) } := by
  refine View.ext rfl rfl ?_ rfl rfl rfl rfl rfl rfl
  funext w'
  by_cases hw : w' = w
  · subst hw
    simp [State.view]
  · simp [State.view, hw, phase_advance_of_ne s g hw a]

theorem view_advance_same (h : isOut ((s.advance g w a).phase w) = isOut (s.phase w)) :
    (s.advance g w a).view l = s.view l := by
  rw [view_advance, h]
  refine View.ext rfl rfl ?_ rfl rfl rfl rfl rfl rfl
  exact Function.update_eq_self w (s.view l).isOut

theorem unseen_advance (h : isOut ((s.advance g w a).phase w) = isOut (s.phase w)) :
    Unseen l s (s.advance g w a) := ⟨view_advance_same h, rfl⟩

theorem view_advance_leave (h : isOut ((s.advance g w a).phase w) = true) :
    (s.advance g w a).view l = (s.view l).leave w := by
  rw [view_advance, h]
  rfl

/-- A worker without an operation has nothing before it. -/
theorem work_of_idle (h : Engine.Inv g lm s.engine) (hidle : (s.engine.workers w).activity = .idle) :
    (s.view l).work w = [] := by
  simp [State.view, (h.idle w (Or.inl hidle)).1]

theorem follow_view (h : Coupled g lm observers s) (hinv : Engine.Inv g lm s.engine)
    (hphase : IsBetween (s.phase w)) :
    Unseen l s (s.advance g w a) ∨ Seen l s (s.advance g w a) := by
  cases hout : isOut (s.phase w) with
  | true =>
    refine Or.inl (unseen_advance ?_)
    rw [hout, phase_advance_self]
    exact isOut_advance hout
  | false =>
    obtain ⟨hidle, hnext⟩ := follow_idle g a hphase hout
    rcases hnext with hnext | hnext
    · refine Or.inr ⟨none, ?_, rfl⟩
      rw [view_advance_leave hnext]
      exact .withdraw (work_of_idle hinv ((expects_of_idle hidle).mp (h.workers w))) hout
    · refine Or.inl ⟨view_advance_same ?_, rfl⟩
      rw [hout]
      cases hphase' : (s.advance g w a).phase w <;> rw [hphase'] at hnext <;> first
        | rfl
        | exact hnext.elim

/-! Which tasks have been taken. -/

section Taken

variable {sys : System (Option (Fin n))} {next : Call} {events : List SchedulerCalls.Event}
  {draw : WorkerId} {u x : TaskId}

theorem taken_decrement (hevents : ∀ u, .taken u ∉ events) :
    .taken u ∈ (sys.decrement lm draw (some w) x next events).log ↔ .taken u ∈ sys.log := by
  unfold System.decrement
  split
  · exact Iff.rfl
  · simp [hevents u]

theorem taken_perform (hperformed : Performed lm sys w e.action) :
    .taken u ∈ (e.action.perform sys w).log ↔ .taken u ∈ sys.log := by
  rw [hperformed.log, List.mem_append]
  exact or_iff_right (notMem_events (by simp) (by simp) (by simp))

theorem taken_complete :
    .taken u ∈ (sys.beginCompletion (some w) t).log ↔ .taken u ∈ sys.log := by
  unfold System.beginCompletion
  split
  · exact Iff.rfl
  · simp

end Taken

/-- A step of the engine that the processor does not see. -/
theorem view_engine {engine : Engine.State n} (hflags : engine.flags l = s.engine.flags l)
    (hwork : ∀ w, ofTask l (stagesOf (engine.workers w).program) =
      ofTask l (stagesOf (s.engine.workers w).program))
    (hids : engine.ids = s.engine.ids)
    (htaken : ∀ u, .taken u ∈ engine.system.log ↔ .taken u ∈ s.engine.system.log) :
    (s.withEngine engine).view l = s.view l := by
  refine View.ext hflags (funext hwork) rfl rfl rfl rfl ?_ ?_ ?_ <;>
  · simp only [State.view, State.withEngine, hids]
    exact propext (htaken _)

/-! An operation of a task. -/

/-- An operation that stays in its stage shows nothing. -/
theorem events_of_quiet (heffect : Performs g s.engine w op e) (hquiet : e.Quiet s.engine op) :
    (eventsOf w op e : List (ℕ × Lifecycle.Event n E)) = [] := by
  have hstages := hquiet.stages
  cases heffect with
  | step op choice hoption =>
    cases op with
    | call l callback inputs => simp [effect, Op.stages] at hstages
    | inCallback l callback => simp [effect, Op.stages] at hstages
    | _ => rfl
  | flush l callback port recordCount o hport hbuffer => simp [eventsOf]
  | _ => rfl

/-- The event of an operation that goes on to another stage. -/
theorem events_of_turns {st : Stage} {more : List Stage} (heffect : Performs g s.engine w op e)
    (hturns : Turns s.engine w op rest e l st more) :
    (eventsOf w op e : List (ℕ × Lifecycle.Event n E)) = (stageEvent w st).toList.map (l, ·) := by
  obtain ⟨hstages, hnext, hturn, -⟩ := hturns
  cases heffect with
  | step op choice hoption =>
    cases op with
    | prepare t c =>
      have hst : ∃ callback, st = .deciding callback := by
        cases c <;> simp [Op.stages, Command.course] at hstages
        all_goals exact ⟨_, hstages.2.symm⟩
      obtain ⟨callback, rfl⟩ := hst
      rfl
    | call l' callback inputs | inCallback l' callback =>
      simp only [Op.stages, List.cons.injEq, Prod.mk.injEq, and_true] at hstages
      obtain ⟨rfl, rfl⟩ := hstages
      rfl
    | globalInitialize l' | globalFinalize l' | threadLocalInitialize l' | threadLocalFinalize l'
    | markGlobalInitialized l' | markThreadLocalInitialized l' =>
      simp only [Op.stages, List.cons.injEq, Prod.mk.injEq, and_true] at hstages
      obtain ⟨rfl, rfl⟩ := hstages
      rfl
    | _ => simp [Op.stages] at hstages
  | allocate l' callback size | setTaskCount l' count hinput =>
    simp only [Op.stages, List.cons.injEq, Prod.mk.injEq, and_true] at hstages
    obtain ⟨rfl, rfl⟩ := hstages
    generalize ((s.engine.apply w rest _).flags _) = f' at hturn
    cases hturn
    simp [Op.stages] at hnext
  | flush l' callback port recordCount o hport hbuffer =>
    simp only [Op.stages, List.cons.injEq, Prod.mk.injEq, and_true] at hstages
    obtain ⟨rfl, rfl⟩ := hstages
    generalize ((s.engine.apply w rest _).flags _) = f' at hturn
    cases hturn
    simp [Op.stages] at hnext

/-- An operation of a task, while its thread is in the task loop. -/
theorem apply_view (hinv : Engine.Inv g lm s.engine)
    (hrunning : (s.engine.workers w).activity = .running t)
    (hcall : s.engine.system.calls (some w) = .idle)
    (hprogram : (s.engine.workers w).program = op :: rest)
    (heffect : Performs g s.engine w op e) (hloop : isOut (s.phase w) = false) :
    let s' := (s.withEngine (s.engine.apply w rest e)).record (eventsOf w op e)
    Unseen l s s' ∨ Seen l s s' := by
  have hperformed := performed hinv.run hcall (hinv.action_valid hrunning hprogram heffect)
  have htaken : ∀ u, .taken u ∈ (s.engine.apply w rest e).system.log ↔
      .taken u ∈ s.engine.system.log := fun u => taken_perform hperformed
  have hothers : ∀ w', w' ≠ w → ofTask l (stagesOf ((s.engine.apply w rest e).workers w').program) =
      ofTask l (stagesOf (s.engine.workers w').program) := by
    intro w' hw
    rw [apply_program_of_ne _ hw]
  intro s'
  rcases heffect.turn rest with hquiet | ⟨l', st, more, hturns⟩
  · refine Or.inl ⟨view_engine (flags_apply_quiet rest hquiet l) (fun w' => ?_) rfl htaken, ?_⟩
    · by_cases hw : w' = w
      · subst hw
        rw [apply_program_self, hprogram, stagesOf_append, hquiet.stages, stagesOf_cons]
      · exact hothers w' hw
    · show ofTask l (eventsOf w op e ++ s.log) = _
      rw [events_of_quiet heffect hquiet]
      rfl
  · have hlog : s'.logOf l = ofTask l ((stageEvent w st).toList.map (l', ·)) ++ s.logOf l := by
      show ofTask l (eventsOf w op e ++ s.log) = _
      rw [ofTask_append, events_of_turns heffect hturns]
      rfl
    by_cases hl : l' = l
    · subst hl
      refine Or.inr ⟨stageEvent w st, ?_, by rw [hlog, ofTask_map_self]⟩
      have hwork : (s.view l').work w = st :: ofTask l' (stagesOf rest) := by
        simp only [State.view, hprogram, stagesOf_cons, hturns.stages, List.singleton_append,
          ofTask_cons_self]
      have hview : s'.view l' = (s.view l').goOn w ((s.engine.apply w rest e).flags l')
          (more ++ ofTask l' (stagesOf rest)) := by
        refine View.ext rfl (funext fun w' => ?_) rfl rfl rfl rfl (propext (htaken _))
          (propext (htaken _)) (propext (htaken _))
        by_cases hw : w' = w
        · subst hw
          rw [View.goOn_work_self]
          show ofTask l' (stagesOf ((s.engine.apply w' rest e).workers w').program) = _
          rw [apply_program_self, stagesOf_append, hturns.next, ofTask_append, ofTask_map_self]
        · rw [View.goOn_work_of_ne _ hw]
          exact hothers w' hw
      rw [hview]
      exact .turn hwork hloop hturns.turn
    · refine Or.inl ⟨view_engine (hturns.others l (Ne.symm hl)) (fun w' => ?_) rfl htaken, ?_⟩
      · by_cases hw : w' = w
        · subst hw
          rw [apply_program_self, hprogram, stagesOf_append, hturns.next, stagesOf_cons,
            hturns.stages, ofTask_append, ofTask_map_of_ne hl, List.singleton_append,
            ofTask_cons_of_ne hl, List.nil_append]
        · exact hothers w' hw
      · rw [hlog, ofTask_map_of_ne hl]
        rfl

theorem Unseen.trans (h : Unseen l s s') {s'' : State n O E}
    (h' : Unseen l s' s'' ∨ Seen l s' s'') : Unseen l s s'' ∨ Seen l s s'' := by
  obtain ⟨hview, hlog⟩ := h
  rcases h' with ⟨hview', hlog'⟩ | ⟨ev, hstep, hlog'⟩
  · exact Or.inl ⟨hview'.trans hview, hlog'.trans hlog⟩
  · refine Or.inr ⟨ev, hview ▸ hstep, ?_⟩
    rw [hlog', hlog]

/-- A worker takes a task of the processor or of another one. -/
theorem take_view (hinv : Engine.Inv g lm s.engine) {kind : TaskKind}
    (hkind : g.kindOf l = some kind) (hprocess : kind.isIntermediate = false)
    (hidle : (s.engine.workers w).activity = .idle) (hloop : isOut (s.phase w) = false)
    {q : QueueRef} {scheduler : Scheduler}
    (hpop : Scheduler.Pops lm w s.engine.system.scheduler q t scheduler) :
    Unseen l s (s.withEngine (s.engine.take w t scheduler)) ∨
      Seen l s (s.withEngine (s.engine.take w t scheduler)) := by
  obtain ⟨tasks, hperm, -⟩ := hpop.perm
  obtain ⟨hpushed, huntaken⟩ := (run_inv hinv.run).data.queued q t
    (hperm.mem_iff.mpr List.mem_cons_self)
  have hlt := hinv.lt_of_pushed hpushed
  obtain ⟨c, hc⟩ : ∃ c, s.engine.commands[t]? = some c := ⟨_, List.getElem?_eq_getElem hlt⟩
  have htaken : ∀ u, .taken u ∈ (s.engine.take w t scheduler).system.log ↔
      u = t ∨ .taken u ∈ s.engine.system.log := fun u => by
    simp [Engine.State.take, System.take]
  have hself : stagesOf ((s.engine.take w t scheduler).workers w).program =
      c.course.map (c.owner, ·) := by
    simp [Engine.State.take, hc, Op.stages]
  have hothers : ∀ w', w' ≠ w → (s.engine.take w t scheduler).workers w' = s.engine.workers w' :=
    fun w' hw => Function.update_of_ne hw ..
  have hfixed : ∀ place, t = (s.engine.ids l).get place → c = commandAt kind l place := by
    intro place ht
    have hcommand := (hinv.static.laid l kind hkind).command place
    rw [← ht, hc] at hcommand
    exact Option.some.inj hcommand
  by_cases hl : c.owner = l
  · subst hl
    refine Or.inr ⟨none, ?_, rfl⟩
    have hview : (s.withEngine (s.engine.take w t scheduler)).view c.owner =
        (s.view c.owner).pick w c
          (.taken (s.engine.ids c.owner).entry ∈ (s.engine.take w t scheduler).system.log)
          (.taken (s.engine.ids c.owner).barrier ∈ (s.engine.take w t scheduler).system.log)
          (.taken (s.engine.ids c.owner).terminal ∈ (s.engine.take w t scheduler).system.log) := by
      refine View.ext rfl (funext fun w' => ?_) rfl rfl rfl rfl rfl rfl rfl
      by_cases hw : w' = w
      · subst hw
        rw [View.pick_work_self]
        show ofTask c.owner (stagesOf ((s.engine.take w' t scheduler).workers w').program) = _
        rw [hself, ofTask_map_self]
      · rw [View.pick_work_of_ne _ hw]
        show ofTask c.owner (stagesOf ((s.engine.take w t scheduler).workers w').program) = _
        rw [hothers w' hw]
        rfl
    rw [hview]
    refine .pick (work_of_idle hinv hidle) hloop (fun h => (htaken _).mpr (Or.inr h)) (fun h => ?_)
      (fun hcalls h => ?_) (fun h => (htaken _).mpr (Or.inr h)) (fun h => (htaken _).mpr (Or.inr h))
      fun h => ?_
    · rcases (htaken _).mp h with ht | hold
      · right
        have hcommand := hfixed .entry ht.symm
        rw [hcommand]
        cases kind <;> first
          | rfl
          | cases hprocess
      · exact Or.inl hold
    · rw [entry_of_calls hinv hc hcalls] at huntaken
      exact huntaken h
    · rcases (htaken _).mp h with ht | hold
      · right
        have hcommand := hfixed .terminal ht.symm
        rw [hcommand]
        cases kind <;> first
          | rfl
          | cases hprocess
      · exact Or.inl hold
  · have hne : ∀ place, t ≠ (s.engine.ids l).get place := by
      intro place ht
      refine hl ?_
      rw [hfixed place ht, owner_commandAt]
    have hsame : ∀ place, (.taken ((s.engine.ids l).get place) ∈
        (s.engine.take w t scheduler).system.log) =
          (.taken ((s.engine.ids l).get place) ∈ s.engine.system.log) := fun place =>
      propext ((htaken _).trans (or_iff_right (Ne.symm (hne place))))
    refine Or.inl ⟨View.ext rfl (funext fun w' => ?_) rfl rfl rfl rfl (hsame .entry)
      (hsame .barrier) (hsame .terminal), rfl⟩
    by_cases hw : w' = w
    · subst hw
      rw [work_of_idle hinv hidle]
      show ofTask l (stagesOf ((s.engine.take w' t scheduler).workers w').program) = _
      rw [hself, ofTask_map_of_ne hl]
    · show ofTask l (stagesOf ((s.engine.take w t scheduler).workers w').program) = _
      rw [hothers w' hw]
      rfl

/-- What is before a worker whose next operation throws. -/
theorem stages_of_throwing (hinv : Engine.Inv g lm s.engine) (hcourse : Programs OnCourse s.engine)
    (hrunning : (s.engine.workers w).activity = .running t)
    (hprogram : (s.engine.workers w).program = op :: rest) (hop : MayThrow op) :
    stagesOf (op :: rest) = [] ∨
      ∃ l st stages, stagesOf (op :: rest) = ((st :: stages).map (l, ·)) ∧
        (∃ callback, st = .deciding callback ∨ st = .inside callback) ∧
        ∀ eptr : E, thrownOf w eptr op = (thrownEvent w eptr st).toList.map (l, ·) := by
  have hmem := mem_program hprogram
  obtain ⟨c, hc, hfits⟩ := hinv.running_fits hrunning hmem
  obtain ⟨stages, hstages, hprog⟩ := hcourse w t c hrunning hc
  rw [hprogram] at hprog
  have hnone : c.course = [] → stagesOf (op :: rest) = [] := fun hempty => by
    rw [hprog, hstages.eq_nil hempty]
    rfl
  cases op with
  | prepare t' c' =>
    obtain ⟨-, rfl⟩ := hfits
    cases stages with
    | nil => exact Or.inl hprog
    | cons st stages =>
      refine Or.inr ⟨c'.owner, st, stages, hprog, ?_⟩
      have hst : ∃ callback, st = .deciding callback := by
        rcases Lifecycle.head?_course c' with hempty | ⟨callback, hfirst, -⟩
        · cases hstages.eq_nil (List.head?_eq_none_iff.mp hempty)
        · rw [stagesOf_cons, Op.stages] at hprog
          cases hcourse' : c'.course with
          | nil =>
            rw [hcourse'] at hfirst
            cases hfirst
          | cons first more =>
            rw [hcourse'] at hprog hfirst
            cases hfirst
            simp only [List.map_cons, List.cons_append, List.cons.injEq, Prod.mk.injEq] at hprog
            exact ⟨callback, hprog.1.2.symm⟩
      obtain ⟨callback, rfl⟩ := hst
      exact ⟨⟨callback, Or.inl rfl⟩, fun _ => rfl⟩
  | inCallback l callback =>
    have howner : c.owner = l := hfits
    cases stages with
    | nil => simp [Op.stages] at hprog
    | cons st stages =>
      rw [stagesOf_cons, Op.stages, List.singleton_append, List.map_cons, List.cons.injEq,
        Prod.mk.injEq] at hprog
      obtain ⟨⟨-, rfl⟩, hrest⟩ := hprog
      refine Or.inr ⟨l, .inside callback, stages, ?_, ⟨callback, Or.inr rfl⟩, fun _ => rfl⟩
      rw [stagesOf_cons, hrest, howner]
      rfl
  | partitionFragment l o | runGather l inputs =>
    have hcommand := hfits
    exact Or.inl (hnone (by rw [hcommand]; rfl))
  | sortRecords l p | sortValues l p =>
    obtain ⟨_, hcommand⟩ := hfits
    exact Or.inl (hnone (by rw [hcommand]; rfl))
  | _ => exact hop.elim

/-- An exception takes a worker out of its task loop. -/
theorem throws_view (hinv : Engine.Inv g lm s.engine) (hcourse : Programs OnCourse s.engine)
    (hrunning : (s.engine.workers w).activity = .running t)
    (hprogram : (s.engine.workers w).program = op :: rest) (hop : MayThrow op)
    (hloop : isOut (s.phase w) = false) {eptr : E}
    (hout : isOut ((s.advance g w a).phase w) = true) :
    Seen l s ((s.advance g w a).record (thrownOf w eptr op)) := by
  have hlog : ∀ {st : Stage} {l' : ℕ}, thrownOf w eptr op = (thrownEvent w eptr st).toList.map (l', ·) →
      ((s.advance g w a).record (thrownOf w eptr op)).logOf l =
        ofTask l ((thrownEvent w eptr st).toList.map (l', ·)) ++ s.logOf l := by
    intro st l' hevents
    show ofTask l (thrownOf w eptr op ++ s.log) = _
    rw [ofTask_append, hevents]
    rfl
  have hquiet : stagesOf (op :: rest) = [] → (thrownOf w eptr op : List (ℕ × Lifecycle.Event n E)) = [] := by
    intro hstages
    cases op with
    | inCallback l callback => simp [Op.stages] at hstages
    | _ => rfl
  have hview : ((s.advance g w a).record (thrownOf w eptr op)).view l = (s.view l).leave w :=
    view_advance_leave hout
  have hwork : (s.view l).work w = ofTask l (stagesOf (op :: rest)) := by
    simp only [State.view, hprogram]
  rcases stages_of_throwing (E := E) hinv hcourse hrunning hprogram hop with hstages |
      ⟨l', st, stages, hstages, hst, hevents⟩
  · refine ⟨none, ?_, ?_⟩
    · rw [hview]
      refine .withdraw ?_ hloop
      rw [hwork, hstages]
      rfl
    · show ofTask l (thrownOf w eptr op ++ s.log) = _
      rw [hquiet hstages]
      rfl
  · by_cases hl : l' = l
    · subst hl
      refine ⟨thrownEvent w eptr st, ?_, by rw [hlog (hevents eptr), ofTask_map_self]⟩
      rw [hview]
      have hhead : (s.view l').work w = st :: stages := by
        rw [hwork, hstages, ofTask_map_self]
      exact .throws eptr hhead hloop hst
    · refine ⟨none, ?_, ?_⟩
      · rw [hview]
        refine .withdraw ?_ hloop
        rw [hwork, hstages, ofTask_map_of_ne hl]
      · rw [hlog (hevents eptr), ofTask_map_of_ne hl]
        rfl

/-! The sweeps. -/

theorem flags_setLocal_of_ne (s : Engine.State n) {l l' : ℕ} (hl : l ≠ l') (x : Local) :
    (s.setLocal l' x).flags l = s.flags l := by
  simp [Engine.State.flags, Engine.State.setLocal, hl]

theorem beginSweep_view (hphase : Cancels l' (s.phase w)) (hin : s.finalizing w = none)
    (hflag : (s.engine.locals l').threadLocalInitialized w = true) :
    Unseen l s (s.beginSweep w l') ∨ Seen l s (s.beginSweep w l') := by
  by_cases hl : l = l'
  · subst hl
    refine Or.inr ⟨some ⟨some w, .threadLocalFinalize, true, .entered⟩, ?_, ?_⟩
    · have hview : (s.beginSweep w l).view l = (s.view l).sweep w := by
        refine View.ext ?_ rfl rfl (funext fun w' => ?_) rfl rfl rfl rfl rfl
        · have hflags := setLocal_flags s.engine l w false
          rw [show ((s.view l).sweep w).flags = (s.engine.flags l).setLocal w false from rfl, hflags]
          simp [State.view, State.beginSweep, Engine.State.flags, Engine.State.setLocal]
        · by_cases hw : w' = w
          · subst hw
            simp [State.view, State.beginSweep]
          · simp [State.view, State.beginSweep, View.sweep, hw]
      rw [hview]
      exact .sweep (isOut_of_cancels hphase) hflag
    · simp [State.logOf, State.beginSweep]
  · refine Or.inl ⟨View.ext (flags_setLocal_of_ne s.engine hl _) rfl rfl (funext fun w' => ?_) rfl rfl
      rfl rfl rfl, ofTask_cons_of_ne (Ne.symm hl)⟩
    by_cases hw : w' = w
    · subst hw
      simp [State.view, State.beginSweep, hin, Ne.symm hl]
    · simp [State.view, State.beginSweep, hw]

theorem endSweep_view {thrown : Option E} (hin : s.finalizing w = some l') :
    Unseen l s (s.endSweep w l' thrown) ∨ Seen l s (s.endSweep w l' thrown) := by
  by_cases hl : l = l'
  · subst hl
    refine Or.inr ⟨some ⟨some w, .threadLocalFinalize, true, .left thrown⟩, ?_, ?_⟩
    · have hview : (s.endSweep w l thrown).view l = (s.view l).swept w := by
        refine View.ext rfl rfl rfl (funext fun w' => ?_) rfl rfl rfl rfl rfl
        by_cases hw : w' = w
        · subst hw
          simp [State.view, State.endSweep]
        · simp [State.view, State.endSweep, View.swept, hw]
      rw [hview]
      exact .swept thrown (by simp [State.view, hin])
    · simp [State.logOf, State.endSweep]
  · refine Or.inl ⟨View.ext rfl rfl rfl (funext fun w' => ?_) rfl rfl rfl rfl rfl,
      ofTask_cons_of_ne (Ne.symm hl)⟩
    by_cases hw : w' = w
    · subst hw
      simp [State.view, State.endSweep, hin, Ne.symm hl]
    · simp [State.view, State.endSweep, hw]

theorem beginCancel_view {todo : List ℕ} (hphase : s.threads.executor = .cancelling (l' :: todo))
    (hin : s.globalFinalizing = none) (hflag : (s.engine.locals l').globalInitialized = true) :
    Unseen l s (s.beginCancel l') ∨ Seen l s (s.beginCancel l') := by
  by_cases hl : l = l'
  · subst hl
    refine Or.inr ⟨some ⟨none, .globalFinalize, true, .entered⟩, ?_, ?_⟩
    · have hview : (s.beginCancel l).view l = (s.view l).finalize := by
        refine View.ext ?_ rfl rfl rfl ?_ rfl rfl rfl rfl
        · simp [State.view, State.beginCancel, View.finalize, Engine.State.flags,
            Engine.State.setLocal]
        · simp [State.view, State.beginCancel, View.finalize]
      rw [hview]
      exact .finalize (by simp [State.view, hphase]) hflag
    · simp [State.logOf, State.beginCancel]
  · refine Or.inl ⟨View.ext (flags_setLocal_of_ne s.engine hl _) rfl rfl rfl ?_ rfl rfl rfl rfl,
      ofTask_cons_of_ne (Ne.symm hl)⟩
    simp [State.view, State.beginCancel, hin, Ne.symm hl]

theorem view_execute (thrown : Option E) :
    (s.execute g thrown).view l =
      { s.view l with isOver := (s.execute g thrown).threads.executor ≠ .joining } := by
  refine View.ext rfl rfl (funext fun w => ?_) rfl rfl rfl rfl rfl rfl
  exact congrArg isOut (phase_execute s g thrown w)

/-- The executor does not go back to its workers. -/
theorem executor_ne_joining (h : s.threads.executor ≠ .joining) (thrown : Option E) :
    (s.execute g thrown).threads.executor ≠ .joining := by
  simp only [State.execute, WorkerThread.State.execute]
  split
  · next hjoining => exact absurd hjoining h
  · simp
  · split <;> simp
  · simp
  · next hfinished => simp [hfinished]

theorem execute_view (g : LogicalGraph) (thrown : Option E) : Seen l s (s.execute g thrown) := by
  refine ⟨none, ?_, rfl⟩
  rw [view_execute]
  exact .finish fun h => executor_ne_joining h thrown

theorem endCancel_view {thrown : Option E} (hin : s.globalFinalizing = some l') :
    Unseen l s (s.endCancel l' thrown) ∨ Seen l s (s.endCancel l' thrown) := by
  have hengine : ((s.endCancel l' thrown).engine.flags l = s.engine.flags l) ∧
      (s.endCancel l' thrown).engine.workers = s.engine.workers ∧
      (s.endCancel l' thrown).engine.ids = s.engine.ids ∧
      (s.endCancel l' thrown).engine.system = s.engine.system := by
    cases thrown with
    | some eptr => exact ⟨rfl, rfl, rfl, rfl⟩
    | none =>
      refine ⟨?_, rfl, rfl, rfl⟩
      by_cases hl : l = l'
      · subst hl
        simp [State.endCancel, Engine.State.flags, Engine.State.setLocal]
      · exact flags_setLocal_of_ne s.engine hl _
  obtain ⟨hflags, hworkers, hids, hsystem⟩ := hengine
  by_cases hl : l = l'
  · subst hl
    refine Or.inr ⟨some ⟨none, .globalFinalize, true, .left thrown⟩, ?_, ?_⟩
    · have hview : (s.endCancel l thrown).view l = (s.view l).finalized := by
        refine View.ext hflags ?_ rfl rfl ?_ rfl ?_ ?_ ?_
        · simp only [State.view, hworkers, View.finalized]
        · simp [State.view, State.endCancel, View.finalized]
        · simp only [State.view, hids, hsystem, View.finalized]
        · simp only [State.view, hids, hsystem, View.finalized]
        · simp only [State.view, hids, hsystem, View.finalized]
      rw [hview]
      exact .finalized thrown (by simp [State.view, hin])
    · simp [State.logOf, State.endCancel]
  · refine Or.inl ⟨View.ext hflags ?_ rfl rfl ?_ rfl ?_ ?_ ?_, ofTask_cons_of_ne (Ne.symm hl)⟩
    · simp only [State.view, hworkers]
    · simp [State.view, State.endCancel, hin, Ne.symm hl]
    · simp only [State.view, hids, hsystem]
    · simp only [State.view, hids, hsystem]
    · simp only [State.view, hids, hsystem]

/-- Each step of an execution is one of the processor's view, or the processor does not see
it. -/
theorem step_view (hwaits : Waits g) (h : Coupled g lm observers s) {kind : TaskKind}
    (hkind : g.kindOf l = some kind) (hprocess : kind.isIntermediate = false)
    (hstep : Step g lm s s') : Unseen l s s' ∨ Seen l s s' := by
  have hinv := cancel_invariant hwaits h.engine
  have hcourse := cancel_onCourse hwaits h.engine
  cases hstep with
  | follow hphase _ => exact follow_view h hinv hphase
  | @takeNothing w hphase hover =>
    refine Or.inl (unseen_advance ?_)
    rw [phase_of_taking hphase, hphase]
    rfl
  | @take w q t scheduler hphase hpop =>
    have hself := h.workers w
    rw [hphase] at hself
    have hsame : isOut ((s.advance g w (answer none (some t))).phase w) = isOut (s.phase w) := by
      rw [phase_of_taking hphase, hphase]
      rfl
    refine (unseen_advance hsame).trans ?_
    refine take_view (s := s.advance g w (answer none (some t))) hinv hkind hprocess hself ?_ hpop
    rw [hsame, hphase]
    rfl
  | @prepare w t op rest e hphase hprogram heffect =>
    have hself := h.workers w
    rw [hphase] at hself
    obtain ⟨hrunning, hcall, c, hprepare⟩ := hself
    have hsame : isOut ((s.advance g w (answer none none)).phase w) = isOut (s.phase w) := by
      rw [phase_of_preparing hphase, hphase]
      rfl
    have hnone : (eventsOf w op e : List (ℕ × Lifecycle.Event n E)) = [] := by
      rw [hprogram, List.cons.injEq] at hprepare
      rw [hprepare.1]
      rfl
    refine (unseen_advance hsame).trans ?_
    have happly := apply_view (s := s.advance g w (answer none none)) (l := l) hinv hrunning hcall
      hprogram heffect (by rw [hsame, hphase]; rfl)
    rw [hnone] at happly
    exact happly
  | @perform w t op rest e hphase hcall hprogram heffect =>
    have hself := h.workers w
    rw [hphase] at hself
    exact apply_view hinv hself hcall hprogram heffect (by rw [hphase]; rfl)
  | @throws w t op rest eptr hphase hcall hprogram hop =>
    have hself := h.workers w
    have hrunning : (s.engine.workers w).activity = .running t := by
      rcases hphase with hphase | hphase
      · rw [hphase] at hself
        exact hself.1
      · rw [hphase] at hself
        exact hself
    refine Or.inr (throws_view hinv hcourse hrunning hprogram hop ?_ ?_)
    · rcases hphase with hphase | hphase <;> rw [hphase] <;> rfl
    · rw [phase_of_throwing hphase eptr]
      rfl
  | @complete w t hphase hcall hprogram =>
    have hsame : isOut ((s.advance g w (answer none none)).phase w) = isOut (s.phase w) := by
      rw [phase_of_running hphase, hphase]
      rfl
    refine (unseen_advance hsame).trans
      (Or.inl ⟨view_engine (s := s.advance g w (answer none none)) rfl (fun w' => ?_) rfl
        fun u => taken_complete, rfl⟩)
    show ofTask l (stagesOf ((s.engine.complete w t).workers w').program) =
      ofTask l (stagesOf (s.engine.workers w').program)
    by_cases hw : w' = w
    · subst hw
      simp [Engine.State.complete, Worker.idle, hprogram]
    · simp [Engine.State.complete, hw]
  | commitDecrement hcall =>
    exact Or.inl ⟨view_engine rfl (fun _ => rfl) rfl fun u => taken_decrement (by simp), rfl⟩
  | drain hcall =>
    exact Or.inl ⟨view_engine rfl (fun _ => rfl) rfl fun u => taken_decrement (by simp), rfl⟩
  | @finish w t hphase hcall =>
    have hsame : isOut ((s.advance g w (answer none none)).phase w) = isOut (s.phase w) := by
      rw [phase_of_completing hphase, hphase]
      rfl
    refine (unseen_advance hsame).trans
      (Or.inl ⟨view_engine (s := s.advance g w (answer none none)) rfl (fun w' => ?_) rfl
        fun u => by simp [System.finishCompletion, State.advance], rfl⟩)
    show ofTask l (stagesOf ((s.engine.setActivity w .idle).workers w').program) =
      ofTask l (stagesOf (s.engine.workers w').program)
    by_cases hw : w' = w
    · subst hw
      simp [Engine.State.setActivity]
    · simp [Engine.State.setActivity, hw]
  | @skipSweep w l' hphase hin hflag =>
    refine Or.inl (unseen_advance ?_)
    have hout := isOut_of_cancels hphase
    rw [hout, phase_advance_self]
    exact isOut_advance hout
  | beginSweep hphase hin hflag => exact beginSweep_view hphase hin hflag
  | @endSweep w l' thrown hin =>
    have hout := isOut_of_cancels (h.finalizing w l' hin)
    have hsame : isOut ((s.advance g w (answer thrown none)).phase w) = isOut (s.phase w) := by
      rw [hout, phase_advance_self]
      exact isOut_advance hout
    exact (unseen_advance hsame).trans (endSweep_view hin)
  | join hphase hreturned => exact Or.inr (execute_view g none)
  | notify hphase => exact Or.inr (execute_view g none)
  | conclude hphase => exact Or.inr (execute_view g none)
  | skipCancel hphase hin hflag => exact Or.inr (execute_view g none)
  | beginCancel hphase hin hflag => exact beginCancel_view hphase hin hflag
  | @endCancel l' thrown hin =>
    obtain ⟨todo, hphase⟩ := h.globalFinalizing l' hin
    have hover : s.threads.executor ≠ .joining := by simp [hphase]
    have hsame : (s.execute g thrown).view l = s.view l := by
      rw [view_execute]
      refine View.ext rfl rfl rfl rfl rfl (propext ?_) rfl rfl rfl
      exact iff_of_true (executor_ne_joining hover thrown) hover
    have hunseen : Unseen l s (s.execute g thrown) := ⟨hsame, rfl⟩
    exact hunseen.trans (endCancel_view hin)

end Views

end M3bp.Execution
