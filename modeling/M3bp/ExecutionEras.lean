import M3bp.ExecutionSteps
import M3bp.LifecycleView

/-!
The eras of a processor. Its callbacks are called by tasks that come one after the other, so
at any time all workers are in callbacks of one era, and in the era of the entry or of the
terminal task only one worker is.
-/
namespace M3bp.Execution

open Engine SchedulerCalls Transition
open Lifecycle (Era eraOf)

variable {n : ℕ} {g : LogicalGraph} {lm : LocalityManager} {s : Engine.State n} {w w' : Fin n}
  {l : ℕ} {t : TaskId} {c : Command} {st st' : Stage} {kind : TaskKind}

/-- How far the tasks of a processor have got when callbacks of an era are called. -/
def Holds (s : Engine.State n) (l : ℕ) : Era → Prop
  | .entry => .taken (s.ids l).entry ∈ s.system.log ∧ .completed (s.ids l).entry ∉ s.system.log
  | .work => .completed (s.ids l).entry ∈ s.system.log ∧ .taken (s.ids l).barrier ∉ s.system.log
  | .finalizers => .taken (s.ids l).barrier ∈ s.system.log ∧
      .taken (s.ids l).terminal ∉ s.system.log
  | .terminal => .taken (s.ids l).terminal ∈ s.system.log

/-- The fixed tasks of a processor are taken one after the other. -/
theorem completed_of_fixed_taken (h : Engine.Inv g lm s) (hkind : g.kindOf l = some kind)
    (hprocess : kind.isIntermediate = false) :
    (.taken (s.ids l).barrier ∈ s.system.log → .completed (s.ids l).entry ∈ s.system.log) ∧
      (.taken (s.ids l).terminal ∈ s.system.log → .completed (s.ids l).barrier ∈ s.system.log) := by
  have hinv := run_inv h.run
  have hlaid := h.static.laid l kind hkind
  obtain ⟨hentry, hbarrier⟩ := process_distinct hprocess l
  refine ⟨fun htaken => ?_, fun htaken => ?_⟩
  · exact hinv.predecessor_completed (hinv.log.taken_released _ htaken)
      (hlaid.dependency_barrier hentry)
  · exact hinv.predecessor_completed (hinv.log.taken_released _ htaken)
      (hlaid.dependency_terminal hbarrier)

theorem era_unique (h : Engine.Inv g lm s) (hkind : g.kindOf l = some kind)
    (hprocess : kind.isIntermediate = false) {a b : Era} (ha : Holds s l a) (hb : Holds s l b) :
    a = b := by
  obtain ⟨hentry, hbarrier⟩ := completed_of_fixed_taken h hkind hprocess
  have htaken := (run_inv h.run).log.completed_taken
  have hterminal := fun hterminal => hentry (htaken _ (hbarrier hterminal))
  cases a <;> cases b <;> simp only [Holds] at ha hb <;> first
    | rfl
    | exact absurd hb.1 ha.2
    | exact absurd ha.1 hb.2
    | exact absurd (hentry hb.1) ha.2
    | exact absurd (hentry ha.1) hb.2
    | exact absurd (hterminal hb) ha.2
    | exact absurd (hterminal ha) hb.2
    | exact absurd (htaken _ (hbarrier hb)) ha.2
    | exact absurd (htaken _ (hbarrier ha)) hb.2
    | exact absurd hb ha.2
    | exact absurd ha hb.2

/-- The command of the task that a callback belongs to. -/
theorem command_of_stage (h : Engine.Inv g lm s) (hcourse : Programs OnCourse s)
    (hst : (l, st) ∈ stagesOf (s.workers w).program) :
    ∃ t c, (s.workers w).activity = .running t ∧ s.commands[t]? = some c ∧ c.owner = l ∧
      c.Calls st.callback := by
  obtain ⟨op, hop, -⟩ := List.mem_flatMap.mp hst
  obtain ⟨t, hrunning⟩ := h.running_of_mem hop
  obtain ⟨-, -, -, c, hc, -⟩ := h.running w t hrunning
  exact ⟨t, c, hrunning, hc, (hcourse w t c hrunning hc).calls hst⟩

theorem entry_of_calls (h : Engine.Inv g lm s) (hc : s.commands[t]? = some c)
    (hcalls : c.Calls .globalInitialize) : t = (s.ids c.owner).entry := by
  have hcommand : c = .globalInitialize c.owner := hcalls
  obtain ⟨kind, place, -, hplace, ht⟩ := h.static.fixed hc fun kind => by
    rw [hcommand]
    cases kind <;> rfl
  rw [hcommand] at hplace
  obtain ⟨-, rfl⟩ := place_of_globalInitialize hplace
  exact ht

theorem terminal_of_calls (h : Engine.Inv g lm s) (hc : s.commands[t]? = some c)
    (hcalls : c.Calls .globalFinalize) : t = (s.ids c.owner).terminal := by
  have hcommand : c = .globalFinalize c.owner := hcalls
  obtain ⟨kind, place, -, hplace, ht⟩ := h.static.fixed hc fun kind => by
    rw [hcommand]
    cases kind <;> rfl
  rw [hcommand] at hplace
  obtain ⟨-, rfl⟩ := place_of_globalFinalize hplace
  exact ht

/-- The era of a callback is the one in which the tasks of the processor are. -/
theorem holds_of_stage (hwaits : Waits g) (hrun : CancelRun g lm s)
    (hst : (l, st) ∈ stagesOf (s.workers w).program) : Holds s l (eraOf st.callback) := by
  have h := cancel_invariant hwaits hrun
  obtain ⟨t, c, hrunning, hc, rfl, hcalls⟩ := command_of_stage h (cancel_onCourse hwaits hrun) hst
  obtain ⟨htaken, hlive, -⟩ := h.running w t hrunning
  have hreleased := (run_inv h.run).log.taken_released
  cases hcallback : st.callback with
  | globalInitialize =>
    rw [hcallback] at hcalls
    rw [entry_of_calls h hc hcalls] at htaken hlive
    exact ⟨htaken, hlive⟩
  | globalFinalize =>
    rw [hcallback] at hcalls
    rw [terminal_of_calls h hc hcalls] at htaken
    exact htaken
  | threadLocalInitialize | run =>
    rw [hcallback] at hcalls
    obtain ⟨-, hafter, hbefore⟩ := h.process_of_isRun hc hcalls
    refine ⟨completed_of_taken hwaits hrun hc hafter htaken, fun hbarrier => ?_⟩
    exact h.unreleased_before hrunning hc hbefore (hreleased _ hbarrier)
  | threadLocalFinalize =>
    rw [hcallback] at hcalls
    obtain ⟨worker, hcommand⟩ := hcalls
    have hbefore : c.before? = some .terminal := by rw [hcommand]; rfl
    refine ⟨?_, fun hterminal => ?_⟩
    · have hc' := hc
      rw [hcommand] at hc'
      exact (cancel_finalizer hwaits hrun hc').2
    · exact h.unreleased_before hrunning hc hbefore (hreleased _ hterminal)

/-- Only one worker is in a callback of the processor as a whole. -/
theorem alone_of_global (hwaits : Waits g) (hrun : CancelRun g lm s)
    (hst : (l, st) ∈ stagesOf (s.workers w).program)
    (hst' : (l, st') ∈ stagesOf (s.workers w').program)
    (hera : eraOf st.callback = eraOf st'.callback) (hglobal : (eraOf st.callback).IsGlobal) :
    w = w' := by
  have h := cancel_invariant hwaits hrun
  have hcourse := cancel_onCourse hwaits hrun
  obtain ⟨t, c, hrunning, hc, rfl, hcalls⟩ := command_of_stage h hcourse hst
  obtain ⟨t', c', hrunning', hc', howner, hcalls'⟩ := command_of_stage h hcourse hst'
  suffices ht : t = t' by
    subst ht
    exact h.alone w w' t hrunning hrunning'
  cases hcallback : st.callback <;> cases hcallback' : st'.callback <;>
    rw [hcallback, hcallback'] at hera <;> rw [hcallback] at hcalls hglobal <;>
    rw [hcallback'] at hcalls' <;> simp only [eraOf, Lifecycle.Era.IsGlobal, reduceCtorEq, or_self]
      at hera hglobal
  · rw [entry_of_calls h hc hcalls, entry_of_calls h hc' hcalls', howner]
  · rw [terminal_of_calls h hc hcalls, terminal_of_calls h hc' hcalls', howner]

end M3bp.Execution
