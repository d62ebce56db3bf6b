import M3bp.ExecutionMoves
import M3bp.ExecutionView

/-!
The callbacks of a processor in an execution in which any of them may throw. In every state
the log of a processor is one that the monitor of the lifecycle accepts, and when the
execution has come to its end, what has been initialised has been finalised.
-/
namespace M3bp.Execution

open Engine SchedulerCalls Transition
open Lifecycle (View Bracketed Agrees eraOf)
open WorkerThread (Answer)

variable {n : ℕ} {O E : Type}

/-- How far a thread has got with its sweep: whether its flag of the logical task `l` is still
to be looked at. -/
def SweptAt (l : ℕ) (isCancelled flag : Bool) : WorkerThread.Phase O E TaskId ℕ → Prop
  | .leaving => isCancelled = true ∨ flag = false
  | .cancelling todo | .handling (.cancelling todo) | .notifying _ (.cancelling todo) =>
    l ∉ todo → flag = false
  | .finalizing | .handling _ | .notifying _ _ | .returned => flag = false
  | _ => True

/-- The sweeps of the threads, for the flags of one processor. -/
structure Sweeping (s : State n O E) (l : ℕ) : Prop where
  swept : ∀ w, SweptAt l s.threads.isCancelled ((s.engine.flags l).locals w) (s.phase w)
  during : ∀ w, s.finalizing w = some l → (s.engine.flags l).locals w = false

section Sweeps

variable {l l' : ℕ} {isCancelled isCancelled' flag flag' : Bool}
  {phase : WorkerThread.Phase O E TaskId ℕ} {u : WorkerThread.Worker O E TaskId ℕ} {tasks : List ℕ}
  {ptr thrown : Option E} {a : Answer E TaskId}

theorem SweptAt.mono (h : SweptAt l isCancelled flag phase)
    (hcancelled : isCancelled = true → isCancelled' = true)
    (hflag : isOut phase = true → flag' = true → flag = true) : SweptAt l isCancelled' flag' phase := by
  have hfalse : isOut phase = true → flag = false → flag' = false := by
    intro hout hold
    by_contra hnew
    rw [Bool.not_eq_false] at hnew
    rw [hflag hout hnew] at hold
    cases hold
  cases phase with
  | initializing _ | looping | taking | preparing _ | running _ | completing _ => trivial
  | leaving => exact h.imp hcancelled (hfalse rfl)
  | cancelling todo => exact fun hl => hfalse rfl (h hl)
  | finalizing | returned => exact hfalse rfl h
  | notifying eptr rest =>
    cases rest with
    | cancelling todo => exact fun hl => hfalse rfl (h hl)
    | _ => exact hfalse rfl h
  | handling rest =>
    cases rest with
    | cancelling todo => exact fun hl => hfalse rfl (h hl)
    | _ => exact hfalse rfl h

theorem sweptAt_of_loop (hloop : isOut phase = false) : SweptAt l isCancelled flag phase := by
  cases phase <;> trivial

theorem sweptAt_call {pass : WorkerThread.Pass} {callback : WorkerThread.Callback O TaskId ℕ}
    {next : WorkerThread.Phase O E TaskId ℕ} {rest : WorkerThread.Handler ℕ}
    (hnext : SweptAt l isCancelled flag next)
    (hrest : ∀ eptr : E, SweptAt l isCancelled flag
      (.notifying eptr rest : WorkerThread.Phase O E TaskId ℕ)) :
    SweptAt l isCancelled flag (u.call pass callback thrown next rest).phase := by
  cases thrown with
  | none => exact hnext
  | some eptr => exact hrest eptr

/-- Between the tasks a thread keeps what it knows of its sweep. -/
theorem sweptAt_between (hl : l ∈ tasks) (hphase : IsBetween u.phase)
    (hfinished : a.isFinished = true → flag = false)
    (h : SweptAt l ptr.isSome flag u.phase) :
    SweptAt l (u.notify ptr).isSome flag (u.advance tasks ptr a).phase := by
  have hall : ∀ {isCancelled : Bool} (eptr : E), SweptAt l isCancelled flag
      (.notifying eptr (.cancelling tasks) : WorkerThread.Phase O E TaskId ℕ) :=
    fun _ hnot => absurd hl hnot
  cases hcase : u.phase with
  | initializing todo =>
    cases todo with
    | nil => simp only [WorkerThread.Worker.advance, hcase]; trivial
    | cons observer todo =>
      simp only [WorkerThread.Worker.advance, hcase]
      cases hthrown : a.thrown with
      | none => trivial
      | some eptr => exact hall eptr
  | looping =>
    simp only [WorkerThread.Worker.advance, WorkerThread.Worker.notify, hcase]
    split
    · trivial
    · next hexit =>
      cases hptr : ptr with
      | some eptr => exact Or.inl rfl
      | none =>
        refine Or.inr (hfinished ?_)
        simpa [hptr] using hexit
  | taking | preparing _ | running _ | completing _ | returned =>
    rw [hcase] at hphase
    exact hphase.elim
  | leaving =>
    rw [hcase] at h
    simp only [WorkerThread.Worker.advance, WorkerThread.Worker.notify, hcase]
    split
    · exact fun hnot => absurd hl hnot
    · next hcalm => exact h.resolve_left hcalm
  | cancelling todo =>
    cases todo with
    | nil =>
      rw [hcase] at h
      simp only [WorkerThread.Worker.advance, hcase]
      exact h (by simp)
    | cons l' todo =>
      rw [hcase] at hphase
      exact hphase.elim
  | finalizing =>
    rw [hcase] at h
    simp only [WorkerThread.Worker.advance, hcase]
    split
    · exact h
    · exact sweptAt_call h hall
  | notifying eptr rest =>
    rw [hcase] at h
    simp only [WorkerThread.Worker.advance, hcase]
    cases rest <;> exact h
  | handling rest =>
    rw [hcase] at h hphase
    cases rest with
    | cancelling todo =>
      cases todo with
      | nil =>
        simp only [WorkerThread.Worker.advance, hcase]
        exact h (by simp)
      | cons l' todo => exact hphase.elim
    | finalizing =>
      simp only [WorkerThread.Worker.advance, hcase]
      split
      · exact h
      · exact sweptAt_call h fun eptr => h
    | popping =>
      simp only [WorkerThread.Worker.advance, hcase]
      exact h

/-- A thread goes on to the next logical task of its sweep. -/
theorem sweptAt_cancels (hl : l ∈ tasks) (hphase : Cancels l' u.phase)
    (hflag : l = l' → flag = false) (h : SweptAt l isCancelled flag u.phase) :
    SweptAt l isCancelled' flag (u.advance tasks ptr a).phase := by
  obtain ⟨todo, hcase | hcase⟩ := hphase
  · have htodo : l ∉ todo → flag = false := by
      intro hnot
      by_cases heq : l = l'
      · exact hflag heq
      · rw [hcase] at h
        exact h (by simp [heq, hnot])
    simp only [WorkerThread.Worker.advance, hcase]
    exact sweptAt_call htodo fun eptr hnot => absurd hl hnot
  · have htodo : l ∉ todo → flag = false := by
      intro hnot
      by_cases heq : l = l'
      · exact hflag heq
      · rw [hcase] at h
        exact h (by simp [heq, hnot])
    simp only [WorkerThread.Worker.advance, hcase]
    exact sweptAt_call htodo fun eptr => htodo

end Sweeps

section Invariant

variable {g : LogicalGraph} {lm : LocalityManager} {observers : List O} {s s' : State n O E}
  {w : Fin n} {a : Answer E TaskId} {l : ℕ} {kind : TaskKind}

theorem isCancelled_execute (thrown : Option E) (h : s.threads.isCancelled = true) :
    (s.execute g thrown).threads.isCancelled = true := by
  simp only [State.execute, WorkerThread.State.execute]
  split
  · split
    · exact h
    · exact h
  · exact h
  · split
    · exact h
    · exact h
  · exact WorkerThread.isSome_notifyException _ _
  · exact h

/-- The thread `w` goes on, and no flag of a thread is set that is out of its loop. -/
theorem Sweeping.advance (h : Sweeping s l) (hphase : ∀ w', w' ≠ w → s'.phase w' = s.phase w')
    (hcancelled : s.threads.isCancelled = true → s'.threads.isCancelled = true)
    (hflags : ∀ w', isOut (s.phase w') = true → (s'.engine.flags l).locals w' = true →
      (s.engine.flags l).locals w' = true)
    (hself : SweptAt l s'.threads.isCancelled ((s'.engine.flags l).locals w) (s'.phase w))
    (hduring : ∀ w', s'.finalizing w' = some l → (s'.engine.flags l).locals w' = false) :
    Sweeping s' l := by
  refine ⟨fun w' => ?_, hduring⟩
  by_cases hw : w' = w
  · subst hw
    exact hself
  · rw [hphase w' hw]
    exact (h.swept w').mono hcancelled (hflags w')

/-- A worker in its task loop changes no flag of another thread. -/
theorem flags_apply_out {op : Op} {rest : List Op} {e : Effect}
    (heffect : Performs g s.engine w op e) (hloop : isOut (s.phase w) = false) {w' : Fin n}
    (hout : isOut (s.phase w') = true)
    (hflag : ((s.engine.apply w rest e).flags l).locals w' = true) :
    (s.engine.flags l).locals w' = true := by
  rcases heffect.threadFlag rest hflag with hold | ⟨-, rfl⟩
  · exact hold
  · rw [hloop] at hout
    cases hout

theorem Coupled.during (h : Coupled g lm observers s) {w' : Fin n} (hin : s.finalizing w' = some l) :
    isOut (s.phase w') = true := isOut_of_cancels (h.finalizing w' l hin)

/-- A step that sweeps nothing. -/
theorem Sweeping.keep (h : Sweeping s l) (hcoupled : Coupled g lm observers s)
    (hphase : ∀ w', w' ≠ w → s'.phase w' = s.phase w')
    (hcancelled : s.threads.isCancelled = true → s'.threads.isCancelled = true)
    (hflags : ∀ w', isOut (s.phase w') = true → (s'.engine.flags l).locals w' = true →
      (s.engine.flags l).locals w' = true)
    (hself : SweptAt l s'.threads.isCancelled ((s'.engine.flags l).locals w) (s'.phase w))
    (hfinalizing : s'.finalizing = s.finalizing) : Sweeping s' l := by
  refine h.advance hphase hcancelled hflags hself fun w' hin => ?_
  rw [hfinalizing] at hin
  by_contra hset
  rw [Bool.not_eq_false] at hset
  have hold := hflags w' (hcoupled.during hin) hset
  rw [h.during w' hin] at hold
  cases hold

/-- A step of the executor. -/
theorem Sweeping.execute (h : Sweeping s l) (thrown : Option E) :
    Sweeping (s.execute g thrown) l := by
  refine ⟨fun w => ?_, h.during⟩
  rw [phase_execute]
  exact (h.swept w).mono (isCancelled_execute thrown) fun _ => id

theorem Sweeping.step (hwaits : Waits g) (hcoupled : Coupled g lm observers s)
    (hkind : g.kindOf l = some kind) (hprocess : kind.isIntermediate = false) (h : Sweeping s l)
    (hstep : Step g lm s s') : Sweeping s' l := by
  have hl : l ∈ List.range g.tasks.length := List.mem_range.mpr (g.lt_of_kindOf hkind)
  cases hstep with
  | @follow w a hphase hfinished =>
    refine h.keep (w := w) hcoupled (fun w' hw => phase_advance_of_ne s g hw a)
      (WorkerThread.isCancelled_advance w a) (fun _ _ => id) ?_ rfl
    rw [phase_advance_self]
    refine sweptAt_between hl hphase (fun hdone => ?_) (h.swept w)
    rw [hfinished] at hdone
    have hcompleted := cancel_fixed_completed hwaits hcoupled.engine hdone hkind .terminal
    exact flags_of_terminal_taken hwaits hcoupled.engine hkind hprocess
      ((run_inv (cancel_invariant hwaits hcoupled.engine).run).log.completed_taken _ hcompleted) w
  | @takeNothing w hphase hover =>
    refine h.keep (w := w) hcoupled (fun w' hw => phase_advance_of_ne s g hw _)
      (WorkerThread.isCancelled_advance w _) (fun _ _ => id) (sweptAt_of_loop ?_) rfl
    rw [phase_of_taking hphase]
    rfl
  | @take w q t scheduler hphase hpop =>
    refine h.keep (w := w) hcoupled (fun w' hw => phase_advance_of_ne s g hw _)
      (WorkerThread.isCancelled_advance w _) (fun _ _ => id) (sweptAt_of_loop ?_) rfl
    show isOut ((s.advance g w (answer none (some t))).phase w) = false
    rw [phase_of_taking hphase]
    rfl
  | @prepare w t op rest e hphase hprogram heffect =>
    refine h.keep (w := w) hcoupled (fun w' hw => phase_advance_of_ne s g hw _)
      (WorkerThread.isCancelled_advance w _)
      (fun w' hout => flags_apply_out heffect (by rw [hphase]; rfl) hout) (sweptAt_of_loop ?_) rfl
    show isOut ((s.advance g w (answer none none)).phase w) = false
    rw [phase_of_preparing hphase]
    rfl
  | @perform w t op rest e hphase hcall hprogram heffect =>
    refine h.keep (w := w) hcoupled (fun _ _ => rfl) id
      (fun w' hout => flags_apply_out heffect (by rw [hphase]; rfl) hout) (sweptAt_of_loop ?_) rfl
    show isOut (s.phase w) = false
    rw [hphase]
    rfl
  | @throws w t op rest eptr hphase hcall hprogram hop =>
    refine h.keep (w := w) hcoupled (fun w' hw => phase_advance_of_ne s g hw _)
      (WorkerThread.isCancelled_advance w _) (fun _ _ => id) ?_ rfl
    show SweptAt l _ _ ((s.advance g w (answer (some eptr) none)).phase w)
    rw [phase_of_throwing hphase]
    exact fun hnot => absurd hl hnot
  | @complete w t hphase hcall hprogram =>
    refine h.keep (w := w) hcoupled (fun w' hw => phase_advance_of_ne s g hw _)
      (WorkerThread.isCancelled_advance w _) (fun _ _ => id) (sweptAt_of_loop ?_) rfl
    show isOut ((s.advance g w (answer none none)).phase w) = false
    rw [phase_of_running hphase]
    rfl
  | commitDecrement hcall => exact ⟨h.swept, h.during⟩
  | drain hcall => exact ⟨h.swept, h.during⟩
  | @finish w t hphase hcall =>
    refine h.keep (w := w) hcoupled (fun w' hw => phase_advance_of_ne s g hw _)
      (WorkerThread.isCancelled_advance w _) (fun _ _ => id) (sweptAt_of_loop ?_) rfl
    show isOut ((s.advance g w (answer none none)).phase w) = false
    rw [phase_of_completing hphase]
    rfl
  | @skipSweep w l' hphase hin hflag =>
    refine h.keep (w := w) hcoupled (fun w' hw => phase_advance_of_ne s g hw _)
      (WorkerThread.isCancelled_advance w _) (fun _ _ => id) ?_ rfl
    rw [phase_advance_self]
    exact sweptAt_cancels hl hphase (fun heq => heq ▸ hflag) (h.swept w)
  | @beginSweep w l' hphase hin hflag =>
    have hlower : ∀ w', ((s.beginSweep w l').engine.flags l).locals w' = true →
        (s.engine.flags l).locals w' = true ∧ ¬ (l = l' ∧ w' = w) := by
      intro w' hset
      by_cases heq : l = l'
      · subst heq
        by_cases hw : w' = w
        · subst hw
          simp [State.beginSweep, Engine.State.flags, Engine.State.setLocal] at hset
        · have hne : (w' : ℕ) ≠ w := fun hval => hw (Fin.ext hval)
          exact ⟨by simpa [State.beginSweep, Engine.State.flags, Engine.State.setLocal, hne]
            using hset, fun hand => hw hand.2⟩
      · have hsame := flags_setLocal_of_ne s.engine heq { s.engine.locals l' with
          threadLocalInitialized :=
            Function.update (s.engine.locals l').threadLocalInitialized w false }
        rw [show (s.beginSweep w l').engine.flags l = s.engine.flags l from hsame] at hset
        exact ⟨hset, fun hand => heq hand.1⟩
    refine h.advance (w := w) (fun _ _ => rfl) id (fun w' _ hset => (hlower w' hset).1)
      ((h.swept w).mono id fun _ hset => (hlower w hset).1) fun w' hin' => ?_
    by_contra hset
    rw [Bool.not_eq_false] at hset
    obtain ⟨hold, hne⟩ := hlower w' hset
    by_cases hw : w' = w
    · subst hw
      rw [show (s.beginSweep w' l').finalizing w' = some l' from Function.update_self ..,
        Option.some.injEq] at hin'
      exact hne ⟨hin'.symm, rfl⟩
    · rw [show (s.beginSweep w l').finalizing w' = s.finalizing w' from
        Function.update_of_ne hw ..] at hin'
      rw [h.during w' hin'] at hold
      cases hold
  | @endSweep w l' thrown hin =>
    refine h.advance (w := w) (fun w' hw => phase_advance_of_ne s g hw _)
      (WorkerThread.isCancelled_advance w _) (fun _ _ => id) ?_ fun w' hin' => ?_
    · show SweptAt l _ _ ((s.advance g w (answer thrown none)).phase w)
      rw [phase_advance_self]
      refine sweptAt_cancels hl (hcoupled.finalizing w l' hin) (fun heq => ?_) (h.swept w)
      exact h.during w (heq ▸ hin)
    · by_cases hw : w' = w
      · subst hw
        rw [show ((s.advance g w' (answer thrown none)).endSweep w' l' thrown).finalizing w' = none
          from Function.update_self ..] at hin'
        cases hin'
      · rw [show ((s.advance g w (answer thrown none)).endSweep w l' thrown).finalizing w' =
          s.finalizing w' from Function.update_of_ne hw ..] at hin'
        exact h.during w' hin'
  | join hphase hreturned => exact h.execute none
  | notify hphase => exact h.execute none
  | conclude hphase => exact h.execute none
  | skipCancel hphase hin hflag => exact h.execute none
  | @beginCancel l' todo hphase hin hflag =>
    have hsame : ((s.beginCancel l').engine.flags l).locals = (s.engine.flags l).locals := by
      by_cases heq : l = l'
      · subst heq
        simp [State.beginCancel, Engine.State.flags, Engine.State.setLocal]
      · exact congrArg Flags.locals (flags_setLocal_of_ne s.engine heq _)
    refine ⟨fun w => ?_, fun w hin' => ?_⟩
    · rw [hsame]
      exact h.swept w
    · rw [hsame]
      exact h.during w hin'
  | @endCancel l' thrown hin =>
    have hsame : ((s.execute g thrown).endCancel l' thrown).engine.flags l = s.engine.flags l := by
      cases thrown with
      | some eptr => rfl
      | none =>
        by_cases heq : l = l'
        · subst heq
          simp [State.endCancel, Engine.State.flags, Engine.State.setLocal, State.execute]
        · exact flags_setLocal_of_ne s.engine heq _
    have hexecute := h.execute (g := g) thrown
    refine ⟨fun w => ?_, fun w hin' => ?_⟩
    · rw [hsame]
      exact hexecute.swept w
    · rw [hsame]
      exact hexecute.during w hin'

theorem flags_start (draws : TaskId → WorkerId) :
    ((start g lm draws observers : State n O E).engine.flags l).global = false ∧
      ∀ w, ((start g lm draws observers : State n O E).engine.flags l).locals w = false := by
  have hcreate : ∀ kind, (Local.create kind).globalInitialized = false ∧
      ∀ w, (Local.create kind).threadLocalInitialized w = false := by
    intro kind
    cases kind <;> exact ⟨rfl, fun _ => rfl⟩
  exact ⟨(hcreate _).1, fun w => (hcreate _).2 w⟩

theorem sweeping_reached (hwaits : Waits g) (hs : Reached g lm observers s)
    (hkind : g.kindOf l = some kind) (hprocess : kind.isIntermediate = false) : Sweeping s l := by
  induction hs with
  | start hinit =>
    obtain ⟨draws, rfl⟩ := hinit
    exact ⟨fun _ => trivial, nofun⟩
  | next hs hstep ih => exact ih.step hwaits (coupled_reached hwaits hs) hkind hprocess hstep

/-- The scheduler and the threads guarantee what the processor's view needs. -/
theorem sound_view (hwaits : Waits g) (h : Coupled g lm observers s) (hsweeping : Sweeping s l)
    (hkind : g.kindOf l = some kind) (hprocess : kind.isIntermediate = false) :
    (s.view l).Sound := by
  have hinv := cancel_invariant hwaits h.engine
  have hcourse := cancel_onCourse hwaits h.engine
  have htaken := (run_inv hinv.run).log.completed_taken
  obtain ⟨hentry, hbarrier⟩ := completed_of_fixed_taken hinv hkind hprocess
  have hholds : ∀ {w st}, st ∈ (s.view l).work w → Holds s.engine l (eraOf st.callback) :=
    fun hst => holds_of_stage hwaits h.engine (mem_ofTask.mp hst)
  have htogether : ∀ w w' st st', st ∈ (s.view l).work w → st' ∈ (s.view l).work w' →
      eraOf st.callback = eraOf st'.callback :=
    fun w w' st st' hst hst' => era_unique hinv hkind hprocess (hholds hst) (hholds hst')
  have hfinalizing : ∀ w, s.finalizing w = some l → isOut (s.phase w) = true :=
    fun w hin => isOut_of_cancels (h.finalizing w l hin)
  refine ⟨fun w st hst => ?_, htogether, fun w w' st st' hst hst' hglobal => ?_,
    fun hterminal => htaken _ (hbarrier hterminal),
    fun hterminal w => flags_of_terminal_taken hwaits h.engine hkind hprocess hterminal w,
    fun w hin => hfinalizing w (of_decide_eq_true hin), fun hin => ?_, fun hover w => ?_,
    fun w st hout hst => ?_, fun w st rest hwork => ?_⟩
  · have hera := hholds hst
    cases heq : eraOf st.callback with
    | entry =>
      rw [heq] at hera
      exact ⟨hera.1, fun hbegun => hera.2 (hentry hbegun)⟩
    | work =>
      rw [heq] at hera
      exact ⟨htaken _ hera.1, hera.2⟩
    | finalizers =>
      rw [heq] at hera
      exact ⟨htaken _ (hentry hera.1), hera.1, hera.2⟩
    | terminal =>
      rw [heq] at hera
      exact ⟨htaken _ (hentry (htaken _ (hbarrier hera))), hera⟩
  · exact alone_of_global hwaits h.engine (mem_ofTask.mp hst) (mem_ofTask.mp hst')
      (htogether w w' st st' hst hst') hglobal
  · obtain ⟨todo, hphase⟩ := h.globalFinalizing l (of_decide_eq_true hin)
    simp [State.view, hphase]
  · have hreturned := h.executor hover w
    refine ⟨by simp [State.view, hreturned, isOut], ?_, ?_⟩
    · have hswept := hsweeping.swept w
      rw [hreturned] at hswept
      exact hswept
    · refine decide_eq_false fun hin => ?_
      obtain ⟨todo, hphase | hphase⟩ := h.finalizing w l hin <;> rw [hreturned] at hphase <;>
        cases hphase
  · have hworker := (expects_of_out hout).mp (h.workers w)
    rcases hworker with hidle | ⟨t, op, rest, hrunning, -, hprogram, hop⟩
    · rw [work_of_idle hinv hidle] at hst
      cases hst
    · have hwork : (s.view l).work w = ofTask l (stagesOf (op :: rest)) := by
        simp only [State.view, hprogram]
      rw [hwork] at hst
      rcases stages_of_throwing (E := E) hinv hcourse hrunning hprogram hop with hstages |
          ⟨l', st', stages, hstages, hst', -⟩
      · rw [hstages] at hst
        cases hst
      · rw [hstages] at hst
        by_cases hl : l' = l
        · subst hl
          rw [ofTask_map_self] at hst
          cases hst
          exact hst'
        · rw [ofTask_map_of_ne hl] at hst
          cases hst
  · have hst : st ∈ (s.view l).work w := by
      rw [hwork]
      exact List.mem_cons_self
    obtain ⟨op, hop, -⟩ := List.mem_flatMap.mp (mem_ofTask.mp hst)
    obtain ⟨t, hrunning⟩ := hinv.running_of_mem hop
    obtain ⟨-, -, -, c, hc, -⟩ := hinv.running w t hrunning
    obtain ⟨stages, hcourse', hstages⟩ := hcourse w t c hrunning hc
    have heq : (s.view l).work w = ofTask l (stages.map (c.owner, ·)) := by
      simp only [State.view, hstages]
    rw [heq] at hwork
    by_cases hl : c.owner = l
    · rw [hl, ofTask_map_self] at hwork
      rw [hwork] at hcourse'
      exact Lifecycle.laterStages_of_course hcourse'
    · rw [ofTask_map_of_ne hl] at hwork
      cases hwork

theorem agrees_start (hends : ∀ e ∈ g.edges, e.producer.1 < g.tasks.length ∧
      e.consumer.1 < g.tasks.length) (draws : TaskId → WorkerId) :
    Agrees ((start g lm draws observers : State n O E).view l) Lifecycle.Phase.fresh := by
  have huntaken := (setUp_spec (n := n) lm draws hends).calm.untaken
  obtain ⟨hglobal, hlocals⟩ :
      ((start g lm draws observers : State n O E).engine.flags l).global = false ∧
        ∀ w, ((start g lm draws observers : State n O E).engine.flags l).locals w = false :=
    flags_start draws
  refine ⟨fun w => ?_, nofun, ?_⟩
  · rw [show ((start g lm draws observers : State n O E).view l).flags.locals w = false from
      hlocals w]
    exact .fresh trivial
  · refine ⟨fun _ => ⟨rfl, hglobal⟩, nofun, fun hset => ?_, fun htaken => ?_, nofun,
      fun _ _ _ => Or.inl rfl, fun _ _ => hglobal⟩
    · exact absurd (hset.symm.trans hglobal) (by simp)
    · exact absurd htaken (huntaken _)

/-- The monitor accepts the log of a processor in every state of an execution. -/
theorem accepts_reached (hwaits : Waits g) (hs : Reached g lm observers s)
    (hkind : g.kindOf l = some kind) (hprocess : kind.isIntermediate = false) :
    ∃ p, (Lifecycle.monitor n E).Accepts (s.logOf l) p ∧ Agrees (s.view l) p := by
  refine Monitor.accepts_of_reachable (fun s : State n O E => s.logOf l)
    (fun s p => Agrees (s.view l) p) ?_ ?_ hs
  · rintro _ ⟨draws, rfl⟩
    exact ⟨rfl, agrees_start hwaits.endpoints draws⟩
  · intro s s' p hs hagrees hstep
    have hcoupled := coupled_reached hwaits hs
    rcases step_view hwaits hcoupled hkind hprocess hstep with ⟨hview, hlog⟩ | ⟨ev, hview, hlog⟩
    · exact Or.inl ⟨hlog, by rw [hview]; exact hagrees⟩
    · have hsound := sound_view hwaits hcoupled (sweeping_reached hwaits hs hkind hprocess) hkind
        hprocess
      rcases hagrees.step hsound hview with ⟨rfl, hagrees'⟩ | ⟨e, p', rfl, hallowed, hagrees'⟩
      · exact Or.inl ⟨hlog, hagrees'⟩
      · exact Or.inr ⟨e, p', hlog, hallowed, hagrees'⟩

/-- The callbacks of a processor are bracketed in every state, whatever they throw. -/
theorem lifecycle_bracketed (hwaits : Waits g) (hs : Reached g lm observers s)
    (hkind : g.kindOf l = some kind) (hprocess : kind.isIntermediate = false) :
    Bracketed (s.logOf l) := by
  obtain ⟨p, hp, -⟩ := accepts_reached hwaits hs hkind hprocess
  exact Lifecycle.bracketed_of_accepts hp

theorem lifecycle_bracketed_throwing : ∃ s : State 1 ℕ ℕ, s.log.length = 14 ∧
    s.threads.executor = .finished (some 7) ∧ Bracketed (s.logOf 0) ∧ Bracketed (s.logOf 1) := by
  obtain ⟨s, hs, hfinished, hlength⟩ := exists_throwing
  exact ⟨s, hlength, hfinished, lifecycle_bracketed waits_pipe hs rfl rfl,
    lifecycle_bracketed waits_pipe hs rfl rfl⟩

end Invariant

end M3bp.Execution
