import M3bp.EngineStages
import M3bp.Lifecycle

/-!
A processor during an execution: its flags, what the workers have before them of its
callbacks, and how far its tasks have got. Whatever happens to such a view is an event that
the monitor allows, or it is none at all.
-/
namespace M3bp.Lifecycle

open Engine

variable {n : ℕ} {E : Type}

/-- The parts of a processor's life that its callbacks belong to. -/
inductive Era
  | entry
  | work
  | finalizers
  | terminal
  deriving DecidableEq, Repr

def eraOf : Callback → Era
  | .globalInitialize => .entry
  | .threadLocalInitialize | .run => .work
  | .threadLocalFinalize => .finalizers
  | .globalFinalize => .terminal

/-- The part of a thread's life that belongs to the processor as a whole. -/
def Era.IsGlobal (era : Era) : Prop := era = .entry ∨ era = .terminal

theorem not_isGlobal_work : ¬ Era.work.IsGlobal := by
  rintro (h | h) <;> cases h

theorem not_isGlobal_finalizers : ¬ Era.finalizers.IsGlobal := by
  rintro (h | h) <;> cases h

/-- What comes after a stage in the course of a task. -/
def laterStages : Stage → List Stage
  | .deciding .threadLocalInitialize | .marking .threadLocalInitialize => [.entering .run]
  | .entering .threadLocalInitialize | .inside .threadLocalInitialize =>
    [.marking .threadLocalInitialize, .entering .run]
  | .entering .globalInitialize | .inside .globalInitialize => [.marking .globalInitialize]
  | _ => []

theorem laterStages_of_course {c : Command} {st : Stage} {rest : List Stage} (h : Course c (st :: rest)) :
    rest = laterStages st := by
  generalize hlist : st :: rest = all at h
  cases h with
  | start =>
    cases c <;> simp only [Command.course, List.cons.injEq, reduceCtorEq] at hlist <;>
      obtain ⟨rfl, rfl⟩ := hlist <;> rfl
  | done => cases hlist
  | _ =>
    obtain ⟨rfl, rfl⟩ := List.cons.inj hlist
    rfl

/-- `isOut` says that a thread has left its task loop, perhaps by an exception of its task;
`sweeping` that it is in the finalization of a cancelled thread, and `executing` that the
executor is in the finalization of a cancelled processor. -/
@[ext] structure View (n : ℕ) where
  flags : Flags n
  work : Fin n → List Stage
  isOut : Fin n → Bool
  sweeping : Fin n → Bool
  executing : Bool
  isOver : Prop
  entryTaken : Prop
  barrierTaken : Prop
  terminalTaken : Prop

namespace View

/-- How far the tasks have got when callbacks of an era are called. -/
def Fits (v : View n) : Era → Prop
  | .entry => v.entryTaken ∧ ¬ v.barrierTaken
  | .work => v.entryTaken ∧ ¬ v.barrierTaken
  | .finalizers => v.entryTaken ∧ v.barrierTaken ∧ ¬ v.terminalTaken
  | .terminal => v.entryTaken ∧ v.terminalTaken

def goOn (v : View n) (w : Fin n) (f : Flags n) (stages : List Stage) : View n :=
  { v with flags := f, work := Function.update v.work w stages }

@[simp] theorem goOn_work_self (v : View n) (w : Fin n) (f : Flags n) (stages : List Stage) :
    (v.goOn w f stages).work w = stages := Function.update_self ..

theorem goOn_work_of_ne (v : View n) {w w' : Fin n} (hw : w' ≠ w) (f : Flags n)
    (stages : List Stage) : (v.goOn w f stages).work w' = v.work w' := Function.update_of_ne hw ..

def pick (v : View n) (w : Fin n) (c : Command) (entryTaken barrierTaken terminalTaken : Prop) :
    View n :=
  { v with
    work := Function.update v.work w c.course
    entryTaken := entryTaken
    barrierTaken := barrierTaken
    terminalTaken := terminalTaken }

theorem pick_work_self (v : View n) (w : Fin n) (c : Command)
    (entryTaken barrierTaken terminalTaken : Prop) :
    (v.pick w c entryTaken barrierTaken terminalTaken).work w = c.course := Function.update_self ..

theorem pick_work_of_ne (v : View n) {w w' : Fin n} (hw : w' ≠ w) (c : Command)
    (entryTaken barrierTaken terminalTaken : Prop) :
    (v.pick w c entryTaken barrierTaken terminalTaken).work w' = v.work w' :=
  Function.update_of_ne hw ..

def leave (v : View n) (w : Fin n) : View n :=
  { v with isOut := Function.update v.isOut w true }

@[simp] theorem leave_isOut_self (v : View n) (w : Fin n) : (v.leave w).isOut w = true :=
  Function.update_self ..

/-- The finalization of the cancelled thread `w` begins. -/
def sweep (v : View n) (w : Fin n) : View n :=
  { v with flags := v.flags.setLocal w false, sweeping := Function.update v.sweeping w true }

def swept (v : View n) (w : Fin n) : View n :=
  { v with sweeping := Function.update v.sweeping w false }

@[simp] theorem sweep_locals_self (v : View n) (w : Fin n) : (v.sweep w).flags.locals w = false :=
  Function.update_self ..

@[simp] theorem sweep_sweeping_self (v : View n) (w : Fin n) : (v.sweep w).sweeping w = true :=
  Function.update_self ..

@[simp] theorem swept_sweeping_self (v : View n) (w : Fin n) : (v.swept w).sweeping w = false :=
  Function.update_self ..

/-- The finalization of the cancelled processor begins. -/
def finalize (v : View n) : View n :=
  { v with flags := { v.flags with global := false }, executing := true }

def finalized (v : View n) : View n := { v with executing := false }

/-- What the scheduler and the threads guarantee. -/
structure Sound (v : View n) : Prop where
  eras : ∀ w st, st ∈ v.work w → v.Fits (eraOf st.callback)
  together : ∀ w w' st st', st ∈ v.work w → st' ∈ v.work w' →
    eraOf st.callback = eraOf st'.callback
  alone : ∀ w w' st st', st ∈ v.work w → st' ∈ v.work w' → (eraOf st.callback).IsGlobal → w = w'
  terminal : v.terminalTaken → v.barrierTaken
  cleared : v.terminalTaken → ∀ w, v.flags.locals w = false
  sweeping : ∀ w, v.sweeping w = true → v.isOut w = true
  executing : v.executing = true → v.isOver
  ended : v.isOver → ∀ w, v.isOut w = true ∧ v.flags.locals w = false ∧ v.sweeping w = false
  frozen : ∀ w st, v.isOut w = true → (v.work w).head? = some st →
    ∃ callback, st = .deciding callback ∨ st = .inside callback
  later : ∀ w st rest, v.work w = st :: rest → rest = laterStages st

end View

def stageEvent (w : Fin n) : Stage → Option (Event n E)
  | .entering callback => some ⟨some w, callback, false, .entered⟩
  | .inside callback => some ⟨some w, callback, false, .left none⟩
  | _ => none

def thrownEvent (w : Fin n) (eptr : E) : Stage → Option (Event n E)
  | .inside callback => some ⟨some w, callback, false, .left (some eptr)⟩
  | _ => none

/-- What happens to a processor during an execution. -/
inductive View.Step (v : View n) : Option (Event n E) → View n → Prop
  | turn {w : Fin n} {st : Stage} {rest more : List Stage} {f : Flags n} :
      v.work w = st :: rest → v.isOut w = false → Turn w st v.flags more f →
      Step v (stageEvent w st) (v.goOn w f (more ++ rest))
  | pick {w : Fin n} {c : Command} {entryTaken barrierTaken terminalTaken : Prop} :
      v.work w = [] → v.isOut w = false →
      (v.entryTaken → entryTaken) → (entryTaken → v.entryTaken ∨ c.Calls .globalInitialize) →
      (c.Calls .globalInitialize → ¬ v.entryTaken) → (v.barrierTaken → barrierTaken) →
      (v.terminalTaken → terminalTaken) →
      (terminalTaken → v.terminalTaken ∨ c.Calls .globalFinalize) →
      Step v none (v.pick w c entryTaken barrierTaken terminalTaken)
  | withdraw {w : Fin n} : v.work w = [] → v.isOut w = false → Step v none (v.leave w)
  | throws {w : Fin n} {st : Stage} {rest : List Stage} (eptr : E) :
      v.work w = st :: rest → v.isOut w = false →
      (∃ callback, st = .deciding callback ∨ st = .inside callback) →
      Step v (thrownEvent w eptr st) (v.leave w)
  | sweep {w : Fin n} : v.isOut w = true → v.flags.locals w = true →
      Step v (some ⟨some w, .threadLocalFinalize, true, .entered⟩) (v.sweep w)
  | swept {w : Fin n} (thrown : Option E) : v.sweeping w = true →
      Step v (some ⟨some w, .threadLocalFinalize, true, .left thrown⟩) (v.swept w)
  | finalize : v.isOver → v.flags.global = true →
      Step v (some ⟨none, .globalFinalize, true, .entered⟩) v.finalize
  | finalized (thrown : Option E) : v.executing = true →
      Step v (some ⟨none, .globalFinalize, true, .left thrown⟩) v.finalized
  | finish {isOver : Prop} : (v.isOver → isOver) → Step v none { v with isOver := isOver }

/-! What the views say about the phases. -/

/-- A thread that is in none of its own callbacks and on the way to none. -/
def Aside : Option Stage → Bool → Prop
  | none, _ => True
  | some (.deciding _), _ => True
  | some (.inside .run), true => True
  | some st, _ => (eraOf st.callback).IsGlobal

/-- The phase of a thread by its first stage, by whether it is out, by its flag and by
whether a finalization of a cancelled thread is in progress. -/
inductive LocalOk (barrierTaken : Prop) : Option Stage → Bool → Bool → Bool → LocalPhase → Prop
  | toInitialize : LocalOk barrierTaken (some (.entering .threadLocalInitialize)) false false false
      .fresh
  | initializing : LocalOk barrierTaken (some (.inside .threadLocalInitialize)) false false false
      .initializing
  | failed : LocalOk barrierTaken (some (.inside .threadLocalInitialize)) true false false .failed
  | initialized : LocalOk barrierTaken (some (.marking .threadLocalInitialize)) false false false
      .ready
  | toRun : LocalOk barrierTaken (some (.entering .run)) false true false .ready
  | running : LocalOk barrierTaken (some (.inside .run)) false true false .running
  | toFinalize : LocalOk barrierTaken (some (.entering .threadLocalFinalize)) false false false
      .ready
  | finalizing : LocalOk barrierTaken (some (.inside .threadLocalFinalize)) false false false
      (.finalizing false)
  | threw : LocalOk barrierTaken (some (.inside .threadLocalFinalize)) true false false .finalized
  | ready {st : Option Stage} {isOut : Bool} (h : Aside st isOut) :
      LocalOk barrierTaken st isOut true false .ready
  | fresh {st : Option Stage} {isOut : Bool} (h : Aside st isOut) :
      LocalOk barrierTaken st isOut false false .fresh
  | sweeping {st : Option Stage} (h : Aside st true) :
      LocalOk barrierTaken st true false true (.finalizing true)
  | finalized {st : Option Stage} {isOut : Bool} (h : Aside st isOut)
      (hend : barrierTaken ∨ isOut = true) :
      LocalOk barrierTaken st isOut false false .finalized

/-- The phase of a processor while one of its own callbacks is before a worker. -/
def GlobalOk (isOut flag : Bool) (x : GlobalPhase) : Stage → Prop
  | .deciding .globalInitialize | .entering .globalInitialize => flag = false ∧ x = .fresh
  | .inside .globalInitialize => flag = false ∧ x = if isOut then .failed else .initializing
  | .marking .globalInitialize => flag = false ∧ x = .active
  | .entering .globalFinalize => flag = false ∧ x = .active
  | .inside .globalFinalize => flag = false ∧ x = if isOut then .finalized else .finalizing
  | _ => True

theorem globalOk_of_plain {isOut flag : Bool} {x : GlobalPhase} {st : Stage}
    (h : ¬ (eraOf st.callback).IsGlobal) : GlobalOk isOut flag x st := by
  unfold GlobalOk
  split <;> first
    | exact absurd (Or.inl rfl) h
    | exact absurd (Or.inr rfl) h
    | trivial

/-- The processor is not yet through with one of its own callbacks. -/
def IsMoving : Stage → Prop
  | .deciding _ => False
  | st => (eraOf st.callback).IsGlobal

structure GlobalAgrees (v : View n) (x : GlobalPhase) : Prop where
  untaken : ¬ v.entryTaken → x = .fresh ∧ v.flags.global = false
  stage : ∀ w st, (v.work w).head? = some st → GlobalOk (v.isOut w) v.flags.global x st
  active : v.flags.global = true → x = .active
  begun : v.entryTaken → ¬ v.terminalTaken → ¬ v.isOver →
    (∀ w st, st ∈ v.work w → eraOf st.callback ≠ .entry) → v.flags.global = true
  executing : v.executing = true → x = .finalizing ∧ v.flags.global = false
  settled : v.flags.global = false → v.executing = false →
    (∀ w st, (v.work w).head? = some st → IsMoving st → v.isOut w = true) → x.Closed
  ended : v.terminalTaken → (∀ w st, st ∈ v.work w → eraOf st.callback ≠ .terminal) →
    v.flags.global = false

structure Agrees (v : View n) (p : Phase n) : Prop where
  locals : ∀ w, LocalOk v.barrierTaken (v.work w).head? (v.isOut w) (v.flags.locals w)
    (v.sweeping w) (p.locals w)
  closing : p.closing = true → v.barrierTaken
  global : GlobalAgrees v p.global

theorem LocalOk.mono {a b : Prop} (hab : a → b) {st : Option Stage} {isOut flag sweeping : Bool}
    {x : LocalPhase} (h : LocalOk a st isOut flag sweeping x) :
    LocalOk b st isOut flag sweeping x := by
  cases h with
  | toInitialize => exact .toInitialize
  | initializing => exact .initializing
  | failed => exact .failed
  | initialized => exact .initialized
  | toRun => exact .toRun
  | running => exact .running
  | toFinalize => exact .toFinalize
  | finalizing => exact .finalizing
  | threw => exact .threw
  | ready h => exact .ready h
  | fresh h => exact .fresh h
  | sweeping h => exact .sweeping h
  | finalized h hend => exact .finalized h (hend.imp_left hab)

@[simp] theorem Phase.setLocal_self (p : Phase n) (w : Fin n) :
    p.setLocal w (p.locals w) false = p := by
  simp [Phase.setLocal]

structure View.SameBut (w : Fin n) (v v' : View n) : Prop where
  global : v'.flags.global = v.flags.global
  locals : ∀ w', w' ≠ w → v'.flags.locals w' = v.flags.locals w'
  work : ∀ w', w' ≠ w → v'.work w' = v.work w'
  isOut : ∀ w', w' ≠ w → v'.isOut w' = v.isOut w'
  sweeping : ∀ w', w' ≠ w → v'.sweeping w' = v.sweeping w'
  executing : v'.executing = v.executing
  isOver : v'.isOver ↔ v.isOver
  entryTaken : v'.entryTaken ↔ v.entryTaken
  barrierTaken : v.barrierTaken → v'.barrierTaken
  terminalTaken : v'.terminalTaken ↔ v.terminalTaken

/-- A worker without a callback of the processor as a whole. -/
def View.IsPlain (v : View n) (w : Fin n) : Prop :=
  ∀ st ∈ v.work w, ¬ (eraOf st.callback).IsGlobal

section Agreement

variable {v v' : View n} {p : Phase n} {w : Fin n} {x : LocalPhase} {st : Stage}
  {rest : List Stage}

theorem head?_course (c : Command) : c.course.head? = none ∨
    ∃ callback, c.course.head? = some (.deciding callback) ∧ c.Calls callback := by
  cases c with
  | inputRun | oneToOneRun | scatterGatherRun => exact Or.inr ⟨.threadLocalInitialize, rfl, rfl⟩
  | threadLocalFinalize l worker => exact Or.inr ⟨_, rfl, worker, rfl⟩
  | globalInitialize l | globalFinalize l => exact Or.inr ⟨_, rfl, rfl⟩
  | _ => exact Or.inl rfl

theorem mem_of_head? {st : Stage} {stages : List Stage} (h : stages.head? = some st) :
    st ∈ stages := List.mem_of_mem_head? h

/-- What concerns the processor as a whole does not depend on such a worker. -/
theorem GlobalAgrees.of_same {x : GlobalPhase} (h : GlobalAgrees v x) (hsame : v.SameBut w v')
    (hplain : v.IsPlain w) (hplain' : v'.IsPlain w) : GlobalAgrees v' x := by
  have hglobal := hsame.global
  have hmove : ∀ {w' st}, st ∈ v.work w' → (eraOf st.callback).IsGlobal →
      w' ≠ w ∧ st ∈ v'.work w' := by
    intro w' st hst hera
    have hw : w' ≠ w := by
      rintro rfl
      exact hplain st hst hera
    exact ⟨hw, by rwa [hsame.work w' hw]⟩
  refine ⟨?_, ?_, ?_, ?_, ?_, ?_, ?_⟩
  · intro huntaken
    rw [hglobal]
    exact h.untaken (mt hsame.entryTaken.mpr huntaken)
  · intro w' st hst
    by_cases hw : w' = w
    · subst hw
      exact globalOk_of_plain (hplain' st (mem_of_head? hst))
    · rw [hsame.work w' hw] at hst
      rw [hsame.isOut w' hw, hglobal]
      exact h.stage w' st hst
  · rw [hglobal]
    exact h.active
  · intro hentry hterminal hover hnone
    rw [hglobal]
    refine h.begun (hsame.entryTaken.mp hentry) (mt hsame.terminalTaken.mpr hterminal)
      (mt hsame.isOver.mpr hover) fun w' st hst hera => ?_
    exact hnone w' st (hmove hst (Or.inl hera)).2 hera
  · rw [hsame.executing, hglobal]
    exact h.executing
  · rw [hsame.executing, hglobal]
    intro hflag hexecuting hmoving
    refine h.settled hflag hexecuting fun w' st hst hst' => ?_
    have hera : (eraOf st.callback).IsGlobal := by
      cases st with
      | deciding callback => exact hst'.elim
      | _ => exact hst'
    obtain ⟨hw, -⟩ := hmove (mem_of_head? hst) hera
    rw [← hsame.isOut w' hw]
    exact hmoving w' st (by rwa [hsame.work w' hw]) hst'
  · intro hterminal hnone
    rw [hglobal]
    refine h.ended (hsame.terminalTaken.mp hterminal) fun w' st hst hera => ?_
    exact hnone w' st (hmove hst (Or.inr hera)).2 hera

theorem Agrees.of_same {closing : Bool} (h : Agrees v p) (hsame : v.SameBut w v')
    (hlocal : LocalOk v'.barrierTaken (v'.work w).head? (v'.isOut w) (v'.flags.locals w)
      (v'.sweeping w) x)
    (hclosing : closing = true → v'.barrierTaken)
    (hglobal : GlobalAgrees v' p.global) : Agrees v' (p.setLocal w x closing) := by
  refine ⟨fun w' => ?_, fun hcloses => ?_, hglobal⟩
  · by_cases hw : w' = w
    · subst hw
      simpa [Phase.setLocal] using hlocal
    · have hold := (h.locals w').mono hsame.barrierTaken
      simpa [Phase.setLocal, hw, hsame.work w' hw, hsame.isOut w' hw, hsame.locals w' hw,
        hsame.sweeping w' hw] using hold
  · rcases Bool.or_eq_true_iff.mp hcloses with hold | hnew
    · exact hsame.barrierTaken (h.closing hold)
    · exact hclosing hnew

theorem View.Sound.isPlain (hs : v.Sound) (hwork : v.work w = st :: rest)
    (hera : ¬ (eraOf st.callback).IsGlobal) : v.IsPlain w := by
  intro st' hst'
  rw [← hs.together w w st st' (by rw [hwork]; exact List.mem_cons_self) hst']
  exact hera

/-- What the first stage says about a thread in its task loop. -/
def InLoop (barrierTaken : Prop) (flag : Bool) (x : LocalPhase) : Stage → Prop
  | .entering .threadLocalInitialize => flag = false ∧ x = .fresh
  | .inside .threadLocalInitialize => flag = false ∧ x = .initializing
  | .marking .threadLocalInitialize => flag = false ∧ x = .ready
  | .entering .run => flag = true ∧ x = .ready
  | .inside .run => flag = true ∧ x = .running
  | .entering .threadLocalFinalize => flag = false ∧ x = .ready
  | .inside .threadLocalFinalize => flag = false ∧ x = .finalizing false
  | .marking _ => False
  | _ => (flag = true → x = .ready) ∧ (flag = false → x = .fresh ∨ x = .finalized ∧ barrierTaken)

theorem LocalOk.inLoop {b : Prop} {flag sweeping : Bool}
    (h : LocalOk b (some st) false flag sweeping x) (hera : ¬ (eraOf st.callback).IsGlobal) :
    sweeping = false ∧ InLoop b flag x st := by
  have haside : Aside (some st) false → ∃ callback, st = .deciding callback := by
    cases st with
    | deciding callback => exact fun _ => ⟨callback, rfl⟩
    | entering callback | inside callback | marking callback =>
      cases callback <;> exact fun hst => absurd hst hera
  cases h with
  | ready hst =>
    obtain ⟨callback, rfl⟩ := haside hst
    exact ⟨rfl, fun _ => rfl, nofun⟩
  | fresh hst =>
    obtain ⟨callback, rfl⟩ := haside hst
    exact ⟨rfl, nofun, fun _ => Or.inl rfl⟩
  | finalized hst hend =>
    obtain ⟨callback, rfl⟩ := haside hst
    exact ⟨rfl, nofun, fun _ => Or.inr ⟨rfl, by simpa using hend⟩⟩
  | _ => exact ⟨rfl, rfl, rfl⟩

theorem aside_of_global {isOut : Bool} (h : (eraOf st.callback).IsGlobal) :
    Aside (some st) isOut := by
  cases st with
  | deciding callback => trivial
  | entering callback | marking callback => exact h
  | inside callback =>
    cases callback with
    | run => exact absurd h (by simp [Era.IsGlobal, eraOf, Stage.callback])
    | _ => exact h

theorem LocalOk.aside {b : Prop} {st st' : Option Stage} {isOut flag sweeping : Bool}
    (h : LocalOk b st isOut flag sweeping x) (hst : Aside st isOut) (hst' : Aside st' isOut) :
    LocalOk b st' isOut flag sweeping x := by
  cases h with
  | ready _ => exact .ready hst'
  | fresh _ => exact .fresh hst'
  | sweeping _ => exact .sweeping hst'
  | finalized _ hend => exact .finalized hst' hend
  | _ => simp [Aside, Era.IsGlobal, eraOf, Stage.callback] at hst

/-- The turn of a worker in a callback of its thread. -/
def Continues (p : Phase n) (w : Fin n) (x : LocalPhase) (closing : Bool) :
    Option (Event n E) → Prop
  | none => x = p.locals w ∧ closing = false
  | some e => e.thread = some w ∧ LocalMove (p.locals w) e.callback e.isCancelled e.moment x ∧
      Permits p e ∧ closing = e.closes

theorem Continues.agrees {ev : Option (Event n E)} {closing : Bool}
    (hcontinues : Continues p w x closing ev) (hagrees : Agrees v' (p.setLocal w x closing)) :
    ev = none ∧ Agrees v' p ∨ ∃ e p', ev = some e ∧ Allowed p e p' ∧ Agrees v' p' := by
  cases ev with
  | none =>
    obtain ⟨rfl, rfl⟩ := hcontinues
    rw [Phase.setLocal_self] at hagrees
    exact Or.inl ⟨rfl, hagrees⟩
  | some e =>
    obtain ⟨hthread, hmove, hpermits, rfl⟩ := hcontinues
    exact Or.inr ⟨e, _, rfl, .thread hthread hmove hpermits, hagrees⟩

/-- While threads work, the processor is active. -/
theorem Agrees.active_of_plain (h : Agrees v p) (hs : v.Sound) (hst : st ∈ v.work w)
    (hout : v.isOut w = false) (hera : ¬ (eraOf st.callback).IsGlobal) : p.global = .active := by
  have hfits := hs.eras w st hst
  have hnone : ∀ w' st', st' ∈ v.work w' → eraOf st'.callback ≠ .entry := by
    intro w' st' hst' heq
    exact hera (Or.inl ((hs.together w w' st st' hst hst').trans heq))
  have hover : ¬ v.isOver := fun hover => by
    have hisOut := (hs.ended hover w).1
    rw [hout] at hisOut
    cases hisOut
  have htaken : v.entryTaken ∧ ¬ v.terminalTaken := by
    cases hst : eraOf st.callback with
    | work =>
      rw [hst] at hfits
      exact ⟨hfits.1, fun hterminal => hfits.2 (hs.terminal hterminal)⟩
    | finalizers =>
      rw [hst] at hfits
      exact ⟨hfits.1, hfits.2.2⟩
    | entry => exact absurd (Or.inl hst) hera
    | terminal => exact absurd (Or.inr hst) hera
  exact h.global.active (h.global.begun htaken.1 htaken.2 hover hnone)

theorem Agrees.open_of_work (h : Agrees v p) (hs : v.Sound) (hst : st ∈ v.work w)
    (hera : eraOf st.callback = .work) : ¬ v.barrierTaken ∧ p.closing = false := by
  have hfits := hs.eras w st hst
  rw [hera] at hfits
  exact ⟨hfits.2, Bool.eq_false_iff.mpr fun hclosing => hfits.2 (h.closing hclosing)⟩

theorem Agrees.work_of_busy (h : Agrees v p) (hbusy : (p.locals w).Busy) :
    ∃ st ∈ v.work w, eraOf st.callback = .work := by
  have hlocal := h.locals w
  have hhead : ∃ st, (v.work w).head? = some st ∧ eraOf st.callback = .work := by
    generalize (v.work w).head? = first, v.isOut w = isOut, v.flags.locals w = flag,
      v.sweeping w = sweeping at hlocal
    generalize p.locals w = y at hlocal hbusy
    cases hlocal with
    | initializing => exact ⟨_, rfl, rfl⟩
    | running => exact ⟨_, rfl, rfl⟩
    | _ => simp [LocalPhase.Busy] at hbusy
  obtain ⟨st, hfirst, hera⟩ := hhead
  exact ⟨st, mem_of_head? hfirst, hera⟩

/-- The turn of a worker in the callbacks of its thread. -/
theorem Agrees.turn_plain (h : Agrees v p) (hs : v.Sound) (hwork : v.work w = st :: rest)
    (hout : v.isOut w = false) {more : List Stage} {f : Flags n} (hturn : Turn w st v.flags more f)
    (hera : ¬ (eraOf st.callback).IsGlobal) :
    ∃ x closing, Continues p w x closing (stageEvent w st : Option (Event n E)) ∧
      (closing = true → v.barrierTaken) ∧
      LocalOk v.barrierTaken (more ++ rest).head? false (f.locals w) (v.sweeping w) x := by
  have hst : st ∈ v.work w := by
    rw [hwork]
    exact List.mem_cons_self
  have hlocal := h.locals w
  rw [hwork, hout, List.head?_cons] at hlocal
  have hlater := hs.later w st rest hwork
  subst hlater
  have hactive := h.active_of_plain hs hst hout hera
  obtain ⟨hsweeping, hloop⟩ := hlocal.inLoop hera
  rw [hsweeping] at hlocal ⊢
  cases hturn with
  | skipInitialize _ | toInitialize _ | markInitialized => exact absurd (Or.inl rfl) hera
  | skipFinalize _ | finalize _ => exact absurd (Or.inr rfl) hera
  | skipThreadInitialize hflag =>
    refine ⟨p.locals w, false, ⟨rfl, rfl⟩, nofun, ?_⟩
    rw [hflag, hloop.1 hflag]
    exact .toRun
  | threadInitialize hflag =>
    obtain ⟨hopen, -⟩ := h.open_of_work hs hst rfl
    refine ⟨p.locals w, false, ⟨rfl, rfl⟩, nofun, ?_⟩
    rw [hflag, (hloop.2 hflag).resolve_right fun hend => hopen hend.2]
    exact .toInitialize
  | markThreadInitialized =>
    refine ⟨p.locals w, false, ⟨rfl, rfl⟩, nofun, ?_⟩
    rw [hloop.2, show (v.flags.setLocal w true).locals w = true by simp [Flags.setLocal]]
    exact .toRun
  | skipThreadFinalize hflag =>
    exact ⟨p.locals w, false, ⟨rfl, rfl⟩, nofun, hlocal.aside trivial trivial⟩
  | threadFinalize hflag =>
    refine ⟨p.locals w, false, ⟨rfl, rfl⟩, nofun, ?_⟩
    rw [hloop.1 hflag, show (v.flags.setLocal w false).locals w = false by simp [Flags.setLocal]]
    exact .toFinalize
  | enter callback =>
    cases callback with
    | globalInitialize => exact absurd (Or.inl rfl) hera
    | globalFinalize => exact absurd (Or.inr rfl) hera
    | threadLocalInitialize =>
      have hclosing := (h.open_of_work hs hst rfl).2
      refine ⟨.initializing, false, ⟨rfl, ?_, ⟨hactive, hclosing⟩, rfl⟩, nofun, ?_⟩
      · rw [hloop.2]
        exact .initialization
      · rw [hloop.1]
        exact .initializing
    | run =>
      have hclosing := (h.open_of_work hs hst rfl).2
      refine ⟨.running, false, ⟨rfl, ?_, ⟨hactive, hclosing⟩, rfl⟩, nofun, ?_⟩
      · rw [hloop.2]
        exact .run
      · rw [hloop.1]
        exact .running
    | threadLocalFinalize =>
      have hbarrier : v.barrierTaken := (hs.eras w _ hst).2.1
      have hquiet : ∀ w', ¬ (p.locals w').Busy := by
        intro w' hbusy
        obtain ⟨st', hst', hwork'⟩ := h.work_of_busy hbusy
        have heq := hs.together w w' _ st' hst hst'
        rw [hwork'] at heq
        cases heq
      refine ⟨.finalizing false, true, ⟨rfl, ?_, Or.inr ⟨hactive, hquiet⟩, rfl⟩,
        fun _ => hbarrier, ?_⟩
      · rw [hloop.2]
        exact .finalize false
      · rw [hloop.1]
        exact .finalizing
  | leave callback =>
    cases callback with
    | globalInitialize => exact absurd (Or.inl rfl) hera
    | globalFinalize => exact absurd (Or.inr rfl) hera
    | threadLocalInitialize =>
      refine ⟨.ready, false, ⟨rfl, ?_, trivial, rfl⟩, nofun, ?_⟩
      · rw [hloop.2]
        exact .initialized
      · rw [hloop.1]
        exact .initialized
    | run =>
      refine ⟨.ready, false, ⟨rfl, ?_, trivial, rfl⟩, nofun, ?_⟩
      · rw [hloop.2]
        exact .ran none
      · rw [hloop.1]
        exact .ready trivial
    | threadLocalFinalize =>
      refine ⟨.finalized, false, ⟨rfl, ?_, trivial, rfl⟩, nofun, ?_⟩
      · rw [hloop.2]
        exact .finalized false none
      · rw [hloop.1]
        exact .finalized trivial (Or.inl (hs.eras w _ hst).2.1)

theorem View.Sound.not_over (hs : v.Sound) (hout : v.isOut w = false) :
    ¬ v.isOver ∧ v.executing = false := by
  have hover : ¬ v.isOver := fun hover => by
    have hisOut := (hs.ended hover w).1
    rw [hout] at hisOut
    cases hisOut
  exact ⟨hover, Bool.eq_false_iff.mpr fun hexecuting => hover (hs.executing hexecuting)⟩

/-- In a callback of the processor as a whole no other worker has anything to do with it. -/
theorem View.Sound.work_of_alone (hs : v.Sound) (hst : st ∈ v.work w)
    (hera : (eraOf st.callback).IsGlobal) {w' : Fin n} (hw : w' ≠ w) : v.work w' = [] := by
  rw [List.eq_nil_iff_forall_not_mem]
  intro st' hst'
  exact hw (hs.alone w w' st st' hst hst' hera).symm

/-- A callback of the processor as a whole gets on. -/
theorem globalAgrees_of_alone {x : GlobalPhase} (hs : v.Sound) (hst : st ∈ v.work w)
    (hout : v.isOut w = false) (hera : (eraOf st.callback).IsGlobal) {stages : List Stage}
    {f : Flags n} (hstage : ∀ st', stages.head? = some st' → GlobalOk false f.global x st')
    (hactive : f.global = true → x = .active)
    (hbegun : ¬ v.terminalTaken → (∀ st' ∈ stages, eraOf st'.callback ≠ .entry) →
      f.global = true)
    (hsettled : f.global = false → (∀ st', stages.head? = some st' → ¬ IsMoving st') → x.Closed)
    (hover : v.terminalTaken → (∀ st' ∈ stages, eraOf st'.callback ≠ .terminal) →
      f.global = false) :
    GlobalAgrees (v.goOn w f stages) x := by
  obtain ⟨hnotOver, hexecuting⟩ := hs.not_over hout
  have hentry : v.entryTaken := by
    have hfits := hs.eras w st hst
    rcases hera with hera | hera <;>
    · rw [hera] at hfits
      exact hfits.1
  have hself : ∀ {P : Stage → Prop}, (∀ w' st', st' ∈ (v.goOn w f stages).work w' → P st') →
      ∀ st' ∈ stages, P st' := by
    intro P hall st' hst'
    exact hall w st' (by rwa [View.goOn_work_self])
  refine ⟨fun huntaken => absurd hentry huntaken, ?_, hactive, ?_, ?_, ?_, ?_⟩
  · intro w' st' hst'
    by_cases hw : w' = w
    · subst hw
      rw [View.goOn_work_self] at hst'
      rw [show (v.goOn w' f stages).isOut w' = false from hout]
      exact hstage st' hst'
    · rw [View.goOn_work_of_ne v hw, hs.work_of_alone hst hera hw] at hst'
      cases hst'
  · intro _ hterminal _ hnone
    exact hbegun hterminal (hself hnone)
  · intro hexecuting'
    rw [show (v.goOn w f stages).executing = false from hexecuting] at hexecuting'
    cases hexecuting'
  · intro hflag _ hmoving
    refine hsettled hflag fun st' hst' hst'' => ?_
    have hisOut := hmoving w st' (by rwa [View.goOn_work_self]) hst''
    rw [show (v.goOn w f stages).isOut w = false from hout] at hisOut
    cases hisOut
  · intro hterminal hnone
    exact hover hterminal (hself hnone)

/-- What the first stage says about the phase of the processor, while its worker is in its
task loop. -/
theorem Agrees.global_of_head (h : Agrees v p) (hwork : v.work w = st :: rest)
    (hout : v.isOut w = false) : GlobalOk false v.flags.global p.global st := by
  rw [← hout]
  exact h.global.stage w st (by rw [hwork, List.head?_cons])

/-- When the processor as a whole is finalised, its threads need no finalization. -/
theorem Agrees.threads_over (h : Agrees v p) (hs : v.Sound) (hst : st ∈ v.work w)
    (hera : eraOf st.callback = .terminal) (w' : Fin n) : (p.locals w').Over := by
  have hterminal : v.terminalTaken := by
    have hfits := hs.eras w st hst
    rw [hera] at hfits
    exact hfits.2
  have hlocal := h.locals w'
  rw [hs.cleared hterminal w'] at hlocal
  have haside : ∀ st', (v.work w').head? = some st' → (eraOf st'.callback).IsGlobal := by
    intro st' hst'
    rw [← hs.together w w' st st' hst (mem_of_head? hst')]
    exact Or.inr hera
  generalize (v.work w').head? = first, v.isOut w' = isOut, v.sweeping w' = sweeping
    at hlocal haside
  generalize p.locals w' = y at hlocal
  cases hlocal with
  | fresh _ => exact Or.inl rfl
  | finalized _ _ => exact Or.inr (Or.inl rfl)
  | sweeping _ => exact Or.inr (Or.inr rfl)
  | _ => simpa [Era.IsGlobal, eraOf, Stage.callback] using haside _ rfl

/-- The turn of a worker in the callbacks of the processor as a whole. -/
theorem Agrees.turn_global (h : Agrees v p) (hs : v.Sound) (hwork : v.work w = st :: rest)
    (hout : v.isOut w = false) {more : List Stage} {f : Flags n} (hturn : Turn w st v.flags more f)
    (hera : (eraOf st.callback).IsGlobal) :
    ∃ x, f.locals = v.flags.locals ∧
      (stageEvent w st = (none : Option (Event n E)) → x = p.global) ∧
      (∀ e : Event n E, stageEvent w st = some e →
        GlobalMove p.global e.callback e.moment x ∧ Permits p e) ∧
      GlobalAgrees (v.goOn w f (more ++ rest)) x := by
  have hst : st ∈ v.work w := by
    rw [hwork]
    exact List.mem_cons_self
  have hglobal := h.global_of_head hwork hout
  have hlater := hs.later w st rest hwork
  subst hlater
  have hfits := hs.eras w st hst
  cases hturn with
  | skipThreadInitialize _ | threadInitialize _ | markThreadInitialized =>
    exact absurd hera not_isGlobal_work
  | skipThreadFinalize _ | threadFinalize _ =>
    exact absurd hera not_isGlobal_finalizers
  | skipInitialize hflag => exact absurd hflag (by simp [hglobal.1])
  | toInitialize hflag =>
    refine ⟨p.global, rfl, fun _ => rfl, nofun,
      globalAgrees_of_alone hs hst hout hera ?_ ?_ ?_ ?_ ?_⟩
    · rintro _ ⟨⟩
      exact hglobal
    · exact h.global.active
    · intro _ hnone
      exact absurd rfl (hnone _ List.mem_cons_self)
    · intro _ hmoving
      exact absurd (Or.inl rfl) (hmoving _ rfl)
    · exact fun _ _ => hflag
  | markInitialized =>
    refine ⟨p.global, rfl, fun _ => rfl, nofun,
      globalAgrees_of_alone hs hst hout hera nofun (fun _ => hglobal.2) (fun _ _ => rfl) nofun ?_⟩
    intro hterminal _
    exact absurd (hs.terminal hterminal) hfits.2
  | skipFinalize hflag =>
    refine ⟨p.global, rfl, fun _ => rfl, nofun,
      globalAgrees_of_alone hs hst hout hera nofun h.global.active ?_ ?_ fun _ _ => hflag⟩
    · intro hterminal
      exact absurd hfits.2 hterminal
    · refine fun _ _ => h.global.settled hflag (hs.not_over hout).2 fun w' st' hst' hmoving => ?_
      by_cases hw : w' = w
      · subst hw
        rw [hwork] at hst'
        cases hst'
        exact hmoving.elim
      · rw [hs.work_of_alone hst hera hw] at hst'
        cases hst'
  | finalize hflag =>
    refine ⟨p.global, rfl, fun _ => rfl, nofun,
      globalAgrees_of_alone hs hst hout hera ?_ nofun ?_ ?_ fun _ _ => rfl⟩
    · rintro _ ⟨⟩
      exact ⟨rfl, h.global.active hflag⟩
    · intro hterminal
      exact absurd hfits.2 hterminal
    · intro _ hmoving
      exact absurd (Or.inr rfl) (hmoving _ rfl)
  | enter callback =>
    cases callback with
    | globalInitialize =>
      refine ⟨.initializing, rfl, nofun, ?_, globalAgrees_of_alone hs hst hout hera ?_ ?_ ?_ ?_ ?_⟩
      · rintro e ⟨⟩
        rw [hglobal.2]
        exact ⟨.initialization, trivial⟩
      · rintro _ ⟨⟩
        exact ⟨hglobal.1, rfl⟩
      · intro hflag
        exact absurd hflag (by simp [hglobal.1])
      · intro _ hnone
        exact absurd rfl (hnone _ List.mem_cons_self)
      · intro _ hmoving
        exact absurd (Or.inl rfl) (hmoving _ rfl)
      · exact fun _ _ => hglobal.1
    | globalFinalize =>
      refine ⟨.finalizing, rfl, nofun, ?_, globalAgrees_of_alone hs hst hout hera ?_ ?_ ?_ ?_ ?_⟩
      · rintro e ⟨⟩
        rw [hglobal.2]
        exact ⟨.finalize, fun w' => h.threads_over hs hst rfl w'⟩
      · rintro _ ⟨⟩
        exact ⟨hglobal.1, rfl⟩
      · intro hflag
        exact absurd hflag (by simp [hglobal.1])
      · intro hterminal
        exact absurd hfits.2 hterminal
      · intro _ hmoving
        exact absurd (Or.inr rfl) (hmoving _ rfl)
      · exact fun _ _ => hglobal.1
    | threadLocalInitialize | run => exact absurd hera not_isGlobal_work
    | threadLocalFinalize =>
      exact absurd hera not_isGlobal_finalizers
  | leave callback =>
    cases callback with
    | globalInitialize =>
      refine ⟨.active, rfl, nofun, ?_, globalAgrees_of_alone hs hst hout hera ?_ ?_ ?_ ?_ ?_⟩
      · rintro e ⟨⟩
        rw [show p.global = .initializing from hglobal.2]
        exact ⟨.initialized, trivial⟩
      · rintro _ ⟨⟩
        exact ⟨hglobal.1, rfl⟩
      · exact fun _ => rfl
      · intro _ hnone
        exact absurd rfl (hnone _ List.mem_cons_self)
      · intro _ hmoving
        exact absurd (Or.inl rfl) (hmoving _ rfl)
      · exact fun _ _ => hglobal.1
    | globalFinalize =>
      refine ⟨.finalized, rfl, nofun, ?_, globalAgrees_of_alone hs hst hout hera nofun ?_ ?_ ?_ ?_⟩
      · rintro e ⟨⟩
        rw [show p.global = .finalizing from hglobal.2]
        exact ⟨.finalized none, trivial⟩
      · intro hflag
        exact absurd hflag (by simp [hglobal.1])
      · intro hterminal
        exact absurd hfits.2 hterminal
      · exact fun _ _ => Or.inr (Or.inr rfl)
      · exact fun _ _ => hglobal.1
    | threadLocalInitialize | run => exact absurd hera not_isGlobal_work
    | threadLocalFinalize =>
      exact absurd hera not_isGlobal_finalizers

theorem era_laterStages : ∀ st' ∈ laterStages st, eraOf st'.callback = eraOf st.callback := by
  unfold laterStages
  split <;> simp [Stage.callback, eraOf]

theorem Agrees.turn (h : Agrees v p) (hs : v.Sound) (hwork : v.work w = st :: rest)
    (hout : v.isOut w = false) {more : List Stage} {f : Flags n}
    (hturn : Turn w st v.flags more f) :
    stageEvent w st = (none : Option (Event n E)) ∧ Agrees (v.goOn w f (more ++ rest)) p ∨
      ∃ (e : Event n E) (p' : Phase n), stageEvent w st = some e ∧ Allowed p e p' ∧
        Agrees (v.goOn w f (more ++ rest)) p' := by
  have hst : st ∈ v.work w := by
    rw [hwork]
    exact List.mem_cons_self
  have hera : ∀ st' ∈ more ++ rest, eraOf st'.callback = eraOf st.callback := by
    intro st' hst'
    rcases List.mem_append.mp hst' with hst' | hst'
    · rw [hturn.callback st' hst']
    · rw [hs.later w st rest hwork] at hst'
      exact era_laterStages st' hst'
  by_cases hglobal : (eraOf st.callback).IsGlobal
  · obtain ⟨x, hlocals, hquiet, hevent, hagrees⟩ :=
      h.turn_global (E := E) hs hwork hout hturn hglobal
    have hthreads : ∀ w', LocalOk v.barrierTaken ((v.goOn w f (more ++ rest)).work w').head?
        (v.isOut w') (f.locals w') (v.sweeping w') (p.locals w') := by
      intro w'
      rw [hlocals]
      by_cases hw : w' = w
      · subst hw
        have hlocal := h.locals w'
        rw [hwork, hout] at hlocal
        rw [View.goOn_work_self, hout]
        refine hlocal.aside (aside_of_global hglobal) ?_
        cases hhead : (more ++ rest).head? with
        | none => trivial
        | some st' =>
          refine aside_of_global ?_
          rw [hera st' (mem_of_head? hhead)]
          exact hglobal
      · rw [View.goOn_work_of_ne v hw]
        exact h.locals w'
    cases hcase : (stageEvent w st : Option (Event n E)) with
    | none =>
      have hx := hquiet hcase
      subst hx
      exact Or.inl ⟨rfl, hthreads, h.closing, hagrees⟩
    | some e =>
      obtain ⟨hmove, hpermits⟩ := hevent e hcase
      exact Or.inr ⟨e, _, rfl, .processor hmove hpermits, hthreads, h.closing, hagrees⟩
  · obtain ⟨x, closing, hcontinues, hclosing, hlocal⟩ :=
      h.turn_plain (E := E) hs hwork hout hturn hglobal
    have hsame : v.SameBut w (v.goOn w f (more ++ rest)) := by
      refine ⟨hturn.global fun hst' => hglobal ?_, fun w' hw => hturn.locals_of_ne hw,
        fun w' hw => View.goOn_work_of_ne v hw f _, fun _ _ => rfl, fun _ _ => rfl, rfl, Iff.rfl,
        Iff.rfl, id, Iff.rfl⟩
      rcases hst' with hst' | hst' <;> rw [hst']
      · exact Or.inl rfl
      · exact Or.inr rfl
    refine hcontinues.agrees (h.of_same hsame ?_ hclosing ?_)
    · rw [View.goOn_work_self, show (v.goOn w f (more ++ rest)).isOut w = false from hout]
      exact hlocal
    · refine h.global.of_same hsame (hs.isPlain hwork hglobal) fun st' hst' => ?_
      rw [View.goOn_work_self] at hst'
      rw [hera st' hst']
      exact hglobal

theorem Agrees.pick (h : Agrees v p) {c : Command} {entryTaken barrierTaken terminalTaken : Prop}
    (hwork : v.work w = []) (hentry : v.entryTaken → entryTaken)
    (hentry' : entryTaken → v.entryTaken ∨ c.Calls .globalInitialize)
    (hfresh : c.Calls .globalInitialize → ¬ v.entryTaken) (hbarrier : v.barrierTaken → barrierTaken)
    (hterminal : v.terminalTaken → terminalTaken)
    (hterminal' : terminalTaken → v.terminalTaken ∨ c.Calls .globalFinalize) :
    Agrees (v.pick w c entryTaken barrierTaken terminalTaken) p := by
  have hself := v.pick_work_self w c entryTaken barrierTaken terminalTaken
  have hother : ∀ {w'}, w' ≠ w → (v.pick w c entryTaken barrierTaken terminalTaken).work w' =
      v.work w' := fun hw => v.pick_work_of_ne hw c entryTaken barrierTaken terminalTaken
  have hmem : ∀ {w' st}, st ∈ v.work w' →
      st ∈ (v.pick w c entryTaken barrierTaken terminalTaken).work w' := by
    intro w' st hst
    have hw : w' ≠ w := by
      rintro rfl
      rw [hwork] at hst
      cases hst
    rwa [hother hw]
  have hhead : ∀ {w' st}, (v.work w').head? = some st →
      ((v.pick w c entryTaken barrierTaken terminalTaken).work w').head? = some st := by
    intro w' st hst
    have hw : w' ≠ w := by
      rintro rfl
      rw [hwork] at hst
      cases hst
    rwa [hother hw]
  refine ⟨fun w' => ?_, fun hclosing => hbarrier (h.closing hclosing), ?_⟩
  · refine LocalOk.mono hbarrier ?_
    by_cases hw : w' = w
    · subst hw
      have hlocal := h.locals w'
      rw [hwork] at hlocal
      rw [hself]
      refine hlocal.aside trivial ?_
      rcases head?_course c with hnone | ⟨callback, hsome, -⟩
      · rw [hnone]
        trivial
      · rw [hsome]
        trivial
    · rw [hother hw]
      exact h.locals w'
  · refine ⟨fun huntaken => h.global.untaken (mt hentry huntaken), fun w' st hst => ?_,
      h.global.active, fun htaken hopen hover hnone => ?_, h.global.executing,
      fun hflag hexecuting hmoving => ?_, fun htaken hnone => ?_⟩
    · by_cases hw : w' = w
      · subst hw
        rw [hself] at hst
        rcases head?_course c with hnone | ⟨callback, hsome, hcalls⟩
        · rw [hnone] at hst
          cases hst
        · rw [hsome] at hst
          cases hst
          cases callback with
          | globalInitialize => exact (h.global.untaken (hfresh hcalls)).symm
          | _ => trivial
      · rw [hother hw] at hst
        exact h.global.stage w' st hst
    · have hcalls : ¬ c.Calls .globalInitialize := by
        intro hcalls
        refine hnone w (.deciding .globalInitialize) ?_ rfl
        rw [hself, show c.course = [.deciding .globalInitialize] by rw [hcalls]; rfl]
        exact List.mem_cons_self
      exact h.global.begun ((hentry' htaken).resolve_right hcalls) (mt hterminal hopen) hover
        fun w' st hst => hnone w' st (hmem hst)
    · refine h.global.settled hflag hexecuting fun w' st hst hst' => ?_
      exact hmoving w' st (hhead hst) hst'
    · have hcalls : ¬ c.Calls .globalFinalize := by
        intro hcalls
        refine hnone w (.deciding .globalFinalize) ?_ rfl
        rw [hself, show c.course = [.deciding .globalFinalize] by rw [hcalls]; rfl]
        exact List.mem_cons_self
      exact h.global.ended ((hterminal' htaken).resolve_right hcalls)
        fun w' st hst => hnone w' st (hmem hst)

theorem LocalOk.withdraw {b : Prop} {first : Option Stage} {flag sweeping : Bool}
    (h : LocalOk b first false flag sweeping x) (hfirst : Aside first false)
    (hfirst' : Aside first true) : LocalOk b first true flag sweeping x := by
  cases h with
  | ready _ => exact .ready hfirst'
  | fresh _ => exact .fresh hfirst'
  | finalized _ _ => exact .finalized hfirst' (Or.inr rfl)
  | _ => simp [Aside, Era.IsGlobal, eraOf, Stage.callback] at hfirst

theorem sameBut_leave (v : View n) (w : Fin n) : v.SameBut w (v.leave w) :=
  ⟨rfl, fun _ _ => rfl, fun _ _ => rfl, fun _ hw => Function.update_of_ne hw .., fun _ _ => rfl,
    rfl, Iff.rfl, Iff.rfl, id, Iff.rfl⟩

theorem sameBut_sweep (v : View n) (w : Fin n) : v.SameBut w (v.sweep w) :=
  ⟨rfl, fun _ hw => Function.update_of_ne hw .., fun _ _ => rfl, fun _ _ => rfl,
    fun _ hw => Function.update_of_ne hw .., rfl, Iff.rfl, Iff.rfl, id, Iff.rfl⟩

theorem sameBut_swept (v : View n) (w : Fin n) : v.SameBut w (v.swept w) :=
  ⟨rfl, fun _ _ => rfl, fun _ _ => rfl, fun _ _ => rfl,
    fun _ hw => Function.update_of_ne hw .., rfl, Iff.rfl, Iff.rfl, id, Iff.rfl⟩

theorem Agrees.withdraw (h : Agrees v p) (hwork : v.work w = []) (hout : v.isOut w = false) :
    Agrees (v.leave w) p := by
  have hplain : v.IsPlain w := by
    intro st hst
    rw [hwork] at hst
    cases hst
  have hlocal := h.locals w
  rw [hwork, hout] at hlocal
  have hagrees : Agrees (v.leave w) (p.setLocal w (p.locals w) false) :=
    h.of_same (sameBut_leave v w) ?_ nofun (h.global.of_same (sameBut_leave v w) hplain hplain)
  · rwa [Phase.setLocal_self] at hagrees
  · rw [show (v.leave w).work w = [] from hwork, View.leave_isOut_self]
    exact hlocal.withdraw trivial trivial

theorem Agrees.throws_plain (h : Agrees v p) (hwork : v.work w = st :: rest)
    (hout : v.isOut w = false) (hst : ∃ callback, st = .deciding callback ∨ st = .inside callback)
    (eptr : E) (hera : ¬ (eraOf st.callback).IsGlobal) :
    ∃ x, Continues p w x false (thrownEvent w eptr st) ∧
      LocalOk v.barrierTaken (some st) true (v.flags.locals w) (v.sweeping w) x := by
  have hlocal := h.locals w
  rw [hwork, hout, List.head?_cons] at hlocal
  obtain ⟨hsweeping, hloop⟩ := hlocal.inLoop hera
  obtain ⟨callback, rfl | rfl⟩ := hst
  · exact ⟨p.locals w, ⟨rfl, rfl⟩, hlocal.withdraw trivial trivial⟩
  · rw [hsweeping]
    cases callback with
    | globalInitialize => exact absurd (Or.inl rfl) hera
    | globalFinalize => exact absurd (Or.inr rfl) hera
    | threadLocalInitialize =>
      refine ⟨.failed, ⟨rfl, ?_, trivial, rfl⟩, ?_⟩
      · rw [hloop.2]
        exact .failed eptr
      · rw [hloop.1]
        exact .failed
    | run =>
      refine ⟨.ready, ⟨rfl, ?_, trivial, rfl⟩, ?_⟩
      · rw [hloop.2]
        exact .ran (some eptr)
      · rw [hloop.1]
        exact .ready trivial
    | threadLocalFinalize =>
      refine ⟨.finalized, ⟨rfl, ?_, trivial, rfl⟩, ?_⟩
      · rw [hloop.2]
        exact .finalized false (some eptr)
      · rw [hloop.1]
        exact .threw

theorem globalAgrees_leave {y x : GlobalPhase} (h : GlobalAgrees v y) (hs : v.Sound)
    (hwork : v.work w = st :: rest) (hout : v.isOut w = false) (hera : (eraOf st.callback).IsGlobal)
    (hstage : GlobalOk true v.flags.global x st) (hactive : v.flags.global = true → x = .active)
    (hclosed : v.flags.global = false → x.Closed) : GlobalAgrees (v.leave w) x := by
  have hmem : st ∈ v.work w := by
    rw [hwork]
    exact List.mem_cons_self
  have hentry : v.entryTaken := by
    have hfits := hs.eras w st hmem
    rcases hera with hera | hera <;>
    · rw [hera] at hfits
      exact hfits.1
  obtain ⟨-, hexecuting⟩ := hs.not_over hout
  refine ⟨fun huntaken => absurd hentry huntaken, fun w' st' hst' => ?_, hactive, h.begun,
    fun hexecuting' => ?_, fun hflag _ _ => hclosed hflag, h.ended⟩
  · by_cases hw : w' = w
    · subst hw
      rw [show (v.leave w').work w' = st :: rest from hwork] at hst'
      cases hst'
      rw [View.leave_isOut_self]
      exact hstage
    · rw [show (v.leave w).work w' = [] from hs.work_of_alone hmem hera hw] at hst'
      cases hst'
  · rw [show (v.leave w).executing = false from hexecuting] at hexecuting'
    cases hexecuting'

/-- A worker leaves its task loop from a callback of the processor as a whole, or before it. -/
theorem Agrees.throws_global (h : Agrees v p) (hs : v.Sound) (hwork : v.work w = st :: rest)
    (hout : v.isOut w = false) (hst : ∃ callback, st = .deciding callback ∨ st = .inside callback)
    (eptr : E) (hera : (eraOf st.callback).IsGlobal) :
    ∃ x, (thrownEvent w eptr st = none → x = p.global) ∧
      (∀ e, thrownEvent w eptr st = some e →
        GlobalMove p.global e.callback e.moment x ∧ Permits p e) ∧
      GlobalAgrees (v.leave w) x := by
  have hmem : st ∈ v.work w := by
    rw [hwork]
    exact List.mem_cons_self
  have hglobal := h.global_of_head hwork hout
  have hleave := fun x => globalAgrees_leave (x := x) h.global hs hwork hout hera
  obtain ⟨callback, rfl | rfl⟩ := hst
  · refine ⟨p.global, fun _ => rfl, nofun, hleave _ ?_ h.global.active fun hflag => ?_⟩
    · cases callback <;> exact hglobal
    · refine h.global.settled hflag (hs.not_over hout).2 fun w' st' hst' hmoving => ?_
      by_cases hw : w' = w
      · subst hw
        rw [hwork] at hst'
        cases hst'
        exact hmoving.elim
      · rw [hs.work_of_alone hmem hera hw] at hst'
        cases hst'
  · cases callback with
    | globalInitialize =>
      refine ⟨.failed, nofun, ?_, hleave _ ⟨hglobal.1, rfl⟩ ?_ fun _ => Or.inr (Or.inl rfl)⟩
      · rintro e ⟨⟩
        rw [show p.global = .initializing from hglobal.2]
        exact ⟨.failed eptr, trivial⟩
      · intro hflag
        exact absurd hflag (by simp [hglobal.1])
    | globalFinalize =>
      refine ⟨.finalized, nofun, ?_, hleave _ ⟨hglobal.1, rfl⟩ ?_ fun _ => Or.inr (Or.inr rfl)⟩
      · rintro e ⟨⟩
        rw [show p.global = .finalizing from hglobal.2]
        exact ⟨.finalized (some eptr), trivial⟩
      · intro hflag
        exact absurd hflag (by simp [hglobal.1])
    | threadLocalInitialize | run => exact absurd hera not_isGlobal_work
    | threadLocalFinalize => exact absurd hera not_isGlobal_finalizers

/-- A worker leaves its task loop with an exception. -/
theorem Agrees.throws (h : Agrees v p) (hs : v.Sound) (hwork : v.work w = st :: rest)
    (hout : v.isOut w = false) (hst : ∃ callback, st = .deciding callback ∨ st = .inside callback)
    (eptr : E) :
    thrownEvent w eptr st = none ∧ Agrees (v.leave w) p ∨
      ∃ e p', thrownEvent w eptr st = some e ∧ Allowed p e p' ∧ Agrees (v.leave w) p' := by
  by_cases hglobal : (eraOf st.callback).IsGlobal
  · obtain ⟨x, hquiet, hevent, hagrees⟩ := h.throws_global hs hwork hout hst eptr hglobal
    have hthreads : ∀ w', LocalOk v.barrierTaken (v.work w').head? ((v.leave w).isOut w')
        (v.flags.locals w') (v.sweeping w') (p.locals w') := by
      intro w'
      by_cases hw : w' = w
      · subst hw
        have hlocal := h.locals w'
        rw [hwork, hout] at hlocal
        rw [View.leave_isOut_self, hwork]
        exact hlocal.withdraw (aside_of_global hglobal) (aside_of_global hglobal)
      · rw [show (v.leave w).isOut w' = v.isOut w' from Function.update_of_ne hw ..]
        exact h.locals w'
    cases hcase : thrownEvent w eptr st with
    | none =>
      have hx := hquiet hcase
      subst hx
      exact Or.inl ⟨rfl, hthreads, h.closing, hagrees⟩
    | some e =>
      obtain ⟨hmove, hpermits⟩ := hevent e hcase
      exact Or.inr ⟨e, _, rfl, .processor hmove hpermits, hthreads, h.closing, hagrees⟩
  · obtain ⟨x, hcontinues, hlocal⟩ := h.throws_plain hwork hout hst eptr hglobal
    have hplain := hs.isPlain hwork hglobal
    refine hcontinues.agrees (h.of_same (sameBut_leave v w) ?_ nofun
      (h.global.of_same (sameBut_leave v w) hplain hplain))
    rw [show (v.leave w).work w = st :: rest from hwork, View.leave_isOut_self]
    exact hlocal

theorem Agrees.sweep (h : Agrees v p) (hout : v.isOut w = true) (hflag : v.flags.locals w = true) :
    ∃ p', Allowed p (⟨some w, .threadLocalFinalize, true, .entered⟩ : Event n E) p' ∧
      Agrees (v.sweep w) p' := by
  have hlocal := h.locals w
  rw [hout, hflag] at hlocal
  have hready : p.locals w = .ready ∧ Aside (v.work w).head? true := by
    generalize (v.work w).head? = first, v.sweeping w = sweeping, p.locals w = y at hlocal
    cases hlocal with
    | ready haside => exact ⟨rfl, haside⟩
  refine ⟨p.setLocal w (.finalizing true) false,
    .thread rfl (by rw [hready.1]; exact .finalize true) (Or.inl rfl), ?_⟩
  refine h.of_same (sameBut_sweep v w) ?_ nofun
    ⟨h.global.untaken, h.global.stage, h.global.active, h.global.begun, h.global.executing,
      h.global.settled, h.global.ended⟩
  rw [View.sweep_locals_self, View.sweep_sweeping_self, show (v.sweep w).isOut w = true from hout]
  exact .sweeping hready.2

theorem Agrees.swept (h : Agrees v p) (hsweeping : v.sweeping w = true) (thrown : Option E) :
    ∃ p', Allowed p (⟨some w, .threadLocalFinalize, true, .left thrown⟩ : Event n E) p' ∧
      Agrees (v.swept w) p' := by
  have hlocal := h.locals w
  rw [hsweeping] at hlocal
  have hphase : p.locals w = .finalizing true ∧ v.isOut w = true ∧ v.flags.locals w = false ∧
      Aside (v.work w).head? true := by
    generalize (v.work w).head? = first, v.isOut w = isOut, v.flags.locals w = flag,
      p.locals w = y at hlocal
    cases hlocal with
    | sweeping haside => exact ⟨rfl, rfl, rfl, haside⟩
  obtain ⟨hphase, hout, hflag, haside⟩ := hphase
  refine ⟨p.setLocal w .finalized false,
    .thread rfl (by rw [hphase]; exact .finalized true thrown) trivial, ?_⟩
  refine h.of_same (sameBut_swept v w) ?_ nofun
    ⟨h.global.untaken, h.global.stage, h.global.active, h.global.begun, h.global.executing,
      h.global.settled, h.global.ended⟩
  rw [View.swept_sweeping_self, show (v.swept w).isOut w = true from hout,
    show (v.swept w).flags.locals w = false from hflag]
  exact .finalized haside (Or.inr rfl)

/-- When the executor has joined the workers, the threads are through with the processor. -/
theorem Agrees.threads_closed (h : Agrees v p) (hs : v.Sound) (hover : v.isOver) (w : Fin n) :
    (p.locals w).Closed := by
  obtain ⟨hout, hflag, hsweeping⟩ := hs.ended hover w
  have hlocal := h.locals w
  rw [hout, hflag, hsweeping] at hlocal
  generalize (v.work w).head? = first, p.locals w = y at hlocal
  cases hlocal with
  | fresh _ => exact Or.inl rfl
  | failed => exact Or.inr (Or.inl rfl)
  | threw | finalized _ _ => exact Or.inr (Or.inr rfl)

/-- A phase that only a stage without its own meaning allows. -/
theorem globalOk_other {flag flag' isOut isOut' : Bool} {x y : GlobalPhase}
    (h : GlobalOk isOut flag x st)
    (hne : flag = true ∨ x = .finalizing ∧ isOut = true) : GlobalOk isOut' flag' y st := by
  unfold GlobalOk at h ⊢
  rcases hne with rfl | ⟨rfl, rfl⟩ <;> split at h <;> simp at h ⊢

theorem Agrees.finalize (h : Agrees v p) (hs : v.Sound) (hover : v.isOver)
    (hflag : v.flags.global = true) :
    ∃ p', Allowed p (⟨none, .globalFinalize, true, .entered⟩ : Event n E) p' ∧
      Agrees v.finalize p' := by
  refine ⟨p.setGlobal .finalizing, .processor ?_ ?_, h.locals, h.closing, ?_⟩
  · rw [h.global.active hflag]
    exact .finalize
  · exact fun w => h.threads_closed hs hover w
  · refine ⟨fun huntaken => ?_, fun w st hst => globalOk_other (h.global.stage w st hst) (Or.inl hflag),
      nofun, fun _ _ hnot => absurd hover hnot, fun _ => ⟨rfl, rfl⟩, nofun, fun _ _ => rfl⟩
    have hfalse := (h.global.untaken huntaken).2
    rw [hflag] at hfalse
    cases hfalse

theorem Agrees.finalized (h : Agrees v p) (hs : v.Sound) (hexecuting : v.executing = true)
    (thrown : Option E) :
    ∃ p', Allowed p (⟨none, .globalFinalize, true, .left thrown⟩ : Event n E) p' ∧
      Agrees v.finalized p' := by
  have hover := hs.executing hexecuting
  obtain ⟨hphase, hflag⟩ := h.global.executing hexecuting
  refine ⟨p.setGlobal .finalized, .processor ?_ trivial, h.locals, h.closing, ?_⟩
  · rw [hphase]
    exact .finalized thrown
  · refine ⟨fun huntaken => ?_, fun w st hst => globalOk_other (h.global.stage w st hst) ?_,
      fun hset => ?_, fun _ _ hnot => absurd hover hnot, nofun,
      fun _ _ _ => Or.inr (Or.inr rfl), h.global.ended⟩
    · have hfresh := (h.global.untaken huntaken).1
      rw [hphase] at hfresh
      cases hfresh
    · exact Or.inr ⟨hphase, (hs.ended hover w).1⟩
    · rw [show v.finalized.flags.global = false from hflag] at hset
      cases hset

/-- Whatever happens to a processor, it is an event that the monitor allows, or none. -/
theorem Agrees.step {ev : Option (Event n E)} (h : Agrees v p) (hs : v.Sound)
    (hstep : View.Step v ev v') :
    ev = none ∧ Agrees v' p ∨ ∃ e p', ev = some e ∧ Allowed p e p' ∧ Agrees v' p' := by
  cases hstep with
  | turn hwork hout hturn => exact h.turn hs hwork hout hturn
  | pick hwork _ hentry hentry' hfresh hbarrier hterminal hterminal' =>
    exact Or.inl ⟨rfl, h.pick hwork hentry hentry' hfresh hbarrier hterminal hterminal'⟩
  | withdraw hwork hout => exact Or.inl ⟨rfl, h.withdraw hwork hout⟩
  | throws eptr hwork hout hst => exact h.throws hs hwork hout hst eptr
  | sweep hout hflag =>
    obtain ⟨p', hallowed, hagrees⟩ := h.sweep hout hflag
    exact Or.inr ⟨_, p', rfl, hallowed, hagrees⟩
  | swept thrown hsweeping =>
    obtain ⟨p', hallowed, hagrees⟩ := h.swept hsweeping thrown
    exact Or.inr ⟨_, p', rfl, hallowed, hagrees⟩
  | finalize hover hflag =>
    obtain ⟨p', hallowed, hagrees⟩ := h.finalize hs hover hflag
    exact Or.inr ⟨_, p', rfl, hallowed, hagrees⟩
  | finalized thrown hexecuting =>
    obtain ⟨p', hallowed, hagrees⟩ := h.finalized hs hexecuting thrown
    exact Or.inr ⟨_, p', rfl, hallowed, hagrees⟩
  | finish hmono =>
    refine Or.inl ⟨rfl, h.locals, h.closing, h.global.untaken, h.global.stage, h.global.active,
      fun hentry hterminal hover => ?_, h.global.executing, h.global.settled, h.global.ended⟩
    exact h.global.begun hentry hterminal (mt hmono hover)

/-- When the executor is through, the processor is closed. -/
theorem Agrees.closed (h : Agrees v p) (hs : v.Sound) (hover : v.isOver)
    (hexecuting : v.executing = false) (hflag : v.flags.global = false) : p.Closed := by
  refine ⟨h.global.settled hflag hexecuting fun w _ _ _ => (hs.ended hover w).1, fun w => ?_⟩
  exact h.threads_closed hs hover w

end Agreement

end M3bp.Lifecycle
