import M3bp.Engine
import M3bp.Monitor

/-!
What a processor may rely on: the order in which its callbacks are entered and left, on
any number of threads and with any of them throwing. The monitor of this module states it;
it knows nothing of tasks, queues or graphs.
-/
namespace M3bp.Lifecycle

open Engine

variable {n : ℕ} {E : Type}

/-- A callback is entered; later it is left, by a return or by an exception. -/
inductive Moment (E : Type)
  | entered
  | left (thrown : Option E)
  deriving DecidableEq, Repr

/-- `thread` is a worker, or `none` for the thread that executes the graph; `isCancelled`
is what the callback reads from its task object. -/
structure Event (n : ℕ) (E : Type) where
  thread : Option (Fin n)
  callback : Callback
  isCancelled : Bool
  moment : Moment E
  deriving DecidableEq, Repr

inductive GlobalPhase
  | fresh
  | initializing
  | failed
  | active
  | finalizing
  | finalized
  deriving DecidableEq, Repr

/-- A processor on one thread. -/
inductive LocalPhase
  | fresh
  | initializing
  | failed
  | ready
  | running
  | finalizing (isCancelled : Bool)
  | finalized
  deriving DecidableEq, Repr

/-- `closing` is set by the first finalization of a thread that belongs to a normal end. -/
structure Phase (n : ℕ) where
  global : GlobalPhase
  locals : Fin n → LocalPhase
  closing : Bool

namespace LocalPhase

/-- The thread is inside a callback of the processor's work. -/
def Busy (x : LocalPhase) : Prop := x = .initializing ∨ x = .running

/-- The thread needs no finalization, or it sees to that itself because of a cancellation. -/
def Over (x : LocalPhase) : Prop := x = .fresh ∨ x = .finalized ∨ x = .finalizing true

/-- The thread is out of all callbacks and needs no finalization. -/
def Closed (x : LocalPhase) : Prop := x = .fresh ∨ x = .failed ∨ x = .finalized

end LocalPhase

/-- No callback is in progress and nothing is left to be finalised. -/
def GlobalPhase.Closed (x : GlobalPhase) : Prop := x = .fresh ∨ x = .failed ∨ x = .finalized

namespace Phase

def fresh : Phase n := { global := .fresh, locals := fun _ => .fresh, closing := false }

def setGlobal (p : Phase n) (x : GlobalPhase) : Phase n := { p with global := x }

def setLocal (p : Phase n) (w : Fin n) (x : LocalPhase) (closing : Bool) : Phase n :=
  { p with locals := Function.update p.locals w x, closing := p.closing || closing }

structure Closed (p : Phase n) : Prop where
  global : p.global.Closed
  locals : ∀ w, (p.locals w).Closed

end Phase

/-- The processor's own two callbacks. -/
inductive GlobalMove : GlobalPhase → Callback → Moment E → GlobalPhase → Prop
  | initialization : GlobalMove .fresh .globalInitialize .entered .initializing
  | initialized : GlobalMove .initializing .globalInitialize (.left none) .active
  | failed (eptr : E) : GlobalMove .initializing .globalInitialize (.left (some eptr)) .failed
  | finalize : GlobalMove .active .globalFinalize .entered .finalizing
  | finalized (thrown : Option E) : GlobalMove .finalizing .globalFinalize (.left thrown) .finalized

/-- The callbacks of one thread. -/
inductive LocalMove : LocalPhase → Callback → Bool → Moment E → LocalPhase → Prop
  | initialization : LocalMove .fresh .threadLocalInitialize false .entered .initializing
  | initialized : LocalMove .initializing .threadLocalInitialize false (.left none) .ready
  | failed (eptr : E) :
      LocalMove .initializing .threadLocalInitialize false (.left (some eptr)) .failed
  | run : LocalMove .ready .run false .entered .running
  | ran (thrown : Option E) : LocalMove .running .run false (.left thrown) .ready
  | finalize (isCancelled : Bool) :
      LocalMove .ready .threadLocalFinalize isCancelled .entered (.finalizing isCancelled)
  | finalized (isCancelled : Bool) (thrown : Option E) :
      LocalMove (.finalizing isCancelled) .threadLocalFinalize isCancelled (.left thrown) .finalized

theorem LocalMove.run_inv {x x' : LocalPhase} {callback : Callback} {isCancelled : Bool}
    {moment : Moment E} (h : LocalMove x callback isCancelled moment x') (hcallback : callback = .run)
    (hmoment : moment = .entered) : x = .ready := by
  subst hcallback hmoment
  cases h
  rfl

theorem GlobalMove.ne_run {x x' : GlobalPhase} {callback : Callback} {moment : Moment E}
    (h : GlobalMove x callback moment x') : callback ≠ .run := by
  cases h <;> simp

/-- What a callback needs of the processor and of the other threads when it is entered. A
cancelled thread finalises on its own. -/
def Permits (p : Phase n) (e : Event n E) : Prop :=
  match e.moment, e.callback with
  | .entered, .threadLocalInitialize | .entered, .run => p.global = .active ∧ p.closing = false
  | .entered, .threadLocalFinalize =>
    e.isCancelled = true ∨ p.global = .active ∧ ∀ w, ¬ (p.locals w).Busy
  | .entered, .globalFinalize =>
    ∀ w, if e.isCancelled then (p.locals w).Closed else (p.locals w).Over
  | _, _ => True

/-- A finalization of a thread that belongs to a normal end. -/
def Event.closes (e : Event n E) : Bool :=
  !e.isCancelled &&
    match e.moment, e.callback with
    | .entered, .threadLocalFinalize => true
    | _, _ => false

theorem GlobalMove.not_closes {e : Event n E} {x x' : GlobalPhase}
    (h : GlobalMove x e.callback e.moment x') : e.closes = false := by
  obtain ⟨thread, callback, isCancelled, moment⟩ := e
  cases h <;> simp [Event.closes]

inductive Allowed (p : Phase n) (e : Event n E) : Phase n → Prop
  | processor {x : GlobalPhase} : GlobalMove p.global e.callback e.moment x → Permits p e →
      Allowed p e (p.setGlobal x)
  | thread {w : Fin n} {x : LocalPhase} : e.thread = some w →
      LocalMove (p.locals w) e.callback e.isCancelled e.moment x → Permits p e →
      Allowed p e (p.setLocal w x e.closes)

def monitor (n : ℕ) (E : Type) : Monitor (Phase n) (Event n E) :=
  { start := .fresh, allowed := Allowed }

/-! Reading a log. -/

namespace Event

variable (e : Event n E)

def isOn (w : Fin n) : Bool := e.thread = some w

def isOf (callback : Callback) : Bool := e.callback = callback

def enters : Bool :=
  match e.moment with
  | .entered => true
  | .left _ => false

def leaves : Bool := !e.enters

/-- The callback has come to its normal end. -/
def returns : Bool :=
  match e.moment with
  | .left none => true
  | _ => false

end Event

section Counts

variable (log : List (Event n E)) (w : Fin n) (callback : Callback)

def entered : ℕ := log.countP fun e => e.enters && e.isOf callback

def returned : ℕ := log.countP fun e => e.returns && e.isOf callback

def enteredOn : ℕ := log.countP fun e => e.enters && e.isOf callback && e.isOn w

def leftOn : ℕ := log.countP fun e => e.leaves && e.isOf callback && e.isOn w

def returnedOn : ℕ := log.countP fun e => e.returns && e.isOf callback && e.isOn w

/-- The finalizations of threads that belong to a normal end. -/
def closings : ℕ := log.countP Event.closes

end Counts

/-- What the log of a processor says. Everything that has been initialised is finalised
once at most, and only then; the work of a thread lies between; a processor is finalised
when its threads have been. -/
structure Bracketed (log : List (Event n E)) : Prop where
  global : entered log .globalInitialize ≤ 1 ∧
    entered log .globalFinalize ≤ returned log .globalInitialize
  locals : ∀ w, enteredOn log w .threadLocalInitialize ≤ 1 ∧
    enteredOn log w .threadLocalFinalize ≤ returnedOn log w .threadLocalInitialize
  work : ∀ new e old w, log = new ++ e :: old → e.enters = true → e.isOn w = true →
    e.isOf .threadLocalInitialize = true ∨ e.isOf .run = true →
    returned old .globalInitialize = 1 ∧ entered old .globalFinalize = 0 ∧ closings old = 0
  run : ∀ new e old w, log = new ++ e :: old → e.enters = true → e.isOn w = true →
    e.isOf .run = true →
    returnedOn old w .threadLocalInitialize = 1 ∧ enteredOn old w .threadLocalFinalize = 0 ∧
      enteredOn old w .run = leftOn old w .run
  closing : ∀ new e old, log = new ++ e :: old → e.closes = true → ∀ w,
    enteredOn old w .threadLocalInitialize = leftOn old w .threadLocalInitialize ∧
      enteredOn old w .run = leftOn old w .run
  ending : ∀ new e old, log = new ++ e :: old → e.enters = true → e.isOf .globalFinalize = true →
    ∀ w, enteredOn old w .threadLocalInitialize = leftOn old w .threadLocalInitialize ∧
      enteredOn old w .threadLocalFinalize = returnedOn old w .threadLocalInitialize ∧
      enteredOn old w .run = leftOn old w .run ∧
      (e.isCancelled = true →
        enteredOn old w .threadLocalFinalize = leftOn old w .threadLocalFinalize)

/-! What the phases say about the log. -/

namespace GlobalPhase

def begun : GlobalPhase → ℕ
  | fresh => 0
  | _ => 1

def made : GlobalPhase → ℕ
  | active | finalizing | finalized => 1
  | _ => 0

def ended : GlobalPhase → ℕ
  | finalizing | finalized => 1
  | _ => 0

end GlobalPhase

namespace LocalPhase

def begun : LocalPhase → ℕ
  | fresh => 0
  | _ => 1

def isInitializing : LocalPhase → ℕ
  | initializing => 1
  | _ => 0

def made : LocalPhase → ℕ
  | ready | running | finalizing _ | finalized => 1
  | _ => 0

def isRunning : LocalPhase → ℕ
  | running => 1
  | _ => 0

def ended : LocalPhase → ℕ
  | finalizing _ | finalized => 1
  | _ => 0

def isFinalizing : LocalPhase → ℕ
  | finalizing _ => 1
  | _ => 0

end LocalPhase

section Tally

variable {log : List (Event n E)} {p : Phase n}

/-- A balance of the processor's own callbacks. -/
theorem processor_balance (held : GlobalPhase → ℕ) (credit : Event n E → Bool)
    (hmove : ∀ (e : Event n E) x x', GlobalMove x e.callback e.moment x' →
      held x' = held x + (credit e).toNat)
    (hother : ∀ (e : Event n E) x x', LocalMove x e.callback e.isCancelled e.moment x' →
      credit e = false)
    (h : (monitor n E).Accepts log p) :
    held p.global = held .fresh + log.countP credit := by
  have hbalance := h.balance (fun p => held p.global) credit (fun _ => false) ?_
  · simpa [monitor, Phase.fresh] using hbalance
  · intro p e p' hallowed
    cases hallowed with
    | processor hstep _ => simpa [Phase.setGlobal] using hmove e _ _ hstep
    | thread _ hstep _ => simp [Phase.setLocal, hother e _ _ hstep]

/-- A balance of the callbacks of one thread. -/
theorem thread_balance (w : Fin n) (held : LocalPhase → ℕ) (credit debit : Event n E → Bool)
    (hmove : ∀ (e : Event n E) x x', LocalMove x e.callback e.isCancelled e.moment x' →
      held x' + (debit e).toNat = held x + (credit e).toNat)
    (hother : ∀ (e : Event n E) x x', GlobalMove x e.callback e.moment x' →
      credit e = false ∧ debit e = false)
    (h : (monitor n E).Accepts log p) :
    held (p.locals w) + log.countP (fun e => debit e && e.isOn w) =
      held .fresh + log.countP (fun e => credit e && e.isOn w) := by
  refine h.balance (fun p => held (p.locals w)) _ _ ?_
  intro p e p' hallowed
  cases hallowed with
  | processor hstep _ =>
    obtain ⟨hcredit, hdebit⟩ := hother e _ _ hstep
    simp [Phase.setGlobal, hcredit, hdebit]
  | @thread v x hthread hstep _ =>
    by_cases hv : w = v
    · subst hv
      have hon : e.isOn w = true := by simp [Event.isOn, hthread]
      simpa [Phase.setLocal, hon] using hmove e _ _ hstep
    · have hon : e.isOn w = false := by simpa [Event.isOn, hthread] using Ne.symm hv
      simp [Phase.setLocal, hon, hv]

theorem entered_globalInitialize (h : (monitor n E).Accepts log p) :
    entered log .globalInitialize = p.global.begun := by
  have hbalance := processor_balance GlobalPhase.begun
    (fun e => e.enters && e.isOf .globalInitialize) ?_ ?_ h
  · rw [hbalance]
    exact (Nat.zero_add _).symm
  · rintro ⟨_, _, _, _⟩ x x' (_ | _ | _ | _ | _) <;> rfl
  · rintro ⟨_, _, _, _⟩ x x' (_ | _ | _ | _ | _ | _ | _) <;> rfl

theorem returned_globalInitialize (h : (monitor n E).Accepts log p) :
    returned log .globalInitialize = p.global.made := by
  have hbalance := processor_balance GlobalPhase.made
    (fun e => e.returns && e.isOf .globalInitialize) ?_ ?_ h
  · rw [hbalance]
    exact (Nat.zero_add _).symm
  · rintro ⟨_, _, _, _⟩ x x' (_ | _ | _ | _ | (_ | _)) <;> rfl
  · rintro ⟨_, _, _, _⟩ x x' (_ | _ | _ | _ | (_ | _) | _ | ⟨_, (_ | _)⟩) <;> rfl

theorem entered_globalFinalize (h : (monitor n E).Accepts log p) :
    entered log .globalFinalize = p.global.ended := by
  have hbalance := processor_balance GlobalPhase.ended
    (fun e => e.enters && e.isOf .globalFinalize) ?_ ?_ h
  · rw [hbalance]
    exact (Nat.zero_add _).symm
  · rintro ⟨_, _, _, _⟩ x x' (_ | _ | _ | _ | _) <;> rfl
  · rintro ⟨_, _, _, _⟩ x x' (_ | _ | _ | _ | _ | _ | _) <;> rfl

theorem enteredOn_threadLocalInitialize (w : Fin n) (h : (monitor n E).Accepts log p) :
    enteredOn log w .threadLocalInitialize = (p.locals w).begun := by
  have hbalance := thread_balance w LocalPhase.begun
    (fun e => e.enters && e.isOf .threadLocalInitialize) (fun _ => false) ?_ ?_ h
  · simpa [LocalPhase.begun, enteredOn] using hbalance.symm
  · rintro ⟨_, _, _, _⟩ x x' (_ | _ | _ | _ | _ | _ | _) <;> rfl
  · rintro ⟨_, _, _, _⟩ x x' (_ | _ | _ | _ | _) <;> exact ⟨rfl, rfl⟩

theorem returnedOn_threadLocalInitialize (w : Fin n) (h : (monitor n E).Accepts log p) :
    returnedOn log w .threadLocalInitialize = (p.locals w).made := by
  have hbalance := thread_balance w LocalPhase.made
    (fun e => e.returns && e.isOf .threadLocalInitialize) (fun _ => false) ?_ ?_ h
  · simpa [LocalPhase.made, returnedOn] using hbalance.symm
  · rintro ⟨_, _, _, _⟩ x x' (_ | _ | _ | _ | (_ | _) | _ | ⟨_, (_ | _)⟩) <;> rfl
  · rintro ⟨_, _, _, _⟩ x x' (_ | _ | _ | _ | (_ | _)) <;> exact ⟨rfl, rfl⟩

theorem leftOn_threadLocalInitialize (w : Fin n) (h : (monitor n E).Accepts log p) :
    (p.locals w).isInitializing + leftOn log w .threadLocalInitialize =
      enteredOn log w .threadLocalInitialize := by
  have hbalance := thread_balance w LocalPhase.isInitializing
    (fun e => e.enters && e.isOf .threadLocalInitialize)
    (fun e => e.leaves && e.isOf .threadLocalInitialize) ?_ ?_ h
  · exact hbalance.trans (Nat.zero_add _)
  · rintro ⟨_, _, _, _⟩ x x' (_ | _ | _ | _ | _ | _ | _) <;> rfl
  · rintro ⟨_, _, _, _⟩ x x' (_ | _ | _ | _ | _) <;> exact ⟨rfl, rfl⟩

theorem leftOn_run (w : Fin n) (h : (monitor n E).Accepts log p) :
    (p.locals w).isRunning + leftOn log w .run = enteredOn log w .run := by
  have hbalance := thread_balance w LocalPhase.isRunning
    (fun e => e.enters && e.isOf .run) (fun e => e.leaves && e.isOf .run) ?_ ?_ h
  · exact hbalance.trans (Nat.zero_add _)
  · rintro ⟨_, _, _, _⟩ x x' (_ | _ | _ | _ | _ | _ | _) <;> rfl
  · rintro ⟨_, _, _, _⟩ x x' (_ | _ | _ | _ | _) <;> exact ⟨rfl, rfl⟩

theorem enteredOn_threadLocalFinalize (w : Fin n) (h : (monitor n E).Accepts log p) :
    enteredOn log w .threadLocalFinalize = (p.locals w).ended := by
  have hbalance := thread_balance w LocalPhase.ended
    (fun e => e.enters && e.isOf .threadLocalFinalize) (fun _ => false) ?_ ?_ h
  · simpa [LocalPhase.ended, enteredOn] using hbalance.symm
  · rintro ⟨_, _, _, _⟩ x x' (_ | _ | _ | _ | _ | _ | _) <;> rfl
  · rintro ⟨_, _, _, _⟩ x x' (_ | _ | _ | _ | _) <;> exact ⟨rfl, rfl⟩

theorem leftOn_threadLocalFinalize (w : Fin n) (h : (monitor n E).Accepts log p) :
    (p.locals w).isFinalizing + leftOn log w .threadLocalFinalize =
      enteredOn log w .threadLocalFinalize := by
  have hbalance := thread_balance w LocalPhase.isFinalizing
    (fun e => e.enters && e.isOf .threadLocalFinalize)
    (fun e => e.leaves && e.isOf .threadLocalFinalize) ?_ ?_ h
  · exact hbalance.trans (Nat.zero_add _)
  · rintro ⟨_, _, _, _⟩ x x' (_ | _ | _ | _ | _ | _ | _) <;> rfl
  · rintro ⟨_, _, _, _⟩ x x' (_ | _ | _ | _ | _) <;> exact ⟨rfl, rfl⟩

theorem closings_of_open (h : (monitor n E).Accepts log p) (hopen : p.closing = false) :
    closings log = 0 := by
  refine h.invariant (P := fun log p => p.closing = false → closings log = 0)
    (fun _ => rfl) ?_ hopen
  intro log p e p' hallowed hold hopen'
  have hquiet : e.closes = false ∧ p.closing = false := by
    cases hallowed with
    | processor hstep _ =>
      refine ⟨hstep.not_closes, hopen'⟩
    | thread _ _ _ =>
      simp only [Phase.setLocal, Bool.or_eq_false_iff] at hopen'
      exact hopen'.symm
  rw [closings, List.countP_cons, hquiet.1]
  exact hold hquiet.2

/-! What an event that was allowed says about the phase before it. -/

variable {e : Event n E} {p' : Phase n} {w : Fin n}

theorem Allowed.permits (h : Allowed p e p') : Permits p e := by
  cases h with
  | processor _ hpermits => exact hpermits
  | thread _ _ hpermits => exact hpermits

theorem eq_entered_of_enters (h : e.enters = true) : e.moment = .entered := by
  unfold Event.enters at h
  split at h
  · assumption
  · cases h

/-- A thread that begins to run is ready. -/
theorem Allowed.ready_of_run (h : Allowed p e p') (henters : e.enters = true)
    (hon : e.isOn w = true) (hof : e.isOf .run = true) : p.locals w = .ready := by
  have hcallback : e.callback = .run := of_decide_eq_true hof
  have hthread : e.thread = some w := of_decide_eq_true hon
  cases h with
  | processor hstep _ => exact absurd hcallback hstep.ne_run
  | @thread v x hthread' hstep _ =>
    rw [hthread, Option.some.injEq] at hthread'
    subst hthread'
    exact hstep.run_inv hcallback (eq_entered_of_enters henters)

theorem LocalPhase.ended_le_made (x : LocalPhase) : x.ended ≤ x.made := by
  cases x <;> simp [LocalPhase.ended, LocalPhase.made]

theorem GlobalPhase.ended_le_made (x : GlobalPhase) : x.ended ≤ x.made := by
  cases x <;> simp [GlobalPhase.ended, GlobalPhase.made]

/-- Every log that the monitor accepts is bracketed. -/
theorem bracketed_of_accepts (h : (monitor n E).Accepts log p) : Bracketed log := by
  refine ⟨⟨?_, ?_⟩, fun w => ⟨?_, ?_⟩, ?_, ?_, ?_, ?_⟩
  · rw [entered_globalInitialize h]
    cases p.global <;> simp [GlobalPhase.begun]
  · rw [entered_globalFinalize h, returned_globalInitialize h]
    exact p.global.ended_le_made
  · rw [enteredOn_threadLocalInitialize w h]
    cases p.locals w <;> simp [LocalPhase.begun]
  · rw [enteredOn_threadLocalFinalize w h, returnedOn_threadLocalInitialize w h]
    exact (p.locals w).ended_le_made
  · rintro new e old w rfl henters hon hwork
    obtain ⟨q, q', hold, hallowed⟩ := h.allowed_of_append
    have hpermits := Allowed.permits hallowed
    have hactive : q.global = .active ∧ q.closing = false := by
      rcases hwork with hof | hof <;>
      · have hcallback := of_decide_eq_true hof
        simpa [Permits, eq_entered_of_enters henters, hcallback] using hpermits
    rw [returned_globalInitialize hold, entered_globalFinalize hold, hactive.1]
    exact ⟨rfl, rfl, closings_of_open hold hactive.2⟩
  · rintro new e old w rfl henters hon hof
    obtain ⟨q, q', hold, hallowed⟩ := h.allowed_of_append
    have hready := Allowed.ready_of_run hallowed henters hon hof
    have hrun := leftOn_run w hold
    rw [returnedOn_threadLocalInitialize w hold, enteredOn_threadLocalFinalize w hold]
    rw [hready] at hrun ⊢
    exact ⟨rfl, rfl, by simpa [LocalPhase.isRunning] using hrun.symm⟩
  · rintro new e old rfl hcloses w
    obtain ⟨q, q', hold, hallowed⟩ := h.allowed_of_append
    have hpermits := Allowed.permits hallowed
    have hbusy : ¬ (q.locals w).Busy := by
      obtain ⟨thread, callback, isCancelled, moment⟩ := e
      cases moment <;> cases callback <;> cases isCancelled <;>
        simp [Event.closes, Permits] at hcloses hpermits
      exact hpermits.2 w
    have hinit := leftOn_threadLocalInitialize w hold
    have hrun := leftOn_run w hold
    generalize q.locals w = x at hbusy hinit hrun
    cases x <;> simp [LocalPhase.Busy] at hbusy <;>
      simp [LocalPhase.isInitializing, LocalPhase.isRunning] at hinit hrun <;>
      exact ⟨hinit.symm, hrun.symm⟩
  · rintro new e old rfl henters hof w
    obtain ⟨q, q', hold, hallowed⟩ := h.allowed_of_append
    have hpermits := Allowed.permits hallowed
    have hcallback := of_decide_eq_true hof
    simp only [Permits, eq_entered_of_enters henters, hcallback] at hpermits
    have hphase := hpermits w
    have hinit := leftOn_threadLocalInitialize w hold
    have hrun := leftOn_run w hold
    have hleft := leftOn_threadLocalFinalize w hold
    rw [enteredOn_threadLocalFinalize w hold] at hleft ⊢
    rw [returnedOn_threadLocalInitialize w hold]
    generalize q.locals w = x at hphase hinit hrun hleft ⊢
    cases hcancelled : e.isCancelled with
    | true =>
      rw [hcancelled, if_pos rfl] at hphase
      rcases hphase with rfl | rfl | rfl <;>
        simpa [LocalPhase.isInitializing, LocalPhase.isRunning, LocalPhase.isFinalizing,
          LocalPhase.ended, LocalPhase.made, eq_comm] using And.intro hinit (And.intro hrun hleft)
    | false =>
      rw [hcancelled, if_neg (by simp)] at hphase
      rcases hphase with rfl | rfl | rfl <;>
        simpa [LocalPhase.isInitializing, LocalPhase.isRunning, LocalPhase.ended, LocalPhase.made,
          eq_comm] using And.intro hinit hrun

/-- In the end everything that has been initialised has been finalised once. -/
theorem finalized_of_closed (h : (monitor n E).Accepts log p) (hclosed : p.Closed) :
    entered log .globalFinalize = returned log .globalInitialize ∧
      ∀ w, enteredOn log w .threadLocalFinalize = returnedOn log w .threadLocalInitialize ∧
        leftOn log w .threadLocalFinalize = enteredOn log w .threadLocalFinalize := by
  rw [entered_globalFinalize h, returned_globalInitialize h]
  refine ⟨?_, fun w => ?_⟩
  · rcases hclosed.global with hx | hx | hx <;> rw [hx] <;> rfl
  · have hleft := leftOn_threadLocalFinalize w h
    rw [enteredOn_threadLocalFinalize w h] at hleft ⊢
    rw [returnedOn_threadLocalInitialize w h]
    rcases hclosed.locals w with hx | hx | hx <;> rw [hx] at hleft ⊢ <;>
      exact ⟨rfl, by simpa [LocalPhase.isFinalizing] using hleft⟩

end Tally

end M3bp.Lifecycle
