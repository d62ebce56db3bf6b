import M3bp.WorkerThread
import Mathlib.Tactic

/-!
Thread observers are bracketed. A thread calls `on_initialize` along its list up to the
first that throws, and `on_finalize` in the reverse order on those that have returned,
once each, whichever callbacks throw. The scheduler is cancelled when one has thrown.
-/
namespace M3bp.WorkerThread

variable {n : ℕ} {O E T L : Type} {observers : List O} {logicalTasks : List L}
  {w : Worker O E T L} {s t : State n O E T L}

section Calls

variable {calls : List (Call O E T L)} {pass : Pass} {callback : Callback O T L}
  {thrown : Option E} {next : Phase O E T L} {rest : Handler L} {phase : Phase O E T L}
  {observer : O}

@[simp] theorem goto_calls : (w.goto phase).calls = w.calls := rfl

@[simp] theorem goto_phase : (w.goto phase).phase = phase := rfl

@[simp] theorem goto_initializedObservers :
    (w.goto phase).initializedObservers = w.initializedObservers := rfl

@[simp] theorem call_calls :
    (w.call pass callback thrown next rest).calls = w.calls ++ [⟨pass, callback, thrown⟩] := rfl

@[simp] theorem call_initializedObservers :
    (w.call pass callback thrown next rest).initializedObservers = w.initializedObservers := rfl

@[simp] theorem call_phase_none : (w.call pass callback none next rest).phase = next := rfl

@[simp] theorem call_phase_some (eptr : E) :
    (w.call pass callback (some eptr) next rest).phase = .notifying eptr rest := rfl

@[simp] theorem emplaceBack_calls : (w.emplaceBack observer).calls = w.calls := rfl

@[simp] theorem emplaceBack_phase : (w.emplaceBack observer).phase = w.phase := rfl

@[simp] theorem emplaceBack_initializedObservers :
    (w.emplaceBack observer).initializedObservers = w.initializedObservers ++ [observer] := rfl

@[simp] theorem popBack_calls : w.popBack.calls = w.calls := rfl

@[simp] theorem popBack_initializedObservers :
    w.popBack.initializedObservers = w.initializedObservers.dropLast := rfl

@[simp] theorem initializeCalls_append (more : List (Call O E T L)) :
    initializeCalls (calls ++ more) = initializeCalls calls ++ initializeCalls more := by
  simp [initializeCalls]

@[simp] theorem finalizeCalls_append (more : List (Call O E T L)) :
    finalizeCalls (calls ++ more) = finalizeCalls calls ++ finalizeCalls more := by
  simp [finalizeCalls]

@[simp] theorem initialized_append (more : List (Call O E T L)) :
    initialized (calls ++ more) = initialized calls ++ initialized more := by
  simp [initialized]

theorem initializeCalls_singleton (hne : ∀ observer, callback ≠ .onInitialize observer) :
    initializeCalls [⟨pass, callback, thrown⟩] = [] := by
  cases callback with
  | onInitialize observer => exact absurd rfl (hne observer)
  | _ => rfl

theorem finalizeCalls_singleton (hne : ∀ observer, callback ≠ .onFinalize observer) :
    finalizeCalls [⟨pass, callback, thrown⟩] = [] := by
  cases callback with
  | onFinalize observer => exact absurd rfl (hne observer)
  | _ => rfl

theorem initialized_singleton (hne : ∀ observer, callback ≠ .onInitialize observer) :
    initialized [⟨pass, callback, thrown⟩] = [] := by
  rw [initialized, initializeCalls_singleton hne]
  rfl

theorem finalizeCalls_eq_nil_iff :
    finalizeCalls calls = [] ↔ ∀ c ∈ calls, ¬ c.IsFinalization := by
  simp only [finalizeCalls, List.filterMap_eq_nil_iff]
  refine forall₂_congr fun c _ => ?_
  cases hcallback : c.callback with
  | onFinalize observer => simp [Call.IsFinalization, hcallback]
  | _ => simp [Call.IsFinalization, hcallback]

end Calls

/-- The `try` block between the initializations and the finalizations. -/
def Phase.IsInside : Phase O E T L → Prop
  | .looping => True
  | .taking => True
  | .preparing _ => True
  | .running _ => True
  | .completing _ => True
  | .leaving => True
  | .cancelling _ => True
  | _ => False

/-- What one step can do to a thread, by the part of the thread function it is in. -/
inductive Moves (logicalTasks : List L) (w : Worker O E T L) : Worker O E T L → Prop
  | opened : w.phase = .initializing [] → Moves logicalTasks w (w.goto .looping)
  | initializes (observer : O) (todo : List O) :
      w.phase = .initializing (observer :: todo) → Moves logicalTasks w
        ((w.call .first (.onInitialize observer) none (.initializing todo)
          (.cancelling logicalTasks)).emplaceBack observer)
  | initializeThrows (observer : O) (todo : List O) (eptr : E) :
      w.phase = .initializing (observer :: todo) → Moves logicalTasks w
        (w.call .first (.onInitialize observer) (some eptr) (.initializing todo)
          (.cancelling logicalTasks))
  | silent (phase : Phase O E T L) : w.phase.IsInside → phase.IsInside ∨ phase = .finalizing →
      Moves logicalTasks w (w.goto phase)
  | work (callback : Callback O T L) (thrown : Option E) (next : Phase O E T L) :
      w.phase.IsInside → next.IsInside →
      (∀ observer, callback ≠ .onInitialize observer ∧ callback ≠ .onFinalize observer) →
      Moves logicalTasks w (w.call .first callback thrown next (.cancelling logicalTasks))
  | finalize (observer : O) (thrown : Option E) : w.phase = .finalizing →
      w.initializedObservers.getLast? = some observer → Moves logicalTasks w
        (w.popBack.call .first (.onFinalize observer) thrown .finalizing
          (.cancelling logicalTasks))
  | notify (eptr : E) (rest : Handler L) : w.phase = .notifying eptr rest →
      Moves logicalTasks w (w.goto (.handling rest))
  | swept : w.phase = .handling (.cancelling []) →
      Moves logicalTasks w (w.goto (.handling .finalizing))
  | sweep (logicalTask : L) (todo : List L) (thrown : Option E) :
      w.phase = .handling (.cancelling (logicalTask :: todo)) → Moves logicalTasks w
        (w.call .handler (.threadLocalCancel logicalTask) thrown (.handling (.cancelling todo))
          (.cancelling todo))
  | handle (observer : O) (thrown : Option E) : w.phase = .handling .finalizing →
      w.initializedObservers.getLast? = some observer → Moves logicalTasks w
        (w.call .handler (.onFinalize observer) thrown (.handling .popping) .popping)
  | pop : w.phase = .handling .popping →
      Moves logicalTasks w (w.popBack.goto (.handling .finalizing))
  | finish : w.phase = .finalizing ∨ w.phase = .handling .finalizing →
      w.initializedObservers = [] → Moves logicalTasks w (w.goto .returned)
  | stay : w.phase = .returned → Moves logicalTasks w w

section Advance

variable {exceptionPtr : Option E} {a : Answer E T} {w' : Worker O E T L}

theorem moves_advance (w : Worker O E T L) (logicalTasks : List L) (exceptionPtr : Option E)
    (a : Answer E T) : Moves logicalTasks w (w.advance logicalTasks exceptionPtr a) := by
  have hinside : ∀ {phase : Phase O E T L}, w.phase = phase → phase.IsInside →
      w.phase.IsInside := fun h hp => h ▸ hp
  cases hphase : w.phase with
  | initializing todo =>
    cases todo with
    | nil =>
      simp only [Worker.advance, hphase]
      exact .opened hphase
    | cons observer todo =>
      simp only [Worker.advance, hphase]
      cases a.thrown with
      | none => exact .initializes observer todo hphase
      | some eptr => exact .initializeThrows observer todo eptr hphase
  | looping =>
    simp only [Worker.advance, hphase]
    split
    · exact .silent _ (hinside hphase trivial) (Or.inl trivial)
    · exact .silent _ (hinside hphase trivial) (Or.inl trivial)
  | taking =>
    simp only [Worker.advance, hphase]
    split
    · exact .silent _ (hinside hphase trivial) (Or.inl trivial)
    · exact .silent _ (hinside hphase trivial) (Or.inl trivial)
  | preparing task =>
    simp only [Worker.advance, hphase]
    exact .work _ _ _ (hinside hphase trivial) trivial (by simp)
  | running task =>
    simp only [Worker.advance, hphase]
    exact .work _ _ _ (hinside hphase trivial) trivial (by simp)
  | completing task =>
    simp only [Worker.advance, hphase]
    exact .silent _ (hinside hphase trivial) (Or.inl trivial)
  | leaving =>
    simp only [Worker.advance, hphase]
    split
    · exact .silent _ (hinside hphase trivial) (Or.inl trivial)
    · exact .silent _ (hinside hphase trivial) (Or.inr rfl)
  | cancelling todo =>
    cases todo with
    | nil =>
      simp only [Worker.advance, hphase]
      exact .silent _ (hinside hphase trivial) (Or.inr rfl)
    | cons logicalTask todo =>
      simp only [Worker.advance, hphase]
      exact .work _ _ _ (hinside hphase trivial) trivial (by simp)
  | finalizing =>
    simp only [Worker.advance, hphase]
    split
    · next hlast => exact .finish (Or.inl hphase) (List.getLast?_eq_none_iff.mp hlast)
    · next observer hlast => exact .finalize observer _ hphase hlast
  | notifying eptr rest =>
    simp only [Worker.advance, hphase]
    exact .notify eptr rest hphase
  | handling rest =>
    cases rest with
    | cancelling todo =>
      cases todo with
      | nil =>
        simp only [Worker.advance, hphase]
        exact .swept hphase
      | cons logicalTask todo =>
        simp only [Worker.advance, hphase]
        exact .sweep logicalTask todo _ hphase
    | finalizing =>
      simp only [Worker.advance, hphase]
      split
      · next hlast => exact .finish (Or.inr hphase) (List.getLast?_eq_none_iff.mp hlast)
      · next observer hlast => exact .handle observer _ hphase hlast
    | popping =>
      simp only [Worker.advance, hphase]
      exact .pop hphase
  | returned =>
    simp only [Worker.advance, hphase]
    exact .stay hphase

/-- How far the initialization of a thread has come. -/
def Opened (observers : List O) (w : Worker O E T L) : Prop :=
  match w.phase with
  | .initializing todo =>
    (initializeCalls w.calls).map Prod.fst ++ todo = observers ∧
      ∀ p ∈ initializeCalls w.calls, p.2 = none
  | _ =>
    (initializeCalls w.calls).map Prod.fst <+: observers ∧
      (∀ p ∈ (initializeCalls w.calls).dropLast, p.2 = none) ∧
      ((initializeCalls w.calls).map Prod.fst = observers ∨
        ∃ p ∈ initializeCalls w.calls, p.2 ≠ none)

theorem opened_of_initializing {todo : List O} (hphase : w.phase = .initializing todo) :
    Opened observers w ↔ (initializeCalls w.calls).map Prod.fst ++ todo = observers ∧
      ∀ p ∈ initializeCalls w.calls, p.2 = none := by
  simp only [Opened, hphase]

theorem opened_of_ne (hphase : ∀ todo, w.phase ≠ .initializing todo) :
    Opened observers w ↔ (initializeCalls w.calls).map Prod.fst <+: observers ∧
      (∀ p ∈ (initializeCalls w.calls).dropLast, p.2 = none) ∧
      ((initializeCalls w.calls).map Prod.fst = observers ∨
        ∃ p ∈ initializeCalls w.calls, p.2 ≠ none) := by
  simp only [Opened]

theorem Opened.isPrefix (h : Opened observers w) :
    (initializeCalls w.calls).map Prod.fst <+: observers := by
  by_cases hphase : ∀ todo, w.phase ≠ .initializing todo
  · exact ((opened_of_ne hphase).mp h).1
  · push Not at hphase
    obtain ⟨todo, hphase⟩ := hphase
    exact ⟨todo, ((opened_of_initializing hphase).mp h).1⟩

/-- Only the last call of `on_initialize` can have thrown. -/
theorem Opened.dropLast_returned (h : Opened observers w) :
    ∀ p ∈ (initializeCalls w.calls).dropLast, p.2 = none := by
  by_cases hphase : ∀ todo, w.phase ≠ .initializing todo
  · exact ((opened_of_ne hphase).mp h).2.1
  · push Not at hphase
    obtain ⟨todo, hphase⟩ := hphase
    exact fun p hp => ((opened_of_initializing hphase).mp h).2 p (List.dropLast_subset _ hp)

/-- The calls of `on_initialize` are made by the initialization only. -/
theorem Moves.past_initializing (h : Moves logicalTasks w w')
    (hphase : ∀ todo, w.phase ≠ .initializing todo) :
    (∀ todo, w'.phase ≠ .initializing todo) ∧
      initializeCalls w'.calls = initializeCalls w.calls := by
  have hcall : ∀ {v : Worker O E T L} {pass callback thrown next rest},
      v.calls = w.calls → (∀ observer, callback ≠ .onInitialize observer) →
      (∀ todo, next ≠ .initializing todo) →
      (∀ todo, (v.call pass callback thrown next rest).phase ≠ .initializing todo) ∧
        initializeCalls (v.call pass callback thrown next rest).calls
          = initializeCalls w.calls := by
    intro v pass callback thrown next rest hcalls hcallback hnext
    constructor
    · cases thrown with
      | none => exact hnext
      | some eptr => simp
    · rw [call_calls, initializeCalls_append, initializeCalls_singleton hcallback, hcalls,
        List.append_nil]
  cases h with
  | opened h => exact absurd h (hphase _)
  | initializes observer todo h => exact absurd h (hphase _)
  | initializeThrows observer todo eptr h => exact absurd h (hphase _)
  | silent phase h hnext =>
    refine ⟨fun todo heq => ?_, rfl⟩
    rw [goto_phase] at heq
    subst heq
    rcases hnext with hnext | hnext
    · exact hnext
    · simp at hnext
  | work callback thrown next h hnext hcallback =>
    refine hcall rfl (fun observer => (hcallback observer).1) ?_
    rintro todo rfl
    exact hnext
  | finalize observer thrown h hlast => exact hcall rfl (by simp) (by simp)
  | notify eptr rest h => exact ⟨by simp, rfl⟩
  | swept h => exact ⟨by simp, rfl⟩
  | sweep logicalTask todo thrown h => exact hcall rfl (by simp) (by simp)
  | handle observer thrown h hlast => exact hcall rfl (by simp) (by simp)
  | pop h => exact ⟨by simp, rfl⟩
  | finish h hnil => exact ⟨by simp, rfl⟩
  | stay h => exact ⟨hphase, rfl⟩

theorem Moves.opened_of (h : Moves logicalTasks w w') (hopened : Opened observers w) :
    Opened observers w' := by
  by_cases hphase : ∀ todo, w.phase ≠ .initializing todo
  · obtain ⟨hphase', hcalls⟩ := h.past_initializing hphase
    rw [opened_of_ne hphase'] 
    rw [opened_of_ne hphase] at hopened
    rw [hcalls]
    exact hopened
  · push Not at hphase
    obtain ⟨todo, hphase⟩ := hphase
    obtain ⟨hlist, hnone⟩ := (opened_of_initializing hphase).mp hopened
    cases h with
    | opened h =>
      obtain rfl : todo = [] := by simpa [h] using hphase.symm
      rw [List.append_nil] at hlist
      rw [opened_of_ne (by simp)]
      exact ⟨by rw [goto_calls, hlist], fun p hp => hnone p (List.dropLast_subset _ hp),
        Or.inl hlist⟩
    | initializes observer rest h =>
      obtain rfl : todo = observer :: rest := by simpa [h] using hphase.symm
      rw [opened_of_initializing rfl]
      constructor
      · simpa [initializeCalls] using hlist
      · intro p hp
        rcases List.mem_append.mp (by simpa using hp) with hp | hp
        · exact hnone p hp
        · rw [List.mem_singleton.mp hp]
    | initializeThrows observer rest eptr h =>
      obtain rfl : todo = observer :: rest := by simpa [h] using hphase.symm
      have hone : initializeCalls
          [(⟨.first, .onInitialize observer, some eptr⟩ : Call O E T L)]
          = [(observer, some eptr)] := rfl
      rw [opened_of_ne (by simp), call_calls, initializeCalls_append, hone]
      refine ⟨?_, ?_, Or.inr ⟨(observer, some eptr), by simp, by simp⟩⟩
      · rw [← hlist]
        simp
      · rw [List.dropLast_concat]
        exact hnone
    | silent phase h hnext => simp [hphase, Phase.IsInside] at h
    | work callback thrown next h hnext hcallback => simp [hphase, Phase.IsInside] at h
    | finalize observer thrown h hlast => simp [h] at hphase
    | notify eptr rest h => simp [h] at hphase
    | swept h => simp [h] at hphase
    | sweep logicalTask todo thrown h => simp [h] at hphase
    | handle observer thrown h hlast => simp [h] at hphase
    | pop h => simp [h] at hphase
    | finish h hnil => simp [hphase] at h
    | stay h => simp [h] at hphase

theorem isReturned_iff : w.isReturned = true ↔ w.phase = .returned := by
  cases hphase : w.phase <;> simp [Worker.isReturned, hphase]

/-- The observers that a thread still has to finalize. A handler takes an observer off
the list after its call. -/
def Worker.unfinalized (w : Worker O E T L) : List O :=
  match w.phase with
  | .notifying _ .popping => w.initializedObservers.dropLast
  | .handling .popping => w.initializedObservers.dropLast
  | _ => w.initializedObservers

/-- The observers that have been finalized and those that are still to be are the ones
that have been initialized. -/
structure Closed (w : Worker O E T L) : Prop where
  balance : finalizeCalls w.calls ++ w.unfinalized.reverse = (initialized w.calls).reverse
  opening : ∀ todo, w.phase = .initializing todo → finalizeCalls w.calls = []
  inside : w.phase.IsInside → finalizeCalls w.calls = []
  returned : w.phase = .returned → w.initializedObservers = []

theorem reverse_of_getLast? {l : List O} {o : O} (h : l.getLast? = some o) :
    l.reverse = o :: l.dropLast.reverse := by
  obtain ⟨init, rfl⟩ := List.getLast?_eq_some_iff.mp h
  simp

theorem length_of_getLast? {l : List O} {o : O} (h : l.getLast? = some o) :
    l.dropLast.length + 1 = l.length := by
  obtain ⟨init, rfl⟩ := List.getLast?_eq_some_iff.mp h
  simp

theorem unfinalized_of_inside (h : w.phase.IsInside) :
    w.unfinalized = w.initializedObservers := by
  simp only [Worker.unfinalized]
  split
  · next hphase => simp [hphase, Phase.IsInside] at h
  · next hphase => simp [hphase, Phase.IsInside] at h
  · rfl

/-- A call that is caught before the handler's finalizations leaves the list as it is. -/
theorem unfinalized_call {pass : Pass} {callback : Callback O T L} {thrown : Option E}
    {next : Phase O E T L} {todo : List L}
    (hnext : (w.goto next).unfinalized = w.initializedObservers) :
    (w.call pass callback thrown next (.cancelling todo)).unfinalized
      = w.initializedObservers := by
  cases thrown with
  | none => exact hnext
  | some eptr => rfl

theorem call_not_inside {pass : Pass} {callback : Callback O T L} {thrown : Option E}
    {next : Phase O E T L} {rest : Handler L} (hnext : ¬ next.IsInside) :
    ¬ (w.call pass callback thrown next rest).phase.IsInside := by
  cases thrown with
  | none => exact hnext
  | some eptr => exact id

theorem call_phase_ne {pass : Pass} {callback : Callback O T L} {thrown : Option E}
    {next phase : Phase O E T L} {rest : Handler L} (hnext : next ≠ phase)
    (hphase : ∀ eptr, phase ≠ .notifying eptr rest) :
    (w.call pass callback thrown next rest).phase ≠ phase := by
  cases thrown with
  | none => exact hnext
  | some eptr => exact (hphase eptr).symm

theorem Moves.closed_of (h : Moves logicalTasks w w') (hclosed : Closed w) : Closed w' := by
  have hbalance := hclosed.balance
  cases h with
  | opened h =>
    have hnil := hclosed.opening _ h
    simp only [Worker.unfinalized, h] at hbalance
    exact ⟨hbalance, by simp, fun _ => hnil, by simp⟩
  | initializes observer todo h =>
    have hnil := hclosed.opening _ h
    simp only [Worker.unfinalized, h, hnil, List.nil_append] at hbalance
    refine ⟨?_, fun _ _ => ?_, by simp [Phase.IsInside], by simp⟩
    · simp [Worker.unfinalized, hnil, hbalance, finalizeCalls_singleton, initialized,
        initializeCalls]
    · simpa [finalizeCalls_singleton] using hnil
  | initializeThrows observer todo eptr h =>
    have hnil := hclosed.opening _ h
    simp only [Worker.unfinalized, h, hnil, List.nil_append] at hbalance
    refine ⟨?_, by simp, by simp [Phase.IsInside], by simp⟩
    simp [Worker.unfinalized, hnil, hbalance, finalizeCalls_singleton, initialized,
        initializeCalls]
  | silent phase h hnext =>
    rw [unfinalized_of_inside h] at hbalance
    have hlist : (w.goto phase).unfinalized = w.initializedObservers := by
      rcases hnext with hnext | rfl
      · exact unfinalized_of_inside hnext
      · rfl
    refine ⟨by rw [hlist]; exact hbalance, fun _ _ => hclosed.inside h,
      fun _ => hclosed.inside h, fun hphase => ?_⟩
    rw [goto_phase] at hphase
    subst hphase
    simp [Phase.IsInside] at hnext
  | work callback thrown next h hnext hcallback =>
    rw [unfinalized_of_inside h] at hbalance
    have hnil := hclosed.inside h
    have hcalls : finalizeCalls
        (w.call .first callback thrown next (.cancelling logicalTasks)).calls = [] := by
      simp [hnil, finalizeCalls_singleton fun observer => (hcallback observer).2]
    refine ⟨?_, fun _ _ => hcalls, fun _ => hcalls, fun hphase => ?_⟩
    · rw [unfinalized_call (unfinalized_of_inside hnext)]
      simpa [hnil, finalizeCalls_singleton fun observer => (hcallback observer).2,
        initialized_singleton fun observer => (hcallback observer).1] using hbalance
    · refine absurd hphase (call_phase_ne ?_ (by simp))
      rintro rfl
      exact hnext
  | finalize observer thrown h hlast =>
    simp only [Worker.unfinalized, h] at hbalance
    refine ⟨?_, ?_, ?_, ?_⟩
    · rw [unfinalized_call rfl]
      rw [reverse_of_getLast? hlast] at hbalance
      simpa [initialized_singleton, finalizeCalls] using hbalance
    · exact fun todo hphase => absurd hphase (call_phase_ne (by simp) (by simp))
    · exact fun hphase => absurd hphase (call_not_inside id)
    · exact fun hphase => absurd hphase (call_phase_ne (by simp) (by simp))
  | notify eptr rest h =>
    refine ⟨?_, by simp, by simp [Phase.IsInside], by simp⟩
    cases rest with
    | cancelling todo => simpa [Worker.unfinalized, h] using hbalance
    | finalizing => simpa [Worker.unfinalized, h] using hbalance
    | popping => simpa [Worker.unfinalized, h] using hbalance
  | swept h =>
    refine ⟨?_, by simp, by simp [Phase.IsInside], by simp⟩
    simpa [Worker.unfinalized, h] using hbalance
  | sweep logicalTask todo thrown h =>
    simp only [Worker.unfinalized, h] at hbalance
    refine ⟨?_, ?_, ?_, ?_⟩
    · rw [unfinalized_call rfl]
      simpa [initialized_singleton, finalizeCalls_singleton] using hbalance
    · exact fun todo hphase => absurd hphase (call_phase_ne (by simp) (by simp))
    · exact fun hphase => absurd hphase (call_not_inside id)
    · exact fun hphase => absurd hphase (call_phase_ne (by simp) (by simp))
  | handle observer thrown h hlast =>
    simp only [Worker.unfinalized, h] at hbalance
    refine ⟨?_, ?_, ?_, ?_⟩
    · have hlist : (w.call .handler (.onFinalize observer) thrown (.handling .popping)
          .popping).unfinalized = w.initializedObservers.dropLast := by
        cases thrown with
        | none => rfl
        | some eptr => rfl
      rw [hlist]
      rw [reverse_of_getLast? hlast] at hbalance
      simpa [initialized_singleton, finalizeCalls] using hbalance
    · exact fun todo hphase => absurd hphase (call_phase_ne (by simp) (by simp))
    · exact fun hphase => absurd hphase (call_not_inside id)
    · exact fun hphase => absurd hphase (call_phase_ne (by simp) (by simp))
  | pop h =>
    refine ⟨?_, by simp, by simp [Phase.IsInside], by simp⟩
    simpa [Worker.unfinalized, h] using hbalance
  | finish h hnil =>
    refine ⟨?_, by simp, by simp [Phase.IsInside], fun _ => hnil⟩
    rcases h with h | h
    · simpa [Worker.unfinalized, h] using hbalance
    · simpa [Worker.unfinalized, h] using hbalance
  | stay h => exact hclosed

/-- Work of the `try` block is done before the first finalization. -/
def Ordered (calls : List (Call O E T L)) : Prop :=
  calls.Pairwise fun c d => c.IsFinalization → ¬ d.IsFirstWork

theorem call_thrown_iff {pass : Pass} {callback : Callback O T L} {thrown : Option E}
    {next : Phase O E T L} {rest : Handler L} (hnext : ∀ eptr rest, next ≠ .notifying eptr rest)
    (eptr : E) : thrown = some eptr ↔
      ∃ rest', (w.call pass callback thrown next rest).phase = .notifying eptr rest' := by
  cases thrown with
  | none => simp [hnext]
  | some e => simp

/-- A step records at most one call. What it throws is notified next. -/
theorem Moves.calls_or (h : Moves logicalTasks w w') :
    (w'.calls = w.calls ∧ ∀ eptr rest, w'.phase ≠ .notifying eptr rest) ∨
      ∃ c, w'.calls = w.calls ++ [c] ∧ (∀ eptr rest, w.phase ≠ .notifying eptr rest) ∧
        (∀ eptr, c.thrown = some eptr ↔ ∃ rest, w'.phase = .notifying eptr rest) ∧
        (c.IsFirstWork → w.phase.IsInside ∨ ∃ todo, w.phase = .initializing todo) := by
  have hinside : ∀ {phase : Phase O E T L}, phase.IsInside →
      ∀ eptr rest, phase ≠ .notifying eptr rest := by
    rintro _ h eptr rest rfl
    exact h
  cases h with
  | opened h => exact Or.inl ⟨rfl, by simp⟩
  | initializes observer todo h =>
    exact Or.inr ⟨_, rfl, by simp [h], by simp, fun _ => Or.inr ⟨_, h⟩⟩
  | initializeThrows observer todo eptr h =>
    exact Or.inr ⟨_, rfl, by simp [h], by simp, fun _ => Or.inr ⟨_, h⟩⟩
  | silent phase h hnext =>
    refine Or.inl ⟨rfl, ?_⟩
    rcases hnext with hnext | rfl
    · exact hinside hnext
    · simp
  | work callback thrown next h hnext hcallback =>
    exact Or.inr ⟨_, rfl, hinside h, call_thrown_iff (hinside hnext), fun _ => Or.inl h⟩
  | finalize observer thrown h hlast =>
    exact Or.inr ⟨_, rfl, by simp [h], call_thrown_iff (by simp),
      fun hwork => absurd ⟨observer, rfl⟩ hwork.2⟩
  | notify eptr rest h => exact Or.inl ⟨rfl, by simp⟩
  | swept h => exact Or.inl ⟨rfl, by simp⟩
  | sweep logicalTask todo thrown h =>
    exact Or.inr ⟨_, rfl, by simp [h], call_thrown_iff (by simp),
      fun hwork => absurd hwork.1 (by simp)⟩
  | handle observer thrown h hlast =>
    exact Or.inr ⟨_, rfl, by simp [h], call_thrown_iff (by simp),
      fun hwork => absurd hwork.1 (by simp)⟩
  | pop h => exact Or.inl ⟨rfl, by simp⟩
  | finish h hnil => exact Or.inl ⟨rfl, by simp⟩
  | stay h => exact Or.inl ⟨rfl, by simp [h]⟩

theorem Moves.ordered_of (h : Moves logicalTasks w w') (hclosed : Closed w)
    (hordered : Ordered w.calls) : Ordered w'.calls := by
  rcases h.calls_or with ⟨hcalls, -⟩ | ⟨c, hcalls, -, -, hwork⟩
  · rw [hcalls]
    exact hordered
  · rw [hcalls]
    refine List.pairwise_append.mpr ⟨hordered, List.pairwise_singleton _ _, ?_⟩
    intro d hd e he hfinalization hfirst
    rw [List.mem_singleton.mp he] at hfirst
    have hnil : finalizeCalls w.calls = [] := by
      rcases hwork hfirst with hinside | ⟨todo, hphase⟩
      · exact hclosed.inside hinside
      · exact hclosed.opening todo hphase
    exact finalizeCalls_eq_nil_iff.mp hnil d hd hfinalization

theorem remaining_call_lt {pass : Pass} {callback : Callback O T L} {thrown : Option E}
    {next : Phase O E T L} {rest : Handler L} {k : ℕ}
    (hnext : (w.goto next).remaining logicalTasks < k)
    (hrest : ∀ eptr, (w.goto (.notifying eptr rest)).remaining logicalTasks < k) :
    (w.call pass callback thrown next rest).remaining logicalTasks < k := by
  cases thrown with
  | none => exact hnext
  | some eptr => exact hrest eptr

/-- Only the test of the task loop leads to another round. -/
theorem remaining_advance (hreturned : w.phase ≠ .returned)
    (hloop : w.phase = .looping → exceptionPtr.isSome = true ∨ a.isFinished = true) :
    (w.advance logicalTasks exceptionPtr a).remaining logicalTasks
      < w.remaining logicalTasks := by
  cases hphase : w.phase with
  | initializing todo =>
    cases todo with
    | nil => simp [Worker.advance, hphase, Worker.remaining]
    | cons observer todo =>
      simp only [Worker.advance, hphase]
      cases a.thrown with
      | none =>
        simp only [Worker.remaining, hphase, Option.isNone_none, if_true, emplaceBack_phase,
          call_phase_none, emplaceBack_initializedObservers, call_initializedObservers,
          List.length_append, List.length_cons, List.length_nil]
        omega
      | some eptr =>
        simp only [Worker.remaining, hphase, Option.isNone_some, Bool.false_eq_true, if_false,
          call_phase_some, call_initializedObservers, List.length_cons]
        omega
  | looping =>
    have htest : (exceptionPtr.isNone && !a.isFinished) = false := by
      rcases hloop hphase with h | h
      · simp [Option.isNone_eq_false_iff.mpr h]
      · simp [h]
    simp [Worker.advance, hphase, htest, Worker.remaining]
  | taking =>
    simp only [Worker.advance, hphase]
    split
    · simp [Worker.remaining, hphase]
    · simp [Worker.remaining, hphase]
  | preparing task =>
    simp only [Worker.advance, hphase]
    refine remaining_call_lt ?_ fun eptr => ?_
    · simp [Worker.remaining, hphase]
    · simp only [Worker.remaining, hphase, goto_phase, goto_initializedObservers]
      omega
  | running task =>
    simp only [Worker.advance, hphase]
    refine remaining_call_lt ?_ fun eptr => ?_
    · simp [Worker.remaining, hphase]
    · simp only [Worker.remaining, hphase, goto_phase, goto_initializedObservers]
      omega
  | completing task => simp [Worker.advance, hphase, Worker.remaining]
  | leaving =>
    simp only [Worker.advance, hphase]
    split
    · simp only [Worker.remaining, hphase, goto_phase, goto_initializedObservers]
      omega
    · simp only [Worker.remaining, hphase, goto_phase, goto_initializedObservers]
      omega
  | cancelling todo =>
    cases todo with
    | nil => simp [Worker.advance, hphase, Worker.remaining]
    | cons logicalTask todo =>
      simp only [Worker.advance, hphase]
      refine remaining_call_lt ?_ fun eptr => ?_
      · simp [Worker.remaining, hphase]
      · simp only [Worker.remaining, hphase, goto_phase, goto_initializedObservers,
          List.length_cons]
        omega
  | finalizing =>
    simp only [Worker.advance, hphase]
    split
    · simp [Worker.remaining, hphase]
    · next observer hlast =>
      have hlength := length_of_getLast? hlast
      refine remaining_call_lt ?_ fun eptr => ?_
      · simp only [Worker.remaining, hphase, goto_phase, goto_initializedObservers,
          popBack_initializedObservers]
        omega
      · simp only [Worker.remaining, hphase, goto_phase, goto_initializedObservers,
          popBack_initializedObservers]
        omega
  | notifying eptr rest =>
    cases rest with
    | cancelling todo => simp [Worker.advance, hphase, Worker.remaining]
    | finalizing => simp [Worker.advance, hphase, Worker.remaining]
    | popping => simp [Worker.advance, hphase, Worker.remaining]
  | handling rest =>
    cases rest with
    | cancelling todo =>
      cases todo with
      | nil => simp [Worker.advance, hphase, Worker.remaining]
      | cons logicalTask todo =>
        simp only [Worker.advance, hphase]
        refine remaining_call_lt ?_ fun eptr => ?_
        · simp only [Worker.remaining, hphase, goto_phase, goto_initializedObservers,
            List.length_cons]
          omega
        · simp only [Worker.remaining, hphase, goto_phase, goto_initializedObservers,
            List.length_cons]
          omega
    | finalizing =>
      simp only [Worker.advance, hphase]
      split
      · simp [Worker.remaining, hphase]
      · next observer hlast =>
        have hlength := length_of_getLast? hlast
        refine remaining_call_lt ?_ fun eptr => ?_
        · simp only [Worker.remaining, hphase, goto_phase, goto_initializedObservers]
          omega
        · simp only [Worker.remaining, hphase, goto_phase, goto_initializedObservers]
          omega
    | popping =>
      simp only [Worker.advance, hphase, Worker.remaining, goto_phase,
        goto_initializedObservers, popBack_initializedObservers, List.length_dropLast]
      omega
  | returned => exact absurd hphase hreturned

end Advance

/-- The executor is at the tasks' `global_cancel`. -/
def Executor.IsCancelling : Executor E L → Prop
  | .cancelling _ => True
  | .notifying _ _ => True
  | _ => False

/-- The exceptions that threads have thrown are with the scheduler or on the way to it. -/
structure Heard (s : State n O E T L) : Prop where
  notified : ∀ w, ∀ c ∈ (s.workers w).calls, ∀ eptr, c.thrown = some eptr →
    s.isCancelled = true ∨ ∃ rest, (s.workers w).phase = .notifying eptr rest
  pending : ∀ w eptr rest, (s.workers w).phase = .notifying eptr rest →
    ∃ c ∈ (s.workers w).calls, c.thrown = some eptr
  caused : ∀ eptr, s.exceptionPtr = some eptr →
    ∃ w, ∃ c ∈ (s.workers w).calls, c.thrown = some eptr
  executor : s.executor.IsCancelling → s.isCancelled = true

theorem isSome_notifyException (exceptionPtr : Option E) (eptr : E) :
    (notifyException exceptionPtr eptr).isSome = true := by
  cases exceptionPtr with
  | none => rfl
  | some first => rfl

theorem notifyException_of_isSome {exceptionPtr : Option E} (h : exceptionPtr.isSome = true)
    (eptr : E) : notifyException exceptionPtr eptr = exceptionPtr := by
  obtain ⟨first, rfl⟩ := Option.isSome_iff_exists.mp h
  rfl

theorem isCancelled_advance (w : Fin n) (a : Answer E T) (h : s.isCancelled = true) :
    (s.advance logicalTasks w a).isCancelled = true := by
  simp only [State.advance, State.isCancelled, Worker.notify]
  split
  · exact isSome_notifyException _ _
  · exact h

theorem isCancelled_of_notifying {w : Fin n} {a : Answer E T} {eptr : E} {rest : Handler L}
    (h : (s.workers w).phase = .notifying eptr rest) :
    (s.advance logicalTasks w a).isCancelled = true := by
  simp only [State.advance, State.isCancelled, Worker.notify, h]
  exact isSome_notifyException _ _

theorem mem_calls_advance {w u : Fin n} {a : Answer E T} {c : Call O E T L}
    (hc : c ∈ (s.workers u).calls) : c ∈ ((s.advance logicalTasks w a).workers u).calls := by
  by_cases hu : u = w
  · subst hu
    simp only [State.advance, Function.update_self]
    rcases (moves_advance (s.workers u) logicalTasks s.exceptionPtr a).calls_or with
      ⟨hcalls, -⟩ | ⟨d, hcalls, -⟩
    · rw [hcalls]
      exact hc
    · rw [hcalls]
      exact List.mem_append_left _ hc
  · simpa only [State.advance, Function.update_of_ne hu] using hc

theorem Heard.advance (h : Heard s) (w : Fin n) (a : Answer E T) :
    Heard (s.advance logicalTasks w a) := by
  have hmoves := moves_advance (s.workers w) logicalTasks s.exceptionPtr a
  have hself : (s.advance logicalTasks w a).workers w
      = (s.workers w).advance logicalTasks s.exceptionPtr a := Function.update_self w _ _
  have hother : ∀ u, u ≠ w → (s.advance logicalTasks w a).workers u = s.workers u :=
    fun u hu => Function.update_of_ne hu _ _
  refine ⟨?_, ?_, ?_, ?_⟩
  · intro u c hc eptr hthrown
    by_cases hu : u = w
    · subst hu
      rw [hself] at hc ⊢
      rcases hmoves.calls_or with ⟨hcalls, -⟩ | ⟨d, hcalls, hphase, hd, -⟩
      · rw [hcalls] at hc
        rcases h.notified u c hc eptr hthrown with hcancelled | ⟨rest, hphase⟩
        · exact Or.inl (isCancelled_advance u a hcancelled)
        · exact Or.inl (isCancelled_of_notifying hphase)
      · rw [hcalls] at hc
        rcases List.mem_append.mp hc with hc | hc
        · rcases h.notified u c hc eptr hthrown with hcancelled | ⟨rest, hnotifying⟩
          · exact Or.inl (isCancelled_advance u a hcancelled)
          · exact absurd hnotifying (hphase eptr rest)
        · rw [List.mem_singleton.mp hc] at hthrown
          exact Or.inr ((hd eptr).mp hthrown)
    · rw [hother u hu] at hc ⊢
      rcases h.notified u c hc eptr hthrown with hcancelled | hphase
      · exact Or.inl (isCancelled_advance w a hcancelled)
      · exact Or.inr hphase
  · intro u eptr rest hphase'
    by_cases hu : u = w
    · subst hu
      rw [hself] at hphase' ⊢
      rcases hmoves.calls_or with ⟨-, hquiet⟩ | ⟨d, hcalls, -, hd, -⟩
      · exact absurd hphase' (hquiet eptr rest)
      · exact ⟨d, by rw [hcalls]; simp, (hd eptr).mpr ⟨rest, hphase'⟩⟩
    · rw [hother u hu] at hphase' ⊢
      exact h.pending u eptr rest hphase'
  · intro eptr hptr
    have hcause : ∃ u, ∃ c ∈ (s.workers u).calls, c.thrown = some eptr := by
      cases hphase : (s.workers w).phase with
      | notifying first rest =>
        simp only [State.advance, Worker.notify, hphase] at hptr
        cases hold : s.exceptionPtr with
        | none =>
          simp only [notifyException, hold, Option.some.injEq] at hptr
          subst hptr
          exact ⟨w, h.pending w first rest hphase⟩
        | some old =>
          rw [notifyException_of_isSome (by simp [hold])] at hptr
          exact h.caused eptr hptr
      | _ =>
        simp only [State.advance, Worker.notify, hphase] at hptr
        exact h.caused eptr hptr
    obtain ⟨u, c, hc, hthrown⟩ := hcause
    exact ⟨u, c, mem_calls_advance hc, hthrown⟩
  · intro hexecutor
    exact isCancelled_advance w a (h.executor hexecutor)

theorem execute_workers (s : State n O E T L) (logicalTasks : List L) (thrown : Option E) :
    (s.execute logicalTasks thrown).workers = s.workers := by
  simp only [State.execute]
  split
  · split
    · split
      · rfl
      · rfl
    · rfl
  · rfl
  · split
    · rfl
    · rfl
  · rfl
  · rfl

/-- The executor notifies exceptions only once the scheduler is cancelled. -/
theorem Heard.execute_exceptionPtr (h : Heard s) (logicalTasks : List L) (thrown : Option E) :
    (s.execute logicalTasks thrown).exceptionPtr = s.exceptionPtr := by
  simp only [State.execute]
  split
  · split
    · split
      · rfl
      · rfl
    · rfl
  · rfl
  · split
    · rfl
    · rfl
  · next eptr todo hexecutor =>
    exact notifyException_of_isSome (h.executor (by rw [hexecutor]; trivial)) eptr
  · rfl

theorem Heard.execute (h : Heard s) (thrown : Option E) :
    Heard (s.execute logicalTasks thrown) := by
  have hworkers := execute_workers s logicalTasks thrown
  have hptr := h.execute_exceptionPtr logicalTasks thrown
  have hcancelled : (s.execute logicalTasks thrown).isCancelled = s.isCancelled := by
    rw [State.isCancelled, hptr, State.isCancelled]
  refine ⟨?_, ?_, ?_, ?_⟩
  · rw [hworkers, hcancelled]
    exact h.notified
  · rw [hworkers]
    exact h.pending
  · rw [hworkers, hptr]
    exact h.caused
  · rw [hcancelled]
    intro hexecutor
    by_cases hbefore : s.executor.IsCancelling
    · exact h.executor hbefore
    · cases hphase : s.executor with
      | joining =>
        simp only [State.execute, hphase] at hexecutor
        split at hexecutor
        · split at hexecutor
          · assumption
          · exact hexecutor.elim
        · exact absurd hexecutor hbefore
      | cancelling todo => exact absurd (by rw [hphase]; trivial) hbefore
      | notifying eptr todo => exact absurd (by rw [hphase]; trivial) hbefore
      | finished thrown =>
        simp only [State.execute, hphase] at hexecutor
        exact hexecutor.elim

/-- Each thread keeps to its list, and the scheduler hears of what is thrown. -/
structure Inv (observers : List O) (s : State n O E T L) : Prop where
  opened : ∀ w, Opened observers (s.workers w)
  closed : ∀ w, Closed (s.workers w)
  ordered : ∀ w, Ordered (s.workers w).calls
  heard : Heard s

theorem Inv.advance (h : Inv observers s) (w : Fin n) (a : Answer E T) :
    Inv observers (s.advance logicalTasks w a) := by
  have hmoves := moves_advance (s.workers w) logicalTasks s.exceptionPtr a
  have hall : ∀ {P : Worker O E T L → Prop}, (∀ u, P (s.workers u)) →
      P ((s.workers w).advance logicalTasks s.exceptionPtr a) →
      ∀ u, P ((s.advance logicalTasks w a).workers u) := by
    intro P hold hnew u
    by_cases hu : u = w
    · subst hu
      simpa only [State.advance, Function.update_self] using hnew
    · simpa only [State.advance, Function.update_of_ne hu] using hold u
  exact ⟨hall h.opened (hmoves.opened_of (h.opened w)),
    hall h.closed (hmoves.closed_of (h.closed w)),
    hall (P := fun v => Ordered v.calls) h.ordered
      (hmoves.ordered_of (h.closed w) (h.ordered w)),
    h.heard.advance w a⟩

theorem Inv.execute (h : Inv observers s) (thrown : Option E) :
    Inv observers (s.execute logicalTasks thrown) := by
  have hworkers := execute_workers s logicalTasks thrown
  refine ⟨?_, ?_, ?_, h.heard.execute thrown⟩
  · rw [hworkers]
    exact h.opened
  · rw [hworkers]
    exact h.closed
  · rw [hworkers]
    exact h.ordered

theorem inv_start (n : ℕ) (E T L : Type) (observers : List O) :
    Inv observers (start n observers : State n O E T L) where
  opened w := by
    rw [opened_of_initializing rfl]
    exact ⟨rfl, by simp [start, initializeCalls]⟩
  closed w := ⟨rfl, fun _ _ => rfl, fun _ => rfl, fun h => by simp [start] at h⟩
  ordered w := List.Pairwise.nil
  heard := ⟨by simp [start], by simp [start], by simp [start], fun h => h.elim⟩

theorem inv_reached (hs : Reached observers logicalTasks s) : Inv observers s := by
  induction hs with
  | start h =>
    rw [h]
    exact inv_start n E T L observers
  | next _ hstep ih =>
    cases hstep with
    | advance w a => exact ih.advance w a
    | execute thrown =>
      exact ih.execute thrown

/-- Whatever the callbacks throw, a thread calls `on_initialize` along its list up to the
first that throws, and `on_finalize` once on each observer whose `on_initialize` has
returned, in the reverse order and after the work of the `try` block. When all threads
have returned, the scheduler is cancelled exactly if a callback has thrown. A thread
that is not sent round the task loop again has finitely many steps left. -/
theorem thread_observers_bracketed (observers : List O) (logicalTasks : List L)
    {s : State n O E T L} (hs : Reached observers logicalTasks s) :
    (∀ w,
      (initializeCalls (s.workers w).calls).map Prod.fst <+: observers ∧
      (∀ p ∈ (initializeCalls (s.workers w).calls).dropLast, p.2 = none) ∧
      ((∀ todo, (s.workers w).phase ≠ .initializing todo) →
        (initializeCalls (s.workers w).calls).map Prod.fst = observers ∨
          ∃ p ∈ initializeCalls (s.workers w).calls, p.2 ≠ none) ∧
      finalizeCalls (s.workers w).calls <+: (initialized (s.workers w).calls).reverse ∧
      ((s.workers w).isReturned = true →
        finalizeCalls (s.workers w).calls = (initialized (s.workers w).calls).reverse) ∧
      Ordered (s.workers w).calls) ∧
    (∀ eptr, s.exceptionPtr = some eptr →
      ∃ w, ∃ c ∈ (s.workers w).calls, c.thrown = some eptr) ∧
    (∀ w, ∀ c ∈ (s.workers w).calls, ∀ eptr, c.thrown = some eptr →
      s.isCancelled = true ∨ ∃ rest, (s.workers w).phase = .notifying eptr rest) ∧
    ((∀ w, (s.workers w).isReturned = true) →
      (s.isCancelled = true ↔ ∃ w, ∃ c ∈ (s.workers w).calls, c.thrown ≠ none)) ∧
    (∀ w a, (s.workers w).isReturned = false →
      ((s.workers w).phase = .looping → s.isCancelled = true ∨ a.isFinished = true) →
      ((s.advance logicalTasks w a).workers w).remaining logicalTasks
        < (s.workers w).remaining logicalTasks) := by
  have h := inv_reached hs
  refine ⟨fun w => ?_, h.heard.caused, h.heard.notified, fun hreturned => ?_, ?_⟩
  · have hbalance := (h.closed w).balance
    refine ⟨(h.opened w).isPrefix, (h.opened w).dropLast_returned,
      fun hphase => ((opened_of_ne hphase).mp (h.opened w)).2.2, ?_, ?_, h.ordered w⟩
    · exact ⟨(s.workers w).unfinalized.reverse, hbalance⟩
    · intro hreturned
      have hphase := isReturned_iff.mp hreturned
      have hnil : (s.workers w).unfinalized = [] := by
        simp only [Worker.unfinalized, hphase]
        exact (h.closed w).returned hphase
      simpa [hnil] using hbalance
  · constructor
    · intro hcancelled
      obtain ⟨eptr, hptr⟩ := Option.isSome_iff_exists.mp hcancelled
      obtain ⟨w, c, hc, hthrown⟩ := h.heard.caused eptr hptr
      exact ⟨w, c, hc, by simp [hthrown]⟩
    · rintro ⟨w, c, hc, hthrown⟩
      obtain ⟨eptr, hthrown⟩ := Option.ne_none_iff_exists'.mp hthrown
      rcases h.heard.notified w c hc eptr hthrown with hcancelled | ⟨rest, hphase⟩
      · exact hcancelled
      · rw [isReturned_iff.mp (hreturned w)] at hphase
        exact absurd hphase (by simp)
  · intro w a hreturned hloop
    have hself : (s.advance logicalTasks w a).workers w
        = (s.workers w).advance logicalTasks s.exceptionPtr a := Function.update_self w _ _
    rw [hself]
    refine remaining_advance (fun hphase => ?_) hloop
    rw [isReturned_iff.mpr hphase] at hreturned
    exact absurd hreturned (by simp)

/-- Threads may advance in any order. -/
theorem reached_foldl (choices : List (Fin n × Answer E T))
    (hs : Reached observers logicalTasks s) :
    Reached observers logicalTasks
      (choices.foldl (fun s c => s.advance logicalTasks c.1 c.2) s) := by
  induction choices generalizing s with
  | nil => exact hs
  | cons c choices ih => exact ih (hs.next (.advance c.1 c.2))

/-- One thread with three observers. There is nothing to do, and the second
`on_finalize` throws. -/
def throwingFinalization : State 1 ℕ ℕ ℕ ℕ :=
  let thrown := List.replicate 7 none ++ some 5 :: List.replicate 6 none
  (thrown.map fun e => (Fin.last 0, ({ thrown := e, task := none, isFinished := true } :
    Answer ℕ ℕ))).foldl (fun s c => s.advance [7] c.1 c.2) (start 1 [1, 2, 3])

theorem thread_observers_bracketed_throwing :
    (throwingFinalization.workers 0).isReturned = true ∧
      finalizeCalls (throwingFinalization.workers 0).calls = [3, 2, 1] ∧
      (throwingFinalization.isCancelled = true ↔
        ∃ w, ∃ c ∈ (throwingFinalization.workers w).calls, c.thrown ≠ none) := by
  have hreached : Reached [1, 2, 3] [7] throwingFinalization := reached_foldl _ (.start rfl)
  obtain ⟨hthreads, -, -, hcancelled, -⟩ := thread_observers_bracketed [1, 2, 3] [7] hreached
  have hreturned : (throwingFinalization.workers 0).isReturned = true := by decide
  obtain ⟨-, -, -, -, hfinalized, -⟩ := hthreads 0
  refine ⟨hreturned, ?_, hcancelled fun w => ?_⟩
  · rw [hfinalized hreturned]
    decide
  · rw [Subsingleton.elim w 0]
    exact hreturned

end M3bp.WorkerThread
