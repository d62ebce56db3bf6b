import M3bp.ExecutionOutcome

/-!
What an execution still does after a cancellation. The exception that has been recorded stays,
and it is the one that is rethrown in the end; a worker that has been waiting for a task takes
one more at most, and the others take none.
-/
namespace M3bp.Execution

open Finset Engine SchedulerCalls Transition
open WorkerThread (Answer)

variable {n : ℕ} {O E : Type}

def isTaking : WorkerThread.Phase O E TaskId ℕ → Bool
  | .taking => true
  | _ => false

/-- The workers that are waiting for a task. -/
def waiting (s : State n O E) : Finset (Fin n) := univ.filter fun w => isTaking (s.phase w) = true

section Threads

variable {u : WorkerThread.Worker O E TaskId ℕ} {tasks : List ℕ} {ptr : Option E}
  {a : Answer E TaskId}

/-- A thread that knows of an exception does not wait for another task. -/
theorem isTaking_advance (hptr : ptr.isSome = true) :
    isTaking (u.advance tasks ptr a).phase = false := by
  have hcall : ∀ {v : WorkerThread.Worker O E TaskId ℕ} {pass callback thrown next rest},
      isTaking next = false → isTaking (v.call pass callback thrown next rest).phase = false := by
    intro v pass callback thrown next rest hnext
    cases thrown with
    | none => exact hnext
    | some eptr => rfl
  cases hphase : u.phase with
  | initializing todo =>
    cases todo with
    | nil => simp only [WorkerThread.Worker.advance, hphase]; rfl
    | cons observer todo =>
      simp only [WorkerThread.Worker.advance, hphase]
      cases a.thrown <;> rfl
  | looping =>
    obtain ⟨eptr, rfl⟩ := Option.isSome_iff_exists.mp hptr
    simp only [WorkerThread.Worker.advance, hphase]
    rfl
  | taking =>
    simp only [WorkerThread.Worker.advance, hphase]
    split <;> rfl
  | leaving =>
    simp only [WorkerThread.Worker.advance, hphase]
    split <;> rfl
  | preparing t | running t =>
    simp only [WorkerThread.Worker.advance, hphase]
    exact hcall rfl
  | cancelling todo =>
    cases todo with
    | nil => simp only [WorkerThread.Worker.advance, hphase]; rfl
    | cons l todo =>
      simp only [WorkerThread.Worker.advance, hphase]
      exact hcall rfl
  | finalizing =>
    simp only [WorkerThread.Worker.advance, hphase]
    split
    · rfl
    · exact hcall rfl
  | handling rest =>
    cases rest with
    | cancelling todo =>
      simp only [WorkerThread.Worker.advance, hphase]
      cases todo with
      | nil => rfl
      | cons l todo => exact hcall rfl
    | finalizing =>
      simp only [WorkerThread.Worker.advance, hphase]
      split
      · rfl
      · exact hcall rfl
    | popping =>
      simp only [WorkerThread.Worker.advance, hphase]
      rfl
  | completing t | notifying eptr rest =>
    simp only [WorkerThread.Worker.advance, hphase]
    rfl
  | returned =>
    simp only [WorkerThread.Worker.advance, hphase]
    rfl

end Threads

section Later

variable {g : LogicalGraph} {lm : LocalityManager} {observers : List O} {s s' : State n O E}
  {w : Fin n} {a : Answer E TaskId} {eptr : E} {thrown : Option E}

/-- The workers that `w` leaves waiting when it goes on. -/
theorem waiting_advance (hcancelled : s.threads.isCancelled = true) (w : Fin n)
    (a : Answer E TaskId) : waiting (s.advance g w a) = (waiting s).erase w := by
  ext w'
  by_cases hw : w' = w
  · subst hw
    simp [waiting, phase_advance_self, isTaking_advance hcancelled]
  · simp [waiting, phase_advance_of_ne s g hw a, hw]

theorem waiting_execute (thrown : Option E) : waiting (s.execute g thrown) = waiting s := by
  simp only [waiting, phase_execute]

theorem exceptionPtr_step (hwaits : Waits g) (hs : Reached g lm observers s)
    (hptr : s.threads.exceptionPtr = some eptr) (hstep : Step g lm s s') :
    s'.threads.exceptionPtr = some eptr := by
  have hadvance : ∀ (w : Fin n) (a : Answer E TaskId),
      (s.advance g w a).threads.exceptionPtr = some eptr := by
    intro w a
    simp only [State.advance, WorkerThread.State.advance, WorkerThread.Worker.notify, hptr]
    split <;> rfl
  have hexecute : ∀ thrown, (s.execute g thrown).threads.exceptionPtr = some eptr := fun thrown =>
    ((coupled_reached hwaits hs).heard.execute_exceptionPtr _ thrown).trans hptr
  cases hstep with
  | perform | commitDecrement | drain | beginSweep | beginCancel => exact hptr
  | join | notify | conclude | skipCancel | endCancel => exact hexecute _
  | _ => exact hadvance _ _

/-- Which tasks a step takes while the execution is cancelled. -/
theorem taken_step (hwaits : Waits g) (hs : Reached g lm observers s)
    (hcancelled : s.threads.isCancelled = true) (hstep : Step g lm s s') :
    ∃ tasks : Finset TaskId, tasks.card + (waiting s').card ≤ (waiting s).card ∧
      ∀ t, .taken t ∈ s'.engine.system.log → .taken t ∈ s.engine.system.log ∨ t ∈ tasks := by
  have hcoupled := coupled_reached hwaits hs
  have hinv := cancel_invariant hwaits hcoupled.engine
  have hadvance : ∀ (w : Fin n) (a : Answer E TaskId),
      (∅ : Finset TaskId).card + (waiting (s.advance g w a)).card ≤ (waiting s).card := by
    intro w a
    rw [waiting_advance hcancelled, card_empty, Nat.zero_add]
    exact card_le_card (erase_subset _ _)
  have hsame : (∅ : Finset TaskId).card + (waiting s).card ≤ (waiting s).card := by simp
  have hexecute : ∀ thrown,
      (∅ : Finset TaskId).card + (waiting (s.execute g thrown)).card ≤ (waiting s).card := by
    intro thrown
    rw [waiting_execute]
    exact hsame
  have hperform : ∀ {w t op rest e}, (s.engine.workers w).activity = .running t →
      s.engine.system.calls (some w) = .idle → (s.engine.workers w).program = op :: rest →
        Performs g s.engine w op e → ∀ u, .taken u ∈ (s.engine.apply w rest e).system.log →
          .taken u ∈ s.engine.system.log ∨ u ∈ (∅ : Finset TaskId) := by
    intro w t op rest e hrunning hcall hprogram heffect u hu
    exact Or.inl ((taken_perform
      (performed hinv.run hcall (hinv.action_valid hrunning hprogram heffect))).mp hu)
  cases hstep with
  | @take w q t scheduler hphase hpop =>
    refine ⟨{t}, ?_, fun u hu => ?_⟩
    · show _ + (waiting (s.advance g w (answer none (some t)))).card ≤ _
      have hmem : w ∈ waiting s := mem_filter.mpr ⟨mem_univ w, by rw [hphase]; rfl⟩
      rw [waiting_advance hcancelled, card_singleton, card_erase_of_mem hmem]
      have hpos := card_pos.mpr ⟨w, hmem⟩
      omega
    · have hu' : u = t ∨ .taken u ∈ s.engine.system.log := by
        simpa [State.withEngine, Engine.State.take, System.take] using hu
      rcases hu' with rfl | hold
      · exact Or.inr (mem_singleton_self _)
      · exact Or.inl hold
  | @prepare w t op rest e hphase hprogram heffect =>
    have hworker := hcoupled.workers w
    rw [hphase] at hworker
    exact ⟨∅, hadvance w _, hperform hworker.1 hworker.2.1 hprogram heffect⟩
  | @perform w t op rest e hphase hcall hprogram heffect =>
    have hworker := hcoupled.workers w
    rw [hphase] at hworker
    exact ⟨∅, hsame, hperform hworker hcall hprogram heffect⟩
  | @complete w t hphase hcall hprogram =>
    exact ⟨∅, hadvance w _, fun u hu => Or.inl (taken_complete.mp hu)⟩
  | commitDecrement hcall =>
    exact ⟨∅, hsame, fun u hu => Or.inl ((taken_decrement (by simp)).mp hu)⟩
  | drain hcall =>
    exact ⟨∅, hsame, fun u hu => Or.inl ((taken_decrement (by simp)).mp hu)⟩
  | @finish w t hphase hcall =>
    refine ⟨∅, hadvance w _, fun u hu => Or.inl ?_⟩
    simpa [State.withEngine, System.finishCompletion] using hu
  | beginSweep | beginCancel => exact ⟨∅, hsame, fun u hu => Or.inl hu⟩
  | join | notify | conclude | skipCancel => exact ⟨∅, hexecute _, fun u hu => Or.inl hu⟩
  | @endCancel l thrown hin =>
    refine ⟨∅, hexecute thrown, fun u hu => Or.inl ?_⟩
    cases thrown <;> exact hu
  | _ => exact ⟨∅, hadvance _ _, fun u hu => Or.inl hu⟩

/-- After a cancellation the first exception stays and is rethrown in the end, and no more
tasks are taken than there are workers that wait for one. -/
theorem later_of_cancelled (hwaits : Waits g) (hs : Reached g lm observers s)
    (hptr : s.threads.exceptionPtr = some eptr)
    (hlater : Relation.ReflTransGen (Step g lm) s s') :
    s'.threads.exceptionPtr = some eptr ∧
      (∀ thrown, s'.threads.executor = .finished thrown → thrown = some eptr) ∧
      ∃ tasks : Finset TaskId, tasks.card + (waiting s').card ≤ (waiting s).card ∧
        ∀ t, .taken t ∈ s'.engine.system.log → .taken t ∈ s.engine.system.log ∨ t ∈ tasks := by
  suffices h : s'.threads.exceptionPtr = some eptr ∧
      ∃ tasks : Finset TaskId, tasks.card + (waiting s').card ≤ (waiting s).card ∧
        ∀ t, .taken t ∈ s'.engine.system.log → .taken t ∈ s.engine.system.log ∨ t ∈ tasks by
    refine ⟨h.1, fun thrown hfinished => ?_, h.2⟩
    rw [thrown_of_finished hwaits (reached_later hs hlater) hfinished, h.1]
  induction hlater with
  | refl => exact ⟨hptr, ∅, by simp, fun t ht => Or.inl ht⟩
  | @tail s₁ s₂ hbefore hstep ih =>
    obtain ⟨hptr₁, tasks, hcard, htaken⟩ := ih
    have hs₁ := reached_later hs hbefore
    obtain ⟨more, hcard', htaken'⟩ := taken_step hwaits hs₁
      (by rw [WorkerThread.State.isCancelled, hptr₁]; rfl) hstep
    refine ⟨exceptionPtr_step hwaits hs₁ hptr₁ hstep, more ∪ tasks, ?_, fun t ht => ?_⟩
    · have hunion := card_union_le more tasks
      omega
    · rcases htaken' t ht with hold | hnew
      · exact (htaken t hold).imp_right (mem_union_right _)
      · exact Or.inr (mem_union_left _ hnew)

/-- One of two workers is waiting when the other's exception is recorded. It still takes a
task, and that is the only one. -/
theorem later_of_cancelled_racing : ∃ s s' : State 2 ℕ ℕ,
    s.threads.exceptionPtr = some 7 ∧ s'.threads.executor = .finished (some 7) ∧
      s'.threads.exceptionPtr = some 7 ∧ (waiting s).card = 1 ∧
      .taken 3 ∉ s.engine.system.log ∧ .taken 3 ∈ s'.engine.system.log ∧
      ∀ t, .taken t ∈ s'.engine.system.log → .taken t ∈ s.engine.system.log ∨ t = 3 := by
  obtain ⟨s, s', hs, hptr, hfirst, hsecond, hlater, hfinished, hnot, htaken⟩ := exists_raced
  obtain ⟨hptr', -, tasks, hcard, hbound⟩ := later_of_cancelled waits_pipe hs hptr hlater
  have hfirst' : isTaking (s.phase 0) = false := by
    cases hphase : s.phase 0 with
    | taking => exact absurd hphase hfirst
    | _ => rfl
  have hsecond' : isTaking (s.phase 1) = true := by rw [hsecond, isTaking]
  have hwaiting : waiting s = {1} := by
    ext w
    fin_cases w <;> simp [waiting, hfirst', hsecond']
  have hone : (waiting s).card = 1 := by rw [hwaiting, card_singleton]
  have hmem : 3 ∈ tasks := (hbound 3 htaken).resolve_left hnot
  refine ⟨s, s', hptr, hfinished, hptr', hone, hnot, htaken, fun t ht => ?_⟩
  refine (hbound t ht).imp_right fun hnew => ?_
  exact card_le_one.mp (by omega) t hnew 3 hmem

end Later

end M3bp.Execution
