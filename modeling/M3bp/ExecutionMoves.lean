import M3bp.EngineMoves
import M3bp.Execution

/-!
Executions that can be evaluated. A move says which thread goes on and what a callback that
ends there throws; tasks are taken and created in a fixed way.
-/
namespace M3bp.Execution

open Engine SchedulerCalls Transition
open WorkerThread (Answer)

variable {n : ℕ} {O E : Type}

instance : DecidablePred MayThrow := fun op => by
  cases op <;> first
    | exact isTrue trivial
    | exact isFalse id

inductive Move (n : ℕ) (E : Type)
  | thread (w : Fin n) (thrown : Option E)
  | executor (thrown : Option E)

section Moves

variable (g : LogicalGraph) (lm : LocalityManager)

namespace State

variable (s : State n O E)

/-- The thread takes a task, its own first, or it learns that there is none to come. -/
def take? (w : Fin n) : Option (State n O E) :=
  if s.engine.system.scheduler.isFinished = true ∨ s.threads.isCancelled = true then
    some (s.advance g w (answer none none))
  else
    match s.engine.system.scheduler.popFront (.unstealable w) with
    | some (t, scheduler) =>
      some ((s.advance g w (answer none (some t))).withEngine (s.engine.take w t scheduler))
    | none =>
      if 0 < lm.nodeCount then
        (s.engine.system.scheduler.popFront (.stealable 0)).map fun (t, scheduler) =>
          (s.advance g w (answer none (some t))).withEngine (s.engine.take w t scheduler)
      else none

/-- The thread steals a task, whatever has been recorded since it looked. -/
def steal? (w : Fin n) : Option (State n O E) :=
  match s.phase w with
  | .taking =>
    if 0 < lm.nodeCount then
      (s.engine.system.scheduler.popFront (.stealable 0)).map fun (t, scheduler) =>
        (s.advance g w (answer none (some t))).withEngine (s.engine.take w t scheduler)
    else none
  | _ => none

/-- The thread goes on with a task; `thrown` is for the operation at the head of it. -/
def work? (w : Fin n) (thrown : Option E) : Option (State n O E) :=
  match s.engine.system.calls (some w), s.phase w, (s.engine.workers w).program, thrown with
  | .committing t, _, _, none =>
    some (s.withEngine { s.engine with system := s.engine.system.commitDecrement lm 0 (some w) t })
  | .draining t (x :: rest), _, _, none =>
    some (s.withEngine { s.engine with system := s.engine.system.drain lm 0 (some w) t x rest })
  | .draining t [], .completing u, _, none =>
    if u = t then
      some ((s.advance g w (answer none none)).withEngine
        { s.engine.setActivity w .idle with
          system := s.engine.system.finishCompletion (some w) t })
    else none
  | .idle, .preparing _, op :: rest, none =>
    some ((s.advance g w (answer none none)).withEngine
      (s.engine.apply w rest (effect g s.engine (plainChoice op) w op)))
  | .idle, .running _, op :: rest, none =>
    let e := effect g s.engine (plainChoice op) w op
    some ((s.withEngine (s.engine.apply w rest e)).record (eventsOf w op e))
  | .idle, .running t, [], none =>
    some ((s.advance g w (answer none none)).withEngine (s.engine.complete w t))
  | .idle, .preparing _, op :: _, some eptr | .idle, .running _, op :: _, some eptr =>
    if MayThrow op then
      some ((s.advance g w (answer (some eptr) none)).record (thrownOf w eptr op))
    else none
  | _, _, _, _ => none

/-- The thread goes on with its sweep at the logical task `l`. -/
def sweep (w : Fin n) (l : ℕ) (thrown : Option E) : State n O E :=
  match s.finalizing w with
  | some l' => (s.advance g w (answer thrown none)).endSweep w l' thrown
  | none =>
    if (s.engine.locals l).threadLocalInitialized w = true then s.beginSweep w l
    else s.advance g w (answer none none)

def move? : Move n E → Option (State n O E)
  | .thread w thrown =>
    match s.phase w with
    | .taking => s.take? g lm w
    | .preparing _ | .running _ | .completing _ => s.work? g lm w thrown
    | .cancelling (l :: _) | .handling (.cancelling (l :: _)) => some (s.sweep g w l thrown)
    | .returned => none
    | _ =>
      some (s.advance g w
        { thrown := thrown, task := none, isFinished := s.engine.system.scheduler.isFinished })
  | .executor thrown =>
    match s.threads.executor, s.globalFinalizing with
    | .cancelling _, some l => some ((s.execute g thrown).endCancel l thrown)
    | .cancelling (l :: _), none =>
      if (s.engine.locals l).globalInitialized = true then some (s.beginCancel l)
      else some (s.execute g none)
    | .joining, _ =>
      if ∀ w, (s.threads.workers w).isReturned = true then some (s.execute g none) else none
    | .cancelling [], none | .notifying _ _, _ => some (s.execute g none)
    | .finished _, _ => none

end State

variable {g lm} {s s' : State n O E} {w : Fin n} {thrown : Option E}

theorem step_of_take? (hphase : s.phase w = .taking) (h : s.take? g lm w = some s') :
    Step g lm s s' := by
  unfold State.take? at h
  split at h
  · next hover =>
    cases h
    exact .takeNothing hphase hover
  · split at h
    · next t scheduler hpop =>
      cases h
      exact .take hphase (.unstealable hpop)
    · split at h
      · next hnode =>
        obtain ⟨⟨t, scheduler⟩, hpop, rfl⟩ := Option.map_eq_some_iff.mp h
        exact .take hphase (.steal hnode hpop)
      · cases h

theorem step_of_steal? (h : s.steal? g lm w = some s') : Step g lm s s' := by
  unfold State.steal? at h
  split at h
  · next hphase =>
    split at h
    · next hnode =>
      obtain ⟨⟨t, scheduler⟩, hpop, rfl⟩ := Option.map_eq_some_iff.mp h
      exact .take hphase (.steal hnode hpop)
    · cases h
  · cases h

theorem performs_plain (g : LogicalGraph) (s : Engine.State n) (w : Fin n) (op : Op) :
    Performs g s w op (effect g s (plainChoice op) w op) := by
  refine .step op (plainChoice op) ?_
  rintro c rfl
  exact c.allows_plainOption

theorem step_of_work? (h : s.work? g lm w thrown = some s') : Step g lm s s' := by
  unfold State.work? at h
  split at h
  · next hcall =>
    cases h
    exact .commitDecrement hcall
  · next hcall =>
    cases h
    exact .drain hcall
  · next hcall hphase =>
    split at h
    · next heq =>
      subst heq
      cases h
      exact .finish hphase hcall
    · cases h
  · next hcall hphase hprogram =>
    cases h
    exact .prepare hphase hprogram (performs_plain g s.engine w _)
  · next hcall hphase hprogram =>
    cases h
    exact .perform hphase hcall hprogram (performs_plain g s.engine w _)
  · next hcall hphase hprogram =>
    cases h
    exact .complete hphase hcall hprogram
  · next hcall hphase hprogram =>
    split at h
    · next hop =>
      cases h
      exact .throws (Or.inl hphase) hcall hprogram hop
    · cases h
  · next hcall hphase hprogram =>
    split at h
    · next hop =>
      cases h
      exact .throws (Or.inr hphase) hcall hprogram hop
    · cases h
  · cases h

theorem step_of_sweep {l : ℕ} (hphase : Cancels l (s.phase w)) :
    Step g lm s (s.sweep g w l thrown) := by
  unfold State.sweep
  split
  · next l' hin => exact .endSweep hin
  · next hin =>
    split
    · next hflag => exact .beginSweep hphase hin hflag
    · next hflag => exact .skipSweep hphase hin (by simpa using hflag)

theorem step_of_move? {move : Move n E} (h : s.move? g lm move = some s') : Step g lm s s' := by
  cases move with
  | thread w thrown =>
    simp only [State.move?] at h
    split at h
    · next hphase => exact step_of_take? hphase h
    · exact step_of_work? h
    · exact step_of_work? h
    · exact step_of_work? h
    · next l todo hphase =>
      cases h
      exact step_of_sweep ⟨todo, Or.inl hphase⟩
    · next l todo hphase =>
      cases h
      exact step_of_sweep ⟨todo, Or.inr hphase⟩
    · cases h
    · next h1 h2 h3 h4 h5 h6 h7 =>
      cases h
      refine .follow ?_ rfl
      cases hphase : s.phase w with
      | taking => exact absurd hphase h1
      | preparing t => exact absurd hphase (h2 t)
      | running t => exact absurd hphase (h3 t)
      | completing t => exact absurd hphase (h4 t)
      | returned => exact absurd hphase h7
      | cancelling todo =>
        cases todo with
        | nil => trivial
        | cons l todo => exact absurd hphase (h5 l todo)
      | handling rest =>
        cases rest with
        | cancelling todo =>
          cases todo with
          | nil => trivial
          | cons l todo => exact absurd hphase (h6 l todo)
        | _ => trivial
      | _ => trivial
  | executor thrown =>
    simp only [State.move?] at h
    split at h
    · next hin =>
      cases h
      exact .endCancel hin
    · next hphase hin =>
      split at h
      · next hflag =>
        cases h
        exact .beginCancel hphase hin hflag
      · next hflag =>
        cases h
        exact .skipCancel hphase hin (by simpa using hflag)
    · next hphase =>
      split at h
      · next hreturned =>
        cases h
        exact .join hphase hreturned
      · cases h
    · next hphase hin =>
      cases h
      exact .conclude hphase
    · next hphase =>
      cases h
      exact .notify hphase
    · cases h

variable (g lm)

/-- The state after the moves, as long as each is possible. -/
def replay? (n : ℕ) (observers : List O) (moves : List (Move n E)) : Option (State n O E) :=
  moves.foldlM (fun s move => s.move? g lm move) (start g lm (fun _ => 0) observers)

variable {g lm}

theorem steps_of_moves? {moves : List (Move n E)}
    (h : moves.foldlM (fun s move => s.move? g lm move) s = some s') :
    Relation.ReflTransGen (Step g lm) s s' := by
  induction moves generalizing s with
  | nil =>
    cases h
    exact .refl
  | cons move moves ih =>
    rw [List.foldlM_cons] at h
    obtain ⟨s₁, hmove, hrest⟩ := Option.bind_eq_some_iff.mp h
    exact .head (step_of_move? hmove) (ih hrest)

theorem reached_later {observers : List O} (hs : Reached g lm observers s)
    (hlater : Relation.ReflTransGen (Step g lm) s s') : Reached g lm observers s' := by
  induction hlater with
  | refl => exact hs
  | tail _ hstep ih => exact ih.next hstep

theorem reached_of_replay? {observers : List O} {moves : List (Move n E)}
    (h : replay? g lm n observers moves = some s) : Reached g lm observers s :=
  reached_later (.start ⟨_, rfl⟩) (steps_of_moves? h)

/-- What a replay ends with is reached by an execution. -/
theorem exists_of_replay? {observers : List O} {moves : List (Move n E)} {p : State n O E → Bool}
    (h : (replay? g lm n observers moves).any p = true) :
    ∃ s : State n O E, Reached g lm observers s ∧ p s = true := by
  obtain ⟨s, hs, hp⟩ := (Option.any_eq_true _ _).mp h
  exact ⟨s, reached_of_replay? hs, hp⟩

end Moves

/-! An execution with one thread and one observer, in which `run` of the first processor throws
7 and then its `global_finalize` throws 9. -/

def throwingMoves (w : Fin n) : List (Move n ℕ) :=
  List.flatten
    [List.replicate 39 (.thread w none), [.thread w (some 7)], List.replicate 8 (.thread w none),
      List.replicate 2 (.executor none), [.executor (some 9)], List.replicate 4 (.executor none)]

theorem exists_throwing : ∃ s : State 1 ℕ ℕ, Reached pipeGraph .default [5] s ∧
    s.threads.executor = .finished (some 7) ∧ s.log.length = 14 := by
  have hreplay : ((replay? pipeGraph .default 1 [5] (throwingMoves 0)).any fun s =>
      decide (s.threads.executor = .finished (some 7)) && s.log.length == 14) = true := by
    decide +kernel
  obtain ⟨s, hs, hend⟩ := exists_of_replay? hreplay
  simp only [Bool.and_eq_true, decide_eq_true_eq, beq_iff_eq] at hend
  exact ⟨s, hs, hend.1, hend.2⟩

/-- The same execution where the first exception has just been recorded. -/
theorem exists_cancelled : ∃ s : State 1 ℕ ℕ, Reached pipeGraph .default [5] s ∧
    s.threads.exceptionPtr = some 7 := by
  have hreplay : ((replay? pipeGraph .default 1 [5] ((throwingMoves 0).take 41)).any fun s =>
      decide (s.threads.exceptionPtr = some 7)) = true := by
    decide +kernel
  obtain ⟨s, hs, hptr⟩ := exists_of_replay? hreplay
  exact ⟨s, hs, of_decide_eq_true hptr⟩

/-! An execution with two threads. The first throws 7 in `global_initialize` of the first
processor; the second has looked at `is_cancelled` before and takes a task after that. -/

def racingMoves : List (Move 2 ℕ) :=
  List.flatten
    [List.replicate 3 (.thread 1 none), List.replicate 7 (.thread 0 none),
      [.thread 0 (some 7), .thread 0 none]]

def joiningMoves : List (Move 2 ℕ) :=
  List.flatten
    [List.replicate 16 (.thread 1 none), List.replicate 6 (.thread 0 none),
      List.replicate 5 (.executor none)]

theorem exists_raced : ∃ s s' : State 2 ℕ ℕ, Reached pipeGraph .default [5] s ∧
    s.threads.exceptionPtr = some 7 ∧ s.phase 0 ≠ .taking ∧ s.phase 1 = .taking ∧
    Relation.ReflTransGen (Step pipeGraph .default) s s' ∧
    s'.threads.executor = .finished (some 7) ∧
    .taken 3 ∉ s.engine.system.log ∧ .taken 3 ∈ s'.engine.system.log := by
  have hreplay : ((replay? pipeGraph .default 2 [5] racingMoves).any fun s =>
      decide (s.threads.exceptionPtr = some 7 ∧ s.phase 0 ≠ .taking ∧ s.phase 1 = .taking ∧
        .taken 3 ∉ s.engine.system.log) &&
      ((s.steal? pipeGraph .default 1).bind fun s₁ =>
        joiningMoves.foldlM (fun (s : State 2 ℕ ℕ) move => s.move? pipeGraph .default move) s₁).any
          fun s' => decide (s'.threads.executor = .finished (some 7) ∧
            .taken 3 ∈ s'.engine.system.log)) = true := by
    decide +kernel
  obtain ⟨s, hs, hend⟩ := exists_of_replay? hreplay
  obtain ⟨hcut, hrest⟩ := (Bool.and_eq_true _ _).mp hend
  obtain ⟨hptr, hfirst, hsecond, hnot⟩ := of_decide_eq_true hcut
  obtain ⟨s', hmoves, hjoined⟩ := (Option.any_eq_true _ _).mp hrest
  obtain ⟨s₁, hsteal, hmoves⟩ := Option.bind_eq_some_iff.mp hmoves
  obtain ⟨hfinished, htaken⟩ := of_decide_eq_true hjoined
  exact ⟨s, s', hs, hptr, hfirst, hsecond, .head (step_of_steal? hsteal) (steps_of_moves? hmoves),
    hfinished, hnot, htaken⟩

theorem waits_pipe : Waits pipeGraph :=
  (shape_of_build build_pipe acyclic_pipe definedMovements_pipe).waits

end M3bp.Execution
