import M3bp.Scheduler

/-!
The gate in front of a processor's commands. `ProcessLogicalTaskBase` counts the
commands it may still hand to the scheduler; a command that finds the counter at
zero waits in a queue until another one has completed. Both operations run
under `m_local_queue_mutex`, so each is one step. The counter is a `size_type`.
-/
namespace M3bp.ProcessGate

variable {C : Type}

/-- `m_remaining_concurrency` and `m_task_queue`. -/
structure Gate (C : Type) where
  remainingConcurrency : UInt64
  taskQueue : List C
  deriving DecidableEq, Repr

/-- `commit_process_command`, with the commands it commits to the scheduler. -/
def Gate.commitProcessCommand (g : Gate C) (task : C) : Gate C × List C :=
  if g.remainingConcurrency = 0 then
    ({ g with taskQueue := g.taskQueue ++ [task] }, [])
  else
    ({ g with remainingConcurrency := g.remainingConcurrency - 1 }, [task])

/-- The loop of `notify_completion`. -/
def release (remaining : UInt64) : List C → Gate C × List C
  | [] => (⟨remaining, []⟩, [])
  | task :: queue =>
    if 0 < remaining then
      let (g, committed) := release (remaining - 1) queue
      (g, task :: committed)
    else
      (⟨remaining, task :: queue⟩, [])

/-- `notify_completion`, with the commands it commits to the scheduler. -/
def Gate.notifyCompletion (g : Gate C) : Gate C × List C :=
  release (g.remainingConcurrency + 1) g.taskQueue

theorem toNat_pred {r : UInt64} (h : r ≠ 0) : (r - 1).toNat + 1 = r.toNat := by
  have hpos : 1 ≤ r.toNat := Nat.one_le_iff_ne_zero.mpr (fun hzero => h (UInt64.toNat_inj.mp hzero))
  have hsub : (r - 1).toNat = r.toNat - 1 :=
    UInt64.toNat_sub_of_le r 1 (UInt64.le_iff_toNat_le.mpr hpos)
  omega

/-- A slot goes to each command that is committed. -/
theorem slots_commitProcessCommand (g : Gate C) (task : C) :
    (g.commitProcessCommand task).1.remainingConcurrency.toNat
      + (g.commitProcessCommand task).2.length = g.remainingConcurrency.toNat := by
  by_cases hzero : g.remainingConcurrency = 0
  · simp [Gate.commitProcessCommand, hzero]
  · simp [Gate.commitProcessCommand, hzero, toNat_pred hzero]

theorem slots_release (remaining : UInt64) (queue : List C) :
    (release remaining queue).1.remainingConcurrency.toNat
      + (release remaining queue).2.length = remaining.toNat := by
  induction queue generalizing remaining with
  | nil => simp [release]
  | cons task queue ih =>
    by_cases hpos : 0 < remaining
    · have hne : remaining ≠ 0 := by
        rintro rfl
        exact absurd hpos (by decide)
      have hrest := ih (remaining - 1)
      have hpred := toNat_pred hne
      simp only [release, hpos, if_true, List.length_cons]
      omega
    · simp [release, hpos]

/-- A completion gives one slot back, which the waiting commands may take. -/
theorem slots_notifyCompletion (g : Gate C) (h : g.remainingConcurrency.toNat + 1 < 2 ^ 64) :
    g.notifyCompletion.1.remainingConcurrency.toNat + g.notifyCompletion.2.length
      = g.remainingConcurrency.toNat + 1 := by
  have hsum : (g.remainingConcurrency + 1).toNat = g.remainingConcurrency.toNat + 1 := by
    rw [UInt64.toNat_add]
    exact Nat.mod_eq_of_lt h
  rw [← hsum]
  exact slots_release _ _

/-- The commands leave the queue in order. -/
theorem release_append (remaining : UInt64) (queue : List C) :
    (release remaining queue).2 ++ (release remaining queue).1.taskQueue = queue := by
  induction queue generalizing remaining with
  | nil => rfl
  | cons task queue ih =>
    by_cases hpos : 0 < remaining
    · simp [release, hpos, ih]
    · simp [release, hpos]

section Map

variable {D : Type} (f : C → D)

/-- The gate with other names for its commands. -/
def Gate.map (g : Gate C) : Gate D :=
  { remainingConcurrency := g.remainingConcurrency, taskQueue := g.taskQueue.map f }

theorem commitProcessCommand_map (g : Gate C) (task : C) :
    (g.map f).commitProcessCommand (f task) =
      ((g.commitProcessCommand task).1.map f, (g.commitProcessCommand task).2.map f) := by
  by_cases hzero : g.remainingConcurrency = 0
  · simp [Gate.commitProcessCommand, Gate.map, hzero]
  · simp [Gate.commitProcessCommand, Gate.map, hzero]

theorem release_map (remaining : UInt64) (queue : List C) :
    release remaining (queue.map f) =
      ((release remaining queue).1.map f, (release remaining queue).2.map f) := by
  induction queue generalizing remaining with
  | nil => rfl
  | cons task queue ih =>
    by_cases hpos : 0 < remaining
    · simp [release, hpos, ih]
    · simp [release, hpos, Gate.map]

theorem notifyCompletion_map (g : Gate C) :
    (g.map f).notifyCompletion = (g.notifyCompletion.1.map f, g.notifyCompletion.2.map f) :=
  release_map f _ _

end Map

variable [DecidableEq C]

/-- A command that is submitted is committed or waits. -/
theorem count_commitProcessCommand (g : Gate C) (task t : C) :
    (g.commitProcessCommand task).2.count t + (g.commitProcessCommand task).1.taskQueue.count t =
      g.taskQueue.count t + if task = t then 1 else 0 := by
  by_cases hzero : g.remainingConcurrency = 0
  · simp [Gate.commitProcessCommand, hzero, List.count_singleton]
  · simp [Gate.commitProcessCommand, hzero, List.count_singleton, Nat.add_comm]

theorem count_notifyCompletion (g : Gate C) (t : C) :
    g.notifyCompletion.2.count t + g.notifyCompletion.1.taskQueue.count t =
      g.taskQueue.count t := by
  rw [← List.count_append, Gate.notifyCompletion, release_append]

end M3bp.ProcessGate
