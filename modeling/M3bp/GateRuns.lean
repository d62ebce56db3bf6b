import M3bp.ProcessGate
import M3bp.Transition

/-!
The gate under any sequence of calls. A call of `notify_completion` belongs to a
command that the gate has committed to the scheduler, a different one each time.
-/
namespace M3bp.ProcessGate

open Transition

variable {C : Type}

/-- The gate with the commands that were submitted to it, those that it has committed,
both in order, and the number of calls of `notify_completion`. -/
structure History (C : Type) where
  gate : Gate C
  submitted : List C
  committed : List C
  notified : ℕ

namespace History

def initial (limit : UInt64) : History C :=
  { gate := { remainingConcurrency := limit, taskQueue := [] }
    submitted := []
    committed := []
    notified := 0 }

variable (h : History C)

def submit (task : C) : History C :=
  { h with
    gate := (h.gate.commitProcessCommand task).1
    submitted := h.submitted ++ [task]
    committed := h.committed ++ (h.gate.commitProcessCommand task).2 }

def notify : History C :=
  { h with
    gate := h.gate.notifyCompletion.1
    committed := h.committed ++ h.gate.notifyCompletion.2
    notified := h.notified + 1 }

inductive Step : History C → History C → Prop
  | submit (h : History C) (task : C) : Step h (h.submit task)
  | notify (h : History C) (hcommitted : h.notified < h.committed.length) : Step h h.notify

def Run (limit : UInt64) : History C → Prop := Reachable (fun h => h = initial limit) Step

/-- A slot is free or belongs to a command that is committed and not yet notified, and
nothing waits while a slot is free. -/
structure Conserved (limit : UInt64) (h : History C) : Prop where
  slots : h.gate.remainingConcurrency.toNat + h.committed.length = limit.toNat + h.notified
  notified : h.notified ≤ h.committed.length
  waiting : h.gate.taskQueue ≠ [] → h.gate.remainingConcurrency = 0
  order : h.committed ++ h.gate.taskQueue = h.submitted

variable {limit : UInt64} {h}

theorem conserved_initial : Conserved limit (initial limit : History C) :=
  ⟨rfl, Nat.le_refl _, fun hne => absurd rfl hne, rfl⟩

theorem Conserved.submit (hinv : Conserved limit h) (task : C) : Conserved limit (h.submit task) := by
  have hslots := slots_commitProcessCommand h.gate task
  refine ⟨?_, ?_, ?_, ?_⟩
  · have hold := hinv.slots
    simp only [History.submit, List.length_append]
    omega
  · have hold := hinv.notified
    simp only [History.submit, List.length_append]
    omega
  · intro hne
    by_cases hzero : h.gate.remainingConcurrency = 0
    · simp [History.submit, Gate.commitProcessCommand, hzero]
    · have hqueue : h.gate.taskQueue ≠ [] := by
        simpa [History.submit, Gate.commitProcessCommand, hzero] using hne
      exact absurd (hinv.waiting hqueue) hzero
  · have horder := hinv.order
    by_cases hzero : h.gate.remainingConcurrency = 0
    · simp [History.submit, Gate.commitProcessCommand, hzero, ← horder]
    · -- with a free slot the queue is empty, so the new command overtakes nothing
      have hqueue : h.gate.taskQueue = [] := by
        by_contra hne
        exact hzero (hinv.waiting hne)
      rw [hqueue, List.append_nil] at horder
      simp [History.submit, Gate.commitProcessCommand, hzero, hqueue, horder]

/-- The loop of `notify_completion` ends with an empty queue or without a slot. -/
theorem waiting_release (remaining : UInt64) (queue : List C)
    (hne : (release remaining queue).1.taskQueue ≠ []) :
    (release remaining queue).1.remainingConcurrency = 0 := by
  induction queue generalizing remaining with
  | nil => exact absurd rfl hne
  | cons task queue ih =>
    by_cases hpos : 0 < remaining
    · simp only [release, hpos, if_true] at hne ⊢
      exact ih (remaining - 1) hne
    · have hzero : remaining = 0 := by
        refine UInt64.toNat_inj.mp ?_
        have hle : ¬ 0 < remaining.toNat := fun hlt => hpos (UInt64.lt_iff_toNat_lt.mpr hlt)
        simp only [UInt64.toNat_zero]
        omega
      simp [release, hzero]

theorem Conserved.notify (hinv : Conserved limit h) (hcommitted : h.notified < h.committed.length) :
    Conserved limit h.notify := by
  have hold := hinv.slots
  have hlimit := limit.toNat_lt
  have hslots := slots_notifyCompletion h.gate (by omega)
  refine ⟨?_, ?_, ?_, ?_⟩
  · simp only [History.notify, List.length_append]
    omega
  · simp only [History.notify, List.length_append]
    omega
  · exact fun hne => waiting_release _ _ hne
  · have horder := hinv.order
    rw [← release_append (h.gate.remainingConcurrency + 1) h.gate.taskQueue] at horder
    simp only [History.notify, List.append_assoc]
    exact horder

theorem run_conserved (hrun : Run limit h) : Conserved limit h := by
  refine Inductive.reachable ⟨?_, ?_⟩ hrun
  · rintro _ rfl
    exact conserved_initial
  · intro h h' hinv hstep
    cases hstep with
    | submit task => exact hinv.submit task
    | notify hcommitted => exact hinv.notify hcommitted

variable [DecidableEq C]

/-- The gate loses, doubles and reorders nothing: in every state the free slots and the
commands that are committed and not yet notified add up to the limit, nothing waits
beside a free slot, and the commands committed so far are the first ones submitted,
with the others in the queue. -/
theorem gate_conserves (hrun : Run limit h) :
    h.gate.remainingConcurrency.toNat + (h.committed.length - h.notified) = limit.toNat ∧
      h.notified ≤ h.committed.length ∧
      (h.gate.taskQueue ≠ [] → h.gate.remainingConcurrency = 0) ∧
      h.committed ++ h.gate.taskQueue = h.submitted ∧
      ∀ task, h.committed.count task + h.gate.taskQueue.count task = h.submitted.count task := by
  have hinv := run_conserved hrun
  have hslots := hinv.slots
  have hnotified := hinv.notified
  refine ⟨by omega, hnotified, hinv.waiting, hinv.order, fun task => ?_⟩
  rw [← hinv.order, List.count_append]

/-- Of three commands behind the limit 1 the second follows when the first is through. -/
theorem gate_conserves_three :
    ∃ h : History ℕ, h.committed = [0, 1] ∧ h.gate.taskQueue = [2] ∧ h.submitted = [0, 1, 2] ∧
      h.gate.remainingConcurrency.toNat + (h.committed.length - h.notified) = (1 : UInt64).toNat := by
  have hrun : Run 1 (((((initial 1 : History ℕ).submit 0).submit 1).submit 2).notify) :=
    .next (.next (.next (.next (.start rfl) (.submit _ 0)) (.submit _ 1)) (.submit _ 2))
      (.notify _ (by decide))
  exact ⟨_, rfl, rfl, rfl, (gate_conserves hrun).1⟩

end History

end M3bp.ProcessGate
