import M3bp.ProcessGate
import M3bp.Transition
import Mathlib.Data.Finset.Card

/-!
How many `run` calls of one processor are in progress at once. The gate takes its
number of slots from the processor when the logical task is constructed, before
`global_initialize` has had its chance to call `max_concurrency`. The rest of the
engine is left open: commands are submitted at any time and by anyone, and a
committed command may be taken by any worker that has nothing to do once
`global_initialize` has returned.
-/
namespace M3bp.ProcessGate

open Transition

/-- What a processor keeps for `max_concurrency`; the default is the largest
value of `size_type`. -/
structure Processor where
  maxConcurrency : UInt64 := 0xffffffffffffffff
  deriving DecidableEq, Repr

/-- The setter `max_concurrency`. -/
def Processor.setMaxConcurrency (p : Processor) (newConcurrency : UInt64) : Processor :=
  { p with maxConcurrency := newConcurrency }

/-- A processor's calls of the setter in its constructor and in
`global_initialize`, in order. -/
structure ProcessorClass where
  inConstructor : List UInt64
  inGlobalInitialize : List UInt64
  deriving DecidableEq, Repr

namespace ProcessorClass

variable (c : ProcessorClass)

def constructed : Processor :=
  c.inConstructor.foldl Processor.setMaxConcurrency {}

def globalInitialize (p : Processor) : Processor :=
  c.inGlobalInitialize.foldl Processor.setMaxConcurrency p

/-- The value of `max_concurrency()` when `global_initialize` returns. -/
def inForce : UInt64 := (c.globalInitialize c.constructed).maxConcurrency

end ProcessorClass

/-- `ThreadLocalFinalizeCommand` or one of the run commands. -/
inductive Kind
  | run
  | threadLocalFinalize
  deriving DecidableEq, Repr

structure Command where
  task : TaskId
  kind : Kind
  deriving DecidableEq, Repr

/-- How far a worker is inside `ProcessCommandWrapper`: up to the call of the
processor's `run` (`prepare` and `thread_local_initialize` included), in that
call, and after it. -/
inductive Phase
  | begun
  | inRun
  | returned
  deriving DecidableEq, Repr

structure Job where
  worker : WorkerId
  command : Command
  phase : Phase
  deriving DecidableEq, Repr

structure State where
  processor : Processor
  globalInitialized : Bool
  gate : Gate Command
  submitted : List Command
  /-- Committed to the scheduler and not taken yet. -/
  committed : List Command
  jobs : List Job
  deriving DecidableEq, Repr

/-- The constructor of `ProcessLogicalTaskBase`. -/
def construct (p : Processor) : State :=
  { processor := p, globalInitialized := false
    gate := { remainingConcurrency := p.maxConcurrency, taskQueue := [] }
    submitted := [], committed := [], jobs := [] }

namespace State

/-- The run commands that have been submitted. -/
def runCommands (s : State) : ℕ := s.submitted.countP (fun command => command.kind = .run)

/-- The calls of `run` in progress. -/
def runsInProgress (s : State) : ℕ := s.jobs.countP (fun j => j.phase = .inRun)

def submit (s : State) (command : Command) : State :=
  { s with
    gate := (s.gate.commitProcessCommand command).1
    submitted := command :: s.submitted
    committed := s.committed ++ (s.gate.commitProcessCommand command).2 }

def take (s : State) (worker : WorkerId) (command : Command) : State :=
  { s with
    committed := s.committed.erase command
    jobs := ⟨worker, command, .begun⟩ :: s.jobs }

def advance (s : State) (job : Job) (phase : Phase) : State :=
  { s with jobs := { job with phase := phase } :: s.jobs.erase job }

def notifyCompletion (s : State) (job : Job) : State :=
  { s with
    gate := s.gate.notifyCompletion.1
    committed := s.committed ++ s.gate.notifyCompletion.2
    jobs := s.jobs.erase job }

/-- An exception leaves `ProcessCommandWrapper::run` before the completion is
notified. -/
def throw (s : State) (job : Job) : State := { s with jobs := s.jobs.erase job }

end State

inductive Step (workers : ℕ) (c : ProcessorClass) : State → State → Prop
  | globalInitialize {s : State} : s.globalInitialized = false →
      Step workers c s
        { s with processor := c.globalInitialize s.processor, globalInitialized := true }
  | submit {s : State} {command : Command} : command.task ∉ s.submitted.map Command.task →
      Step workers c s (s.submit command)
  | take {s : State} {worker : WorkerId} {command : Command} : worker < workers →
      worker ∉ s.jobs.map Job.worker → s.globalInitialized = true → command ∈ s.committed →
      Step workers c s (s.take worker command)
  | callRun {s : State} {job : Job} : job ∈ s.jobs → job.phase = .begun →
      job.command.kind = .run → Step workers c s (s.advance job .inRun)
  | returnRun {s : State} {job : Job} : job ∈ s.jobs → job.phase = .inRun →
      Step workers c s (s.advance job .returned)
  | threadLocalFinalize {s : State} {job : Job} : job ∈ s.jobs → job.phase = .begun →
      job.command.kind = .threadLocalFinalize → Step workers c s (s.advance job .returned)
  | throw {s : State} {job : Job} : job ∈ s.jobs → job.phase ≠ .returned →
      Step workers c s (s.throw job)
  | notifyCompletion {s : State} {job : Job} : job ∈ s.jobs → job.phase = .returned →
      Step workers c s (s.notifyCompletion job)

/-- What the life of a processor of class `c` reaches with so many workers. -/
def Run (workers : ℕ) (c : ProcessorClass) : State → Prop :=
  Reachable (fun s => s = construct c.constructed) (Step workers c)

/-- Every slot taken and not given back is held by a committed command or by a
job, and a worker has at most one job. -/
structure SlotInv (workers : ℕ) (limit : UInt64) (s : State) : Prop where
  slots : s.gate.remainingConcurrency.toNat + s.committed.length + s.jobs.length ≤ limit.toNat
  busy : (s.jobs.map Job.worker).Nodup
  inRange : ∀ j ∈ s.jobs, j.worker < workers

variable {workers : ℕ} {c : ProcessorClass} {limit : UInt64} {s : State}

theorem SlotInv.submit (h : SlotInv workers limit s) (command : Command) :
    SlotInv workers limit (s.submit command) := by
  have hslots := slots_commitProcessCommand s.gate command
  have hlimit := h.slots
  refine ⟨?_, h.busy, h.inRange⟩
  simp only [State.submit, List.length_append]
  omega

theorem SlotInv.take (h : SlotInv workers limit s) {worker : WorkerId} {command : Command}
    (hworker : worker < workers) (hidle : worker ∉ s.jobs.map Job.worker)
    (hcommitted : command ∈ s.committed) : SlotInv workers limit (s.take worker command) := by
  have hlimit := h.slots
  have hpos := List.length_pos_of_mem hcommitted
  refine ⟨?_, List.nodup_cons.mpr ⟨hidle, h.busy⟩, ?_⟩
  · simp only [State.take, List.length_cons, List.length_erase_of_mem hcommitted]
    omega
  · intro j hj
    rcases List.mem_cons.mp hj with rfl | hj
    · exact hworker
    · exact h.inRange j hj

/-- A job leaves. -/
theorem SlotInv.throw (h : SlotInv workers limit s) (job : Job) :
    SlotInv workers limit (s.throw job) := by
  have hlimit := h.slots
  have hle := List.length_erase_le (a := job) (l := s.jobs)
  refine ⟨?_, h.busy.sublist (List.erase_sublist.map _), ?_⟩
  · simp only [State.throw]
    omega
  · intro j hj
    exact h.inRange j (List.mem_of_mem_erase hj)

/-- A job goes on to another phase. -/
theorem SlotInv.advance (h : SlotInv workers limit s) {job : Job} (hjob : job ∈ s.jobs)
    (phase : Phase) : SlotInv workers limit (s.advance job phase) := by
  have hlimit := h.slots
  have hpos := List.length_pos_of_mem hjob
  have hperm : (job :: s.jobs.erase job).Perm s.jobs := (List.perm_cons_erase hjob).symm
  refine ⟨?_, ?_, ?_⟩
  · simp only [State.advance, List.length_cons, List.length_erase_of_mem hjob]
    omega
  · exact (hperm.map Job.worker).nodup_iff.mpr h.busy
  · intro j hj
    rcases List.mem_cons.mp hj with rfl | hj
    · exact h.inRange job hjob
    · exact h.inRange j (List.mem_of_mem_erase hj)

theorem SlotInv.notifyCompletion (h : SlotInv workers limit s) {job : Job}
    (hjob : job ∈ s.jobs) : SlotInv workers limit (s.notifyCompletion job) := by
  have hlimit := h.slots
  have hpos := List.length_pos_of_mem hjob
  have hbound := limit.toNat_lt
  have hslots := slots_notifyCompletion s.gate (by omega)
  refine ⟨?_, (h.throw job).busy, (h.throw job).inRange⟩
  simp only [State.notifyCompletion, List.length_append, List.length_erase_of_mem hjob]
  omega

theorem slotInv_construct (p : Processor) : SlotInv workers p.maxConcurrency (construct p) :=
  ⟨by simp [construct], by simp [construct], by simp [construct]⟩

theorem slotInv_step {s' : State} (h : SlotInv workers limit s) (hstep : Step workers c s s') :
    SlotInv workers limit s' := by
  cases hstep with
  | globalInitialize => exact ⟨h.slots, h.busy, h.inRange⟩
  | submit => exact h.submit _
  | take hworker hidle _ hcommitted => exact h.take hworker hidle hcommitted
  | callRun hjob => exact h.advance hjob _
  | returnRun hjob => exact h.advance hjob _
  | threadLocalFinalize hjob => exact h.advance hjob _
  | throw => exact h.throw _
  | notifyCompletion hjob => exact h.notifyCompletion hjob

theorem run_slotInv (hrun : Run workers c s) :
    SlotInv workers c.constructed.maxConcurrency s := by
  refine Inductive.reachable ⟨?_, ?_⟩ hrun
  · rintro _ rfl
    exact slotInv_construct _
  · intro s t h hstep
    exact slotInv_step h hstep

/-- No more calls of `run` are in progress than there were slots, or than there
are workers. -/
theorem SlotInv.runsInProgress_le (h : SlotInv workers limit s) :
    s.runsInProgress ≤ limit.toNat ∧ s.runsInProgress ≤ workers := by
  have hjobs : s.runsInProgress ≤ s.jobs.length := List.countP_le_length
  have hworkers : (s.jobs.map Job.worker).length ≤ workers := by
    have hsub : (s.jobs.map Job.worker) ⊆ List.range workers := by
      intro w hw
      obtain ⟨j, hj, rfl⟩ := List.mem_map.mp hw
      exact List.mem_range.mpr (h.inRange j hj)
    have hle := (h.busy.subperm hsub).length_le
    rwa [List.length_range] at hle
  rw [List.length_map] at hworkers
  have hlimit := h.slots
  omega

/-- The commands that have been submitted and have neither thrown nor notified. -/
def State.pending (s : State) : List Command :=
  s.gate.taskQueue ++ (s.committed ++ s.jobs.map Job.command)

/-- Only run commands are in `run`, and each of them has been submitted. -/
structure RunInv (s : State) : Prop where
  kind : ∀ j ∈ s.jobs, j.phase = .inRun → j.command.kind = .run
  submitted : s.pending.countP (fun command => command.kind = .run) ≤ s.runCommands

section Runs

variable {s' : State}

theorem perm_pending_submit (s : State) (command : Command) :
    (s.submit command).pending.Perm (command :: s.pending) := by
  by_cases hzero : s.gate.remainingConcurrency = 0
  · simp only [State.pending, State.submit, Gate.commitProcessCommand, hzero, if_true,
      List.append_nil, List.append_assoc, List.singleton_append]
    exact List.perm_middle
  · simp only [State.pending, State.submit, Gate.commitProcessCommand, hzero, if_false,
      List.append_assoc, List.singleton_append]
    rw [← List.append_assoc, ← List.append_assoc]
    exact List.perm_middle

theorem perm_pending_take {command : Command} (hcommitted : command ∈ s.committed)
    (worker : WorkerId) : (s.take worker command).pending.Perm s.pending := by
  refine .append_left _ ?_
  simp only [State.take, List.map_cons]
  refine List.perm_middle.trans ?_
  exact (List.perm_cons_erase hcommitted).symm.append_right _

theorem perm_pending_advance {job : Job} (hjob : job ∈ s.jobs) (phase : Phase) :
    (s.advance job phase).pending.Perm s.pending := by
  refine .append_left _ (.append_left _ ?_)
  exact ((List.perm_cons_erase hjob).map Job.command).symm

theorem pending_throw_sublist (s : State) (job : Job) :
    (s.throw job).pending.Sublist s.pending :=
  .append_left (.append_left ((List.erase_sublist ..).map _) _) _

/-- What the queue releases is committed. -/
theorem pending_notifyCompletion_perm (s : State) (job : Job) :
    (s.notifyCompletion job).pending.Perm (s.throw job).pending := by
  have hqueue : s.gate.notifyCompletion.2 ++ s.gate.notifyCompletion.1.taskQueue =
      s.gate.taskQueue := release_append _ _
  simp only [State.pending, State.notifyCompletion, State.throw]
  rw [← hqueue, List.append_assoc, List.append_assoc]
  exact (List.Perm.append_left _ (List.perm_append_comm_assoc ..)).trans
    (List.perm_append_comm_assoc ..)

/-- A step that submits nothing adds nothing to what is pending. -/
theorem RunInv.of_subperm (h : RunInv s) (hsub : s'.pending.Subperm s.pending)
    (hsubmitted : s'.submitted = s.submitted)
    (hkind : ∀ j ∈ s'.jobs, j.phase = .inRun → j.command.kind = .run) : RunInv s' := by
  refine ⟨hkind, (hsub.countP_le _).trans ?_⟩
  rw [State.runCommands, hsubmitted]
  exact h.submitted

theorem RunInv.kind_erase (h : RunInv s) (job : Job) :
    ∀ j ∈ s.jobs.erase job, j.phase = .inRun → j.command.kind = .run :=
  fun j hj => h.kind j (List.mem_of_mem_erase hj)

theorem RunInv.advance (h : RunInv s) {job : Job} (hjob : job ∈ s.jobs) {phase : Phase}
    (hphase : phase = .inRun → job.command.kind = .run) : RunInv (s.advance job phase) := by
  refine h.of_subperm (perm_pending_advance hjob phase).subperm rfl ?_
  intro j hj
  rcases List.mem_cons.mp hj with rfl | hj
  · exact hphase
  · exact h.kind_erase job j hj

theorem runInv_step (h : RunInv s) (hstep : Step workers c s s') : RunInv s' := by
  cases hstep with
  | globalInitialize => exact ⟨h.kind, h.submitted⟩
  | @submit command =>
    refine ⟨h.kind, ?_⟩
    rw [(perm_pending_submit s command).countP_eq]
    simp only [State.runCommands, State.submit, List.countP_cons]
    exact Nat.add_le_add_right h.submitted _
  | take _ _ _ hcommitted =>
    refine h.of_subperm (perm_pending_take hcommitted _).subperm rfl ?_
    intro j hj
    rcases List.mem_cons.mp hj with rfl | hj
    · exact fun hphase => Phase.noConfusion hphase
    · exact h.kind j hj
  | callRun hjob _ hkind => exact h.advance hjob fun _ => hkind
  | returnRun hjob | threadLocalFinalize hjob =>
    exact h.advance hjob fun hphase => Phase.noConfusion hphase
  | throw => exact h.of_subperm (pending_throw_sublist s _).subperm rfl (h.kind_erase _)
  | @notifyCompletion job =>
    refine h.of_subperm ?_ rfl (h.kind_erase job)
    exact (pending_notifyCompletion_perm s job).subperm.trans
      (pending_throw_sublist s job).subperm

theorem run_runInv (hrun : Run workers c s) : RunInv s := by
  refine Inductive.reachable ⟨?_, ?_⟩ hrun
  · rintro _ rfl
    exact ⟨by simp [construct], by simp [construct, State.pending]⟩
  · intro s t h hstep
    exact runInv_step h hstep

/-- No more calls of `run` are in progress than run commands have been submitted. -/
theorem RunInv.runsInProgress_le (h : RunInv s) : s.runsInProgress ≤ s.runCommands := by
  have hjobs : s.runsInProgress ≤
      (s.jobs.map Job.command).countP fun command => command.kind = .run := by
    rw [State.runsInProgress, List.countP_map]
    refine List.countP_mono_left fun j hj hphase => ?_
    exact decide_eq_true (h.kind j hj (of_decide_eq_true hphase))
  have hpending : ((s.jobs.map Job.command).countP fun command => command.kind = .run) ≤
      s.pending.countP fun command => command.kind = .run := by
    rw [State.pending, List.countP_append, List.countP_append]
    omega
  exact hjobs.trans (hpending.trans h.submitted)

end Runs

/-- Command `i` is in progress on worker `i`, for each `i < k`. -/
def crowd : ℕ → List Job
  | 0 => []
  | k + 1 => ⟨k, ⟨k, .run⟩, .inRun⟩ :: crowd k

def crowdCommands : ℕ → List Command
  | 0 => []
  | k + 1 => ⟨k, .run⟩ :: crowdCommands k

theorem lt_of_mem_crowd {k : ℕ} {j : Job} (h : j ∈ crowd k) : j.worker < k := by
  induction k with
  | zero => simp [crowd] at h
  | succ k ih =>
    rcases List.mem_cons.mp h with rfl | h
    · exact Nat.lt_succ_self k
    · exact Nat.lt_succ_of_lt (ih h)

theorem lt_of_mem_crowdCommands {k : ℕ} {command : Command} (h : command ∈ crowdCommands k) :
    command.task < k := by
  induction k with
  | zero => simp [crowdCommands] at h
  | succ k ih =>
    rcases List.mem_cons.mp h with rfl | h
    · exact Nat.lt_succ_self k
    · exact Nat.lt_succ_of_lt (ih h)

theorem countP_crowdCommands (k : ℕ) :
    (crowdCommands k).countP (fun command => command.kind = .run) = k := by
  induction k with
  | zero => rfl
  | succ k ih => simp [crowdCommands, ih]

theorem countP_crowd (k : ℕ) : (crowd k).countP (fun j => j.phase = .inRun) = k := by
  induction k with
  | zero => rfl
  | succ k ih => simp [crowd, ih]

/-- While slots and workers last, each further command goes straight through
the gate and onto a worker of its own. -/
theorem run_crowd (workers : ℕ) (c : ProcessorClass) {k : ℕ}
    (hslots : k ≤ c.constructed.maxConcurrency.toNat)
    (hworkers : k ≤ workers) :
    ∃ s, Run workers c s ∧ s.globalInitialized = true ∧ s.committed = [] ∧
      s.gate.remainingConcurrency.toNat + k = c.constructed.maxConcurrency.toNat ∧
      s.submitted = crowdCommands k ∧ s.jobs = crowd k := by
  induction k with
  | zero =>
    have hstart : Run workers c (construct c.constructed) := .start rfl
    exact ⟨_, hstart.next (.globalInitialize rfl), rfl, rfl, rfl, rfl, rfl⟩
  | succ k ih =>
    obtain ⟨s, hrun, hinit, hcommitted, hremaining, hsubmitted, hjobs⟩ :=
      ih (by omega) (by omega)
    have hopen : s.gate.remainingConcurrency ≠ 0 := by
      intro hzero
      rw [hzero] at hremaining
      simp only [UInt64.toNat_zero] at hremaining
      omega
    have hgate : s.gate.commitProcessCommand ⟨k, .run⟩
        = ({ s.gate with remainingConcurrency := s.gate.remainingConcurrency - 1 },
          [⟨k, .run⟩]) := by
      simp [Gate.commitProcessCommand, hopen]
    have hfresh : k ∉ s.submitted.map Command.task := by
      rw [hsubmitted]
      intro hmem
      obtain ⟨command, hcommand, htask⟩ := List.mem_map.mp hmem
      exact absurd htask (lt_of_mem_crowdCommands hcommand).ne
    have hidle : k ∉ s.jobs.map Job.worker := by
      rw [hjobs]
      intro hmem
      obtain ⟨j, hj, hworker⟩ := List.mem_map.mp hmem
      exact absurd hworker (lt_of_mem_crowd hj).ne
    have hsubmit : Run workers c (s.submit ⟨k, .run⟩) := hrun.next (.submit hfresh)
    have htake : Run workers c ((s.submit ⟨k, .run⟩).take k ⟨k, .run⟩) :=
      hsubmit.next (.take (Nat.lt_of_succ_le hworkers) hidle hinit (by simp [State.submit, hgate]))
    have hcall : Run workers c
        (((s.submit ⟨k, .run⟩).take k ⟨k, .run⟩).advance ⟨k, ⟨k, .run⟩, .begun⟩ .inRun) :=
      htake.next (.callRun (List.mem_cons_self ..) rfl rfl)
    refine ⟨_, hcall, hinit, ?_, ?_, ?_, ?_⟩
    · simp [State.advance, State.take, State.submit, hgate, hcommitted]
    · have hpred := toNat_pred hopen
      simp only [State.advance, State.take, State.submit, hgate]
      omega
    · simp [State.advance, State.take, State.submit, hsubmitted, crowdCommands]
    · simp [State.advance, State.take, State.submit, hjobs, crowd]

theorem run_within (hrun : Run workers c s)
    (h : c.constructed.maxConcurrency ≤ c.inForce ∨ workers ≤ c.inForce.toNat) :
    s.runsInProgress ≤ c.inForce.toNat := by
  obtain ⟨hslots, hworkers⟩ := (run_slotInv hrun).runsInProgress_le
  rcases h with hle | hle
  · exact hslots.trans (UInt64.le_iff_toNat_le.mp hle)
  · exact hworkers.trans hle

/-- The number of calls of `run` in progress stays within the value in force
when `global_initialize` returns exactly if there were no more slots than that
when the logical task was constructed, or there are no more workers. Where at
most `k` run commands are ever submitted, it also does if `k` is no more. -/
theorem runs_within_limit_iff (workers : ℕ) (c : ProcessorClass) :
    ((∀ s, Run workers c s → s.runsInProgress ≤ c.inForce.toNat) ↔
      c.constructed.maxConcurrency ≤ c.inForce ∨ workers ≤ c.inForce.toNat) ∧
    ∀ k, (∀ s, Run workers c s → s.runCommands ≤ k → s.runsInProgress ≤ c.inForce.toNat) ↔
      c.constructed.maxConcurrency ≤ c.inForce ∨ workers ≤ c.inForce.toNat ∨
        k ≤ c.inForce.toNat := by
  have hexceeds : ¬ c.constructed.maxConcurrency ≤ c.inForce → ¬ workers ≤ c.inForce.toNat →
      ∃ s, Run workers c s ∧ s.runCommands = c.inForce.toNat + 1 ∧
        s.runsInProgress = c.inForce.toNat + 1 := by
    intro hslots hworkers
    rw [UInt64.le_iff_toNat_le] at hslots
    obtain ⟨s, hrun, -, -, -, hsubmitted, hjobs⟩ :=
      run_crowd workers c (Nat.lt_of_not_le hslots) (Nat.lt_of_not_le hworkers)
    refine ⟨s, hrun, ?_, ?_⟩
    · rw [State.runCommands, hsubmitted, countP_crowdCommands]
    · rw [State.runsInProgress, hjobs, countP_crowd]
  refine ⟨⟨fun hbound => ?_, fun h s hrun => run_within hrun h⟩, fun k => ⟨fun hbound => ?_, ?_⟩⟩
  · by_contra hcontra
    rw [not_or] at hcontra
    obtain ⟨s, hrun, -, hcount⟩ := hexceeds hcontra.1 hcontra.2
    have hle := hbound s hrun
    omega
  · by_contra hcontra
    rw [not_or, not_or] at hcontra
    obtain ⟨s, hrun, hcommands, hcount⟩ := hexceeds hcontra.1 hcontra.2.1
    have hle := hbound s hrun (by omega)
    omega
  · rintro (hslots | hworkers | hk) s hrun hcommands
    · exact run_within hrun (Or.inl hslots)
    · exact run_within hrun (Or.inr hworkers)
    · exact (run_runInv hrun).runsInProgress_le.trans (hcommands.trans hk)

/-- The default in the constructor, 1 set by `global_initialize`, two workers. -/
theorem not_runs_within_limit :
    ¬ ∀ (workers : ℕ) (c : ProcessorClass),
      (∀ limit ∈ c.inConstructor ++ c.inGlobalInitialize, 1 ≤ limit) →
      ∀ s, Run workers c s → s.runsInProgress ≤ c.inForce.toNat := by
  intro h
  obtain ⟨s, hrun, -, -, -, -, hjobs⟩ :=
    @run_crowd 2 ⟨[], [1]⟩ 2 (by decide) (by decide)
  have hone : ∀ limit ∈ ([] ++ [1] : List UInt64), 1 ≤ limit := by simp
  have hle := h 2 ⟨[], [1]⟩ hone s hrun
  rw [State.runsInProgress, hjobs, countP_crowd] at hle
  exact absurd hle (by decide)

end M3bp.ProcessGate
