import M3bp.EngineDelivery
import M3bp.GateRuns

/-!
The gates in the engine. The free slots of a processor and its commands that have been
committed and have not notified it yet add up to its limit, and commands wait only while
there is no free slot.
-/
namespace M3bp.Engine

open Finset SchedulerCalls Transition ProcessGate

variable {n : ℕ}

/-- One for a process command of `l`. -/
def Command.gated (l : ℕ) (c : Command) : ℕ := if c.isProcessCommand ∧ c.owner = l then 1 else 0

/-- One for an operation that is going to notify `l`. -/
def Op.gated (l : ℕ) : Op → ℕ
  | prepare _ c => c.gated l
  | notifyCompletion l' _ => if l' = l then 1 else 0
  | _ => 0

/-- One for the creation of a process command of `l`. -/
def Op.linking (l : ℕ) : Op → ℕ
  | link _ c _ => c.gated l
  | _ => 0

/-- One for an operation that submits a command to the gate of `l`. -/
def Op.submits (l : ℕ) : Op → ℕ
  | link _ c [] => c.gated l
  | _ => 0

def Op.notifies (l : ℕ) : Op → ℕ
  | notifyCompletion l' _ => if l' = l then 1 else 0
  | _ => 0

/-- One for the creation of task `t` as a process command of `l`. -/
def Op.linkingOf (l : ℕ) (t : TaskId) : Op → ℕ
  | link t' c _ => if t' = t then c.gated l else 0
  | _ => 0

/-- The process commands of `l` that have been created and have not notified it. -/
def unnotified (s : State n) (l : ℕ) : ℕ := s.tokens (Op.gated l) (Command.gated l)

/-- The process commands of `l` that have been committed and not been taken. -/
def committedUntaken (s : State n) (l : ℕ) : ℕ :=
  ∑ t ∈ range s.commands.length, called s.system.log t *
    (untaken s.system.log t * (s.commands[t]?).elim 0 (Command.gated l))

section Balance

variable {g : LogicalGraph} {lm : LocalityManager} {s : State n} {w : Fin n} {t : TaskId}
  {op : Op} {rest : List Op} {e : Effect}

theorem sum_map_commitFragment {f : Op → ℕ} (hf : ∀ x p o, f (.deliver x p o) = 0)
    (g : LogicalGraph) (producer : PortKey) (p : ℕ) (o : Object) :
    ((commitFragment g producer p o).map f).sum = 0 := by
  apply List.sum_eq_zero
  intro m hm
  obtain ⟨op, hop, rfl⟩ := List.mem_map.mp hm
  obtain ⟨x, -, rfl⟩ := List.mem_map.mp hop
  exact hf x p o

theorem gated_body (g : LogicalGraph) (s : State n) (t : TaskId) (c : Command) (l : ℕ) :
    ((body g s t c).map (Op.gated l)).sum = c.gated l := by
  cases c with
  | shuffleBarrier l' =>
    simp only [body]
    split <;> simp [Op.gated, Command.gated, Command.isProcessCommand, Function.comp_def]
  | _ => simp [body, Op.gated, Command.gated, Command.isProcessCommand, Command.owner,
      Function.comp_def]

/-- The notification of a command is only lost when it is made. -/
theorem Performs.gated (h : Performs g s w op e) (l : ℕ) :
    (e.next.map (Op.gated l)).sum + op.notifies l = op.gated l := by
  have hcommit := sum_map_commitFragment (f := Op.gated l) (fun _ _ _ => rfl) g
  cases h with
  | step op choice hoption =>
    cases op with
    | prepare t c => simp [effect, gated_body, Op.gated, Op.notifies]
    | deliver x p o =>
      simp only [effect, receiveFragment, receiveProcessFragment]
      split <;> (try split) <;> simp [Op.gated, Op.notifies]
    | sortRecords l' p => simp [effect, hcommit, Op.gated, Op.notifies]
    | sortValues l' p => simp [effect, hcommit, Op.gated, Op.notifies]
    | runGather l' inputs => simp [effect, hcommit, Op.gated, Op.notifies]
    | link t c deps =>
      cases deps with
      | cons d deps => simp [effect, Op.gated, Op.notifies]
      | nil =>
        simp only [effect, commitTask]
        split <;> simp [Op.gated, Op.notifies, Function.comp_def]
    | notifyCompletion l' t => simp [effect, Op.gated, Op.notifies, Function.comp_def]
    | _ =>
      simp only [effect]
      (try split) <;> simp [Op.gated, Op.notifies, Function.comp_def]
  | flush l' callback port recordCount o hport hbuffer =>
    by_cases hrecords : 0 < recordCount
    · simp [hrecords, hcommit, Op.gated, Op.notifies]
    · simp [hrecords, Op.gated, Op.notifies]
  | _ => simp [Op.gated, Op.notifies]

/-- A command is being linked from its creation until it is submitted. -/
theorem Performs.linking (h : Performs g s w op e) (l : ℕ) :
    (e.next.map (Op.linking l)).sum + op.submits l =
      op.linking l + (e.action.created.map (Command.gated l)).sum := by
  have hcommit := sum_map_commitFragment (f := Op.linking l) (fun _ _ _ => rfl) g
  cases h with
  | step op choice hoption =>
    cases op with
    | prepare t c =>
      have hbody : ((body g s t c).map (Op.linking l)).sum = 0 := by
        cases c with
        | shuffleBarrier l' =>
          simp only [body]
          split <;> simp [Op.linking, Function.comp_def]
        | _ => simp [body, Op.linking, Function.comp_def]
      simp [effect, hbody, Op.linking, Op.submits, Action.created]
    | deliver x p o =>
      have hreceive : ((receiveFragment g s x p o).next.map (Op.linking l)).sum = 0 := by
        simp only [receiveFragment, receiveProcessFragment]
        split <;> (try split) <;> simp [Op.linking]
      simp [effect, hreceive, receiveFragment_action, Op.linking, Op.submits, Action.created]
    | sortRecords l' p => simp [effect, hcommit, Op.linking, Op.submits, Action.created]
    | sortValues l' p => simp [effect, hcommit, Op.linking, Op.submits, Action.created]
    | runGather l' inputs => simp [effect, hcommit, Op.linking, Op.submits, Action.created]
    | link t c deps =>
      cases deps with
      | cons d deps => simp [effect, Op.linking, Op.submits, Action.created]
      | nil =>
        simp only [effect, commitTask]
        split <;> simp [Op.linking, Op.submits, Action.created, Function.comp_def]
    | spawn c => simp [effect, Op.linking, Op.submits, Action.created]
    | _ =>
      simp only [effect]
      (try split) <;> simp [Op.linking, Op.submits, Action.created, Function.comp_def]
  | flush l' callback port recordCount o hport hbuffer =>
    by_cases hrecords : 0 < recordCount
    · simp [hrecords, hcommit, Op.linking, Op.submits, Action.created]
    · simp [hrecords, Op.linking, Op.submits, Action.created]
  | _ => simp [Op.linking, Op.submits, Action.created]

/-- How the gate of `l` changes. -/
inductive GateChange (l : ℕ) (gate : Gate TaskId) : Op → Gate TaskId → Prop
  | keep {op : Op} (hsubmits : op.submits l = 0) (hnotifies : op.notifies l = 0) :
      GateChange l gate op gate
  | submit {t : TaskId} {c : Command} (hgated : c.gated l = 1) :
      GateChange l gate (.link t c []) (gate.commitProcessCommand t).1
  | notify {t : TaskId} : GateChange l gate (.notifyCompletion l t) gate.notifyCompletion.1

theorem Performs.gateChange (h : Performs g s w op e) {l : ℕ} {y : Local}
    (hchange : e.change = some (l, y)) : GateChange l (s.locals l).gate op y.gate := by
  cases h with
  | step op choice hoption =>
    cases op with
    | deliver x p o =>
      simp only [effect, receiveFragment, receiveProcessFragment] at hchange
      split at hchange <;> (try split at hchange) <;> first
        | (cases hchange; done)
        | (cases hchange; exact .keep rfl rfl)
    | link t c deps =>
      cases deps with
      | cons d deps => cases hchange
      | nil =>
        simp only [effect, commitTask] at hchange
        split at hchange
        · next hprocess =>
          cases hchange
          exact .submit (if_pos ⟨hprocess, rfl⟩)
        · cases hchange
    | notifyCompletion l' t =>
      cases hchange
      exact .notify
    | _ =>
      simp only [effect] at hchange
      first
        | (cases hchange <;> exact .keep rfl rfl)
        | (split at hchange <;> cases hchange <;> exact .keep rfl rfl)
  | setTaskCount l' count hinput =>
    cases hchange
    exact .keep rfl rfl
  | _ => cases hchange

theorem Performs.gateChange_apply (h : Performs g s w op e) (rest : List Op) (l : ℕ) :
    GateChange l (s.locals l).gate op ((s.apply w rest e).locals l).gate := by
  by_cases hchange : ∃ y, e.change = some (l, y)
  · obtain ⟨y, hy⟩ := hchange
    have heq : (s.apply w rest e).locals l = y := by simp [State.apply, hy]
    rw [heq]
    exact h.gateChange hy
  · have heq : (s.apply w rest e).locals l = s.locals l := by
      rcases locals_apply s w rest e l with ⟨y, hy, -⟩ | heq
      · exact absurd ⟨y, hy⟩ hchange
      · exact heq
    rw [heq]
    refine .keep ?_ ?_
    · cases op with
      | link t c deps =>
        cases deps with
        | cons d deps => rfl
        | nil =>
          refine if_neg fun hgated => hchange ?_
          cases h
          simp only [effect, commitTask, hgated.1, if_true, hgated.2]
          exact ⟨_, rfl⟩
      | _ => rfl
    · cases op with
      | notifyCompletion l' t =>
        refine if_neg fun hl => hchange ?_
        cases h
        rw [← hl]
        exact ⟨_, rfl⟩
      | _ => rfl

end Balance

/-- The gate of `l` under the limit of its processor. -/
structure GateInv (s : State n) (l : ℕ) (limit : UInt64) : Prop where
  slots : unnotified s l + (s.locals l).gate.remainingConcurrency.toNat =
    limit.toNat + (s.locals l).gate.taskQueue.length + s.inPrograms (Op.linking l)
  parked : (s.locals l).gate.taskQueue ≠ [] → (s.locals l).gate.remainingConcurrency = 0
  members : ∀ t ∈ (s.locals l).gate.taskQueue, ∃ c, s.commands[t]? = some c ∧ c.gated l = 1

section Invariant

variable {g : LogicalGraph} {lm : LocalityManager} {s : State n} {w : Fin n} {t : TaskId}
  {op : Op} {rest : List Op} {e : Effect} {l : ℕ} {limit : UInt64}

theorem inPrograms_add (s : State n) (f f' : Op → ℕ) :
    s.inPrograms (fun op => f op + f' op) = s.inPrograms f + s.inPrograms f' := by
  rw [State.inPrograms, State.inPrograms, State.inPrograms, ← Finset.sum_add_distrib]
  exact Finset.sum_congr rfl fun w _ => List.sum_map_add

theorem inPrograms_zero (s : State n) : s.inPrograms (fun _ => 0) = 0 :=
  Finset.sum_eq_zero fun w _ => by simp

theorem inPrograms_sum (s : State n) (f : ℕ → Op → ℕ) (m : ℕ) :
    s.inPrograms (fun op => ∑ t ∈ range m, f t op) = ∑ t ∈ range m, s.inPrograms (f t) := by
  induction m with
  | zero => exact inPrograms_zero s
  | succ m ih =>
    simp only [Finset.sum_range_succ]
    rw [inPrograms_add, ih]

theorem tokens_operations (s : State n) (f : Op → ℕ) :
    s.tokens f (fun _ => 0) = s.inPrograms f := by
  have hcommands : s.inCommands (fun _ => 0) = 0 := Finset.sum_eq_zero fun t _ => by
    cases s.commands[t]? <;> rfl
  rw [State.tokens, hcommands, Nat.add_zero]

theorem gated_eq_zero_or_one (c : Command) (l : ℕ) : c.gated l = 0 ∨ c.gated l = 1 := by
  unfold Command.gated
  split <;> simp

theorem gated_eq_one {c : Command} : c.gated l = 1 ↔ c.isProcessCommand ∧ c.owner = l := by
  unfold Command.gated
  split <;> simp_all

/-- A gate holds tasks that have been created, each as often as its queue does. -/
theorem GateInv.sum_count (h : GateInv s l limit) :
    ∑ t ∈ range s.commands.length, (s.locals l).gate.taskQueue.count t =
      (s.locals l).gate.taskQueue.length := by
  have hsum := Multiset.sum_count_eq_card (s := range s.commands.length)
    (m := ((s.locals l).gate.taskQueue : Multiset TaskId)) fun t ht => by
      obtain ⟨c, hc, -⟩ := h.members t (Multiset.mem_coe.mp ht)
      exact mem_range.mpr (List.getElem?_eq_some_iff.mp hc).1
  simpa using hsum

theorem Inv.untaken_of_uncalled (h : Inv g lm s) (hcalled : .commitCalled t ∉ s.system.log) :
    untaken s.system.log t = 1 := by
  have hinv := run_inv h.run
  refine if_neg fun htaken => hcalled ?_
  exact hinv.taken_called htaken

/-- Whoever is linking `t` as a process command of `l` owes its commit. -/
theorem Inv.linkingOf_le (h : Inv g lm s) {c : Command} (hc : s.commands[t]? = some c) (l : ℕ) :
    s.inPrograms (Op.linkingOf l t) ≤ s.inPrograms (Op.owesCommit t) * c.gated l := by
  have hterm : ∀ w, ∀ op ∈ (s.workers w).program,
      op.linkingOf l t ≤ op.owesCommit t * c.gated l := by
    intro w op hop
    cases op with
    | link t' c' deps =>
      by_cases ht' : t' = t
      · subst ht'
        obtain ⟨u, hrunning⟩ := h.running_of_mem hop
        obtain ⟨-, -, hc', -⟩ := h.running_fits hrunning hop
        rw [hc, Option.some.injEq] at hc'
        simp [Op.linkingOf, Op.owesCommit, hc']
      · simp [Op.linkingOf, ht']
    | _ => exact Nat.zero_le _
  have hscale : s.inPrograms (fun op => op.owesCommit t * c.gated l) =
      s.inPrograms (Op.owesCommit t) * c.gated l := by
    rw [State.inPrograms, State.inPrograms, Finset.sum_mul]
    exact Finset.sum_congr rfl fun w _ => List.sum_map_mul_right _ _ _
  rw [← hscale]
  exact inPrograms_le hterm

theorem Inv.linking_le_sum (h : Inv g lm s) (l : ℕ) : s.inPrograms (Op.linking l) ≤
    ∑ t ∈ range s.commands.length, s.inPrograms (Op.linkingOf l t) := by
  have hlink : ∀ w, ∀ op ∈ (s.workers w).program,
      op.linking l ≤ ∑ t ∈ range s.commands.length, op.linkingOf l t := by
    intro w op hop
    cases op with
    | link t c deps =>
      obtain ⟨u, hrunning⟩ := h.running_of_mem hop
      obtain ⟨-, -, hc, -⟩ := h.running_fits hrunning hop
      have hlt : t ∈ range s.commands.length := mem_range.mpr (List.getElem?_eq_some_iff.mp hc).1
      have hle := Finset.single_le_sum (f := fun t' => (Op.link t c deps).linkingOf l t')
        (fun _ _ => Nat.zero_le _) hlt
      simpa [Op.linkingOf, Op.linking] using hle
    | _ => exact Nat.zero_le _
  refine (inPrograms_le hlink).trans ?_
  rw [inPrograms_sum]

theorem Inv.count_le_waiting (h : Inv g lm s) (hgate : GateInv s l limit) (t : TaskId) :
    (s.locals l).gate.taskQueue.count t ≤ s.inLocals g fun _ => Local.waiting t := by
  by_cases hmem : t ∈ (s.locals l).gate.taskQueue
  · obtain ⟨c, hc, hone⟩ := hgate.members t hmem
    obtain ⟨kind, hkind⟩ := h.static.kind_of_owner hc
    rw [(gated_eq_one.mp hone).2] at hkind
    exact Finset.single_le_sum (f := fun l => (s.locals l).waiting t) (fun _ _ => Nat.zero_le _)
      (mem_range.mpr (g.lt_of_kindOf hkind))
  · rw [List.count_eq_zero_of_not_mem hmem]
    exact Nat.zero_le _

/-- What is being linked, waits in the gate or has been committed without being taken, counted
together: no command is counted twice, and none that has been taken. -/
theorem Inv.gate_room (h : Inv g lm s) (hgate : GateInv s l limit) :
    s.inPrograms (Op.linking l) + (s.locals l).gate.taskQueue.length + committedUntaken s l ≤
      s.inCommands (Command.gated l) := by
  refine (Nat.add_le_add_right (Nat.add_le_add_right (h.linking_le_sum l) _) _).trans ?_
  rw [← hgate.sum_count, committedUntaken, ← Finset.sum_add_distrib, ← Finset.sum_add_distrib]
  apply Finset.sum_le_sum
  intro t ht
  obtain ⟨c, hc⟩ : ∃ c, s.commands[t]? = some c :=
    ⟨_, List.getElem?_eq_getElem (mem_range.mp ht)⟩
  have hlinking := h.linkingOf_le hc l
  have hwaiting := h.count_le_waiting hgate t
  have hcommits := h.commits t
  rw [State.commits, issued, if_pos (mem_range.mp ht)] at hcommits
  rw [hc, Option.elim_some]
  by_cases hcalled : .commitCalled t ∈ s.system.log
  · -- nobody owes the commit any more
    rw [called, if_pos hcalled] at hcommits ⊢
    have hzero : s.inPrograms (Op.owesCommit t) = 0 := by omega
    rw [hzero, Nat.zero_mul] at hlinking
    omega
  · rw [called, if_neg hcalled] at hcommits ⊢
    rw [h.untaken_of_uncalled hcalled]
    rcases gated_eq_zero_or_one c l with hzero | hone
    · have hnone : (s.locals l).gate.taskQueue.count t = 0 := by
        refine List.count_eq_zero_of_not_mem fun hmem => ?_
        obtain ⟨c', hc', hone⟩ := hgate.members t hmem
        rw [hc, Option.some.injEq] at hc'
        rw [← hc', hzero] at hone
        cases hone
      rw [hzero] at hlinking
      omega
    · rw [hone] at hlinking ⊢
      omega

/-- A command that notifies `l` has not been counted among those being linked. -/
theorem Inv.linking_lt (h : Inv g lm s) (hgate : GateInv s l limit) (hprogram : (s.workers w).program = op :: rest)
    (hop : 0 < op.gated l) : s.inPrograms (Op.linking l) < unnotified s l := by
  have hmem : op ∈ (s.workers w).program := mem_program hprogram
  have hpos := inPrograms_pos (f := Op.gated l) hmem hop
  have hroom := h.gate_room hgate
  unfold unnotified State.tokens
  omega

theorem Inv.unnotified_apply (h : Inv g lm s) (hrunning : (s.workers w).activity = .running t)
    (hcall : s.system.calls (some w) = .idle) (hprogram : (s.workers w).program = op :: rest)
    (heffect : Performs g s w op e) (l : ℕ) :
    unnotified (s.apply w rest e) l + op.notifies l =
      unnotified s l + (e.action.created.map (Command.gated l)).sum := by
  have htokens := h.tokens_apply hrunning hcall hprogram heffect (Op.gated l) (Command.gated l)
  have hgated := heffect.gated l
  unfold unnotified
  omega

theorem inPrograms_linking_apply (hprogram : (s.workers w).program = op :: rest)
    (heffect : Performs g s w op e) (l : ℕ) :
    (s.apply w rest e).inPrograms (Op.linking l) + op.submits l =
      s.inPrograms (Op.linking l) + (e.action.created.map (Command.gated l)).sum := by
  have hprograms := inPrograms_apply hprogram e (Op.linking l)
  have hlinking := heffect.linking l
  omega

theorem length_commitProcessCommand (gate : Gate TaskId) (t : TaskId) :
    (gate.commitProcessCommand t).2.length + (gate.commitProcessCommand t).1.taskQueue.length =
      gate.taskQueue.length + 1 := by
  by_cases hzero : gate.remainingConcurrency = 0
  · simp [Gate.commitProcessCommand, hzero]
  · simp [Gate.commitProcessCommand, hzero, Nat.add_comm]

theorem length_notifyCompletion (gate : Gate TaskId) :
    gate.notifyCompletion.2.length + gate.notifyCompletion.1.taskQueue.length =
      gate.taskQueue.length := by
  rw [← List.length_append, Gate.notifyCompletion, release_append]

theorem GateInv.apply (hgate : GateInv s l limit) (h : Inv g lm s)
    (hrunning : (s.workers w).activity = .running t) (hcall : s.system.calls (some w) = .idle)
    (hprogram : (s.workers w).program = op :: rest) (heffect : Performs g s w op e) :
    GateInv (s.apply w rest e) l limit := by
  have hmem : op ∈ (s.workers w).program := mem_program hprogram
  have hslots := hgate.slots
  have hunnotified := h.unnotified_apply hrunning hcall hprogram heffect l
  have hlinking := inPrograms_linking_apply hprogram heffect l
  have hkept : ∀ {u c}, s.commands[u]? = some c → (s.apply w rest e).commands[u]? = some c :=
    fun hc => getElem?_append_of_some hc _
  have hmembers : ∀ u ∈ (s.locals l).gate.taskQueue,
      ∃ c, (s.apply w rest e).commands[u]? = some c ∧ c.gated l = 1 := by
    intro u hu
    obtain ⟨c, hc, hone⟩ := hgate.members u hu
    exact ⟨c, hkept hc, hone⟩
  have hchange := heffect.gateChange_apply rest l
  generalize hnew : ((s.apply w rest e).locals l).gate = gate at hchange
  cases hchange with
  | keep hsubmits hnotifies =>
    refine ⟨?_, ?_, ?_⟩ <;> rw [hnew]
    · omega
    · exact hgate.parked
    · exact hmembers
  | @submit u c hone =>
    have hfree := slots_commitProcessCommand (s.locals l).gate u
    have hlength := length_commitProcessCommand (s.locals l).gate u
    have hsubmits : (Op.link u c []).submits l = 1 := hone
    have hnotifies : (Op.link u c []).notifies l = 0 := rfl
    refine ⟨?_, ?_, ?_⟩ <;> rw [hnew]
    · omega
    · intro hne
      by_cases hzero : (s.locals l).gate.remainingConcurrency = 0
      · simp [Gate.commitProcessCommand, hzero]
      · refine absurd (hgate.parked ?_) hzero
        simpa [Gate.commitProcessCommand, hzero] using hne
    · intro u' hu'
      obtain ⟨c', -, hc', -⟩ := h.running_fits hrunning hmem
      by_cases hzero : (s.locals l).gate.remainingConcurrency = 0
      · simp only [Gate.commitProcessCommand, hzero, if_true, List.mem_append,
          List.mem_singleton] at hu'
        rcases hu' with hold | rfl
        · exact hmembers u' hold
        · exact ⟨c, hkept hc', hone⟩
      · simp only [Gate.commitProcessCommand, hzero, if_false] at hu'
        exact hmembers u' hu'
  | @notify u =>
    have hlt := h.linking_lt hgate hprogram (by simp [Op.gated])
    have hbound : (s.locals l).gate.remainingConcurrency.toNat + 1 < 2 ^ 64 := by
      have hlimit := limit.toNat_lt
      cases hqueue : (s.locals l).gate.taskQueue with
      | nil =>
        rw [hqueue, List.length_nil] at hslots
        omega
      | cons u' queue =>
        rw [hgate.parked (by simp [hqueue])]
        decide
    have hfree := slots_notifyCompletion (s.locals l).gate hbound
    have hlength := length_notifyCompletion (s.locals l).gate
    have hsubmits : (Op.notifyCompletion l u).submits l = 0 := rfl
    have hnotifies : (Op.notifyCompletion l u).notifies l = 1 := if_pos rfl
    refine ⟨?_, ?_, ?_⟩ <;> rw [hnew]
    · omega
    · exact History.waiting_release _ _
    · intro u' hu'
      apply hmembers u'
      rw [← release_append ((s.locals l).gate.remainingConcurrency + 1)
        (s.locals l).gate.taskQueue]
      exact List.mem_append_right _ hu'

end Invariant

/-- The limit that the gate of `l` starts with. -/
def gateLimit (g : LogicalGraph) (l : ℕ) : UInt64 :=
  (Local.create ((g.kindOf l).getD .gather)).gate.remainingConcurrency

theorem run_gateInv {g : LogicalGraph} {lm : LocalityManager} {s : State n} (hwaits : Waits g)
    (hrun : Run g lm s) (l : ℕ) : GateInv s l (gateLimit g l) := by
  refine @run_induction n g lm s hwaits (fun s => GateInv s l (gateLimit g l)) ?_ ?_ ?_ hrun
  · intro draws
    have hqueue : ((State.start g (Plan.setUp g lm draws) : State n).locals l).gate.taskQueue =
        [] := by
      simp only [State.start]
      cases (g.kindOf l).getD .gather <;> rfl
    have hunnotified : unnotified (State.start g (Plan.setUp g lm draws) : State n) l = 0 := by
      rw [unnotified, tokens_start]
      refine (inCommands_start hwaits draws (Command.gated l) .entry ?_).trans ?_
      · intro l' kind place _ hne
        refine absurd ?_ hne
        cases kind <;> cases place <;> rfl
      · refine Finset.sum_eq_zero fun l' _ => ?_
        cases g.kindOf l' with
        | none => rfl
        | some kind => cases kind <;> rfl
    have hprograms : (State.start g (Plan.setUp g lm draws) : State n).inPrograms
        (Op.linking l) = 0 := Finset.sum_eq_zero fun w _ => rfl
    refine ⟨?_, fun hne => absurd hqueue hne, ?_⟩
    · rw [hunnotified, hqueue, hprograms, Nat.zero_add]
      rfl
    · rw [hqueue]
      exact List.forall_mem_nil _
  · intro s w t op rest e _ hinv hgate hrunning hcall hprogram heffect
    exact hgate.apply hinv hrunning hcall hprogram heffect
  · intro s s' _ hgate hbetween
    have hunnotified : unnotified s' l = unnotified s l :=
      hbetween.tokens _ _ fun _ _ => rfl
    have hlinking : s'.tokens (Op.linking l) (fun _ => 0) = s.tokens (Op.linking l) fun _ => 0 :=
      hbetween.tokens _ _ fun _ _ => rfl
    refine ⟨?_, ?_, ?_⟩
    · rw [tokens_operations, tokens_operations] at hlinking
      rw [hbetween.locals, hunnotified, hlinking]
      exact hgate.slots
    · rw [hbetween.locals]
      exact hgate.parked
    · rw [hbetween.locals, hbetween.commands]
      exact hgate.members

end M3bp.Engine
