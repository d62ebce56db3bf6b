import M3bp.ConcurrencyLimit
import M3bp.EngineMoves
import M3bp.EngineProgress

/-!
The gate of one processor in the engine behaves as the gate by itself does with commands
that come at any time and from anywhere. A process command passes three phases between the
worker's `prepare` and its notification.
-/
namespace M3bp.Engine

open Finset SchedulerCalls Transition

variable {n : ℕ}

def Command.kind : Command → ProcessGate.Kind
  | threadLocalFinalize .. => .threadLocalFinalize
  | _ => .run

/-- One for an operation that is still before the call of `run`, or before what a
finalizer does. -/
def Op.opens (l : ℕ) : Op → ℕ
  | prepare _ c => c.gated l
  | call l' .run _ => if l' = l then 1 else 0
  | threadLocalFinalize l' => if l' = l then 1 else 0
  | _ => 0

/-- One for an operation inside `run`. -/
def Op.inside (l : ℕ) : Op → ℕ
  | inCallback l' .run => if l' = l then 1 else 0
  | _ => 0

/-- An operation that says nothing of the commands of `l`. -/
structure Op.Apart (l : ℕ) (op : Op) : Prop where
  notifies : op.notifies l = 0
  opens : op.opens l = 0
  inside : op.inside l = 0

/-- What becomes of a process command of `l` in one operation. -/
inductive PhaseChange (l : ℕ) (next : List Op) : Op → Prop
  | keep {op : Op} (hnext : ∀ a ∈ next, a.Apart l) (hopens : op.opens l = 0)
      (hinside : op.inside l = 0) : PhaseChange l next op
  | beginRun {t : TaskId} {c : Command} {inputs : List (PortKey × Object)} (hgated : c.gated l = 1)
      (hkind : c.kind = .run)
      (hnext : next = [.threadLocalInitialize l, .call l .run inputs, .release,
        .notifyCompletion l t]) : PhaseChange l next (.prepare t c)
  | beginFinalize {t : TaskId} {c : Command} (hgated : c.gated l = 1)
      (hkind : c.kind = .threadLocalFinalize)
      (hnext : next = [.threadLocalFinalize l, .release, .notifyCompletion l t]) :
      PhaseChange l next (.prepare t c)
  | call {inputs : List (PortKey × Object)} (hnext : next = [.inCallback l .run]) :
      PhaseChange l next (.call l .run inputs)
  | stay {before : List Op} (hbefore : ∀ a ∈ before, a.Apart l)
      (hnext : next = before ++ [.inCallback l .run]) : PhaseChange l next (.inCallback l .run)
  | leave (hnext : next = []) : PhaseChange l next (.inCallback l .run)
  | finalize (hnext : ∀ a ∈ next, a.Apart l) : PhaseChange l next (.threadLocalFinalize l)

section Change

variable {g : LogicalGraph} {s : State n} {w : Fin n} {op : Op} {e : Effect} {l : ℕ}

theorem apart_commitFragment (g : LogicalGraph) (producer : PortKey) (p : ℕ) (o : Object) :
    ∀ a ∈ commitFragment g producer p o, a.Apart l := by
  intro a ha
  obtain ⟨x, -, rfl⟩ := List.mem_map.mp ha
  exact ⟨rfl, rfl, rfl⟩

theorem apart_map {α : Type} {f : α → Op} (hf : ∀ x, (f x).Apart l) (xs : List α) :
    ∀ a ∈ xs.map f, a.Apart l := by
  intro a ha
  obtain ⟨x, -, rfl⟩ := List.mem_map.mp ha
  exact hf x

theorem phaseChange_body (g : LogicalGraph) (s : State n) (t : TaskId) (c : Command) (l : ℕ) :
    PhaseChange l (body g s t c) (.prepare t c) := by
  by_cases hgated : c.gated l = 1
  · obtain ⟨hprocess, howner⟩ := gated_eq_one.mp hgated
    cases c with
    | inputRun l' i | oneToOneRun l' o port | scatterGatherRun l' inputs p =>
      obtain rfl : l' = l := howner
      exact .beginRun hgated rfl rfl
    | threadLocalFinalize l' worker =>
      obtain rfl : l' = l := howner
      exact .beginFinalize hgated rfl rfl
    | _ => cases hprocess
  · have hzero : c.gated l = 0 := (gated_eq_zero_or_one c l).resolve_right hgated
    have hne : ∀ l', c.isProcessCommand = true → c.owner = l' → ¬ l' = l :=
      fun l' hprocess howner heq => hgated (gated_eq_one.mpr ⟨hprocess, howner.trans heq⟩)
    refine .keep ?_ hzero rfl
    cases c with
    | inputRun l' i | oneToOneRun l' o port | scatterGatherRun l' inputs p
    | threadLocalFinalize l' worker =>
      have hl := hne l' rfl rfl
      intro a ha
      simp only [body, List.mem_cons, List.not_mem_nil, or_false] at ha
      rcases ha with rfl | rfl | rfl | rfl <;>
        exact ⟨by simp [Op.notifies, hl], by simp [Op.opens, hl], rfl⟩
    | processBarrier l' => exact apart_map (fun _ => ⟨rfl, rfl, rfl⟩) _
    | shuffleBarrier l' =>
      simp only [body]
      split
      · rw [List.forall_mem_append]
        exact ⟨apart_map (fun _ => ⟨rfl, rfl, rfl⟩) _,
          List.forall_mem_singleton.mpr ⟨rfl, rfl, rfl⟩⟩
      · exact List.forall_mem_nil _
    | empty => exact List.forall_mem_nil _
    | _ => exact List.forall_mem_singleton.mpr ⟨rfl, rfl, rfl⟩

theorem inside_eq_zero {l' : ℕ} {callback : Callback} (h : ¬ (callback = .run ∧ l' = l)) :
    (Op.inCallback l' callback).inside l = 0 := by
  cases callback with
  | run => exact if_neg fun heq => h ⟨rfl, heq⟩
  | _ => rfl

theorem Performs.phaseChange (h : Performs g s w op e) (l : ℕ) : PhaseChange l e.next op := by
  have hnil : ∀ a ∈ ([] : List Op), a.Apart l := List.forall_mem_nil _
  have hone : ∀ a : Op, a.Apart l → ∀ b ∈ [a], b.Apart l := fun a => List.forall_mem_singleton.mpr
  have hmap : ∀ {α : Type} (f : α → Op), (∀ x, (f x).Apart l) → ∀ xs : List α,
      ∀ a ∈ xs.map f, a.Apart l := fun f hf xs => apart_map hf xs
  cases h with
  | step op choice hoption =>
    cases op with
    | prepare t c => exact phaseChange_body g s t c l
    | call l' callback inputs =>
      by_cases hrun : callback = .run ∧ l' = l
      · obtain ⟨rfl, rfl⟩ := hrun
        exact .call rfl
      · have hopens : (Op.call l' callback inputs).opens l = 0 := by
          cases callback with
          | run => exact if_neg fun heq => hrun ⟨rfl, heq⟩
          | _ => rfl
        exact .keep (hone _ ⟨rfl, rfl, inside_eq_zero hrun⟩) hopens rfl
    | inCallback l' callback =>
      by_cases hrun : callback = .run ∧ l' = l
      · obtain ⟨rfl, rfl⟩ := hrun
        exact .leave rfl
      · exact .keep hnil rfl (inside_eq_zero hrun)
    | threadLocalFinalize l' =>
      have hnext : ∀ a ∈ (effect g s choice w (.threadLocalFinalize l')).next, a.Apart l := by
        simp only [effect]
        split
        · exact hone _ ⟨rfl, rfl, rfl⟩
        · exact hnil
      by_cases hl : l' = l
      · subst hl
        exact .finalize hnext
      · exact .keep hnext (if_neg hl) rfl
    | sortRecords l' p => exact .keep (apart_commitFragment g _ p _) rfl rfl
    | sortValues l' p => exact .keep (apart_commitFragment g _ p _) rfl rfl
    | runGather l' inputs =>
      exact .keep (List.forall_mem_append.mpr
        ⟨apart_commitFragment g _ 0 _, hone _ ⟨rfl, rfl, rfl⟩⟩) rfl rfl
    | deliver x p o =>
      refine .keep ?_ rfl rfl
      simp only [effect, receiveFragment, receiveProcessFragment]
      split <;> (try split) <;> first
        | exact hnil
        | exact hone _ ⟨rfl, rfl, rfl⟩
    | link t c deps =>
      refine .keep ?_ rfl rfl
      cases deps with
      | cons d deps => exact hone _ ⟨rfl, rfl, rfl⟩
      | nil =>
        simp only [effect, commitTask]
        split
        · exact hmap _ (fun _ => ⟨rfl, rfl, rfl⟩) _
        · exact hone _ ⟨rfl, rfl, rfl⟩
    | notifyCompletion l' t => exact .keep (hmap _ (fun _ => ⟨rfl, rfl, rfl⟩) _) rfl rfl
    | globalInitialize l' | globalFinalize l' | threadLocalInitialize l' =>
      refine .keep ?_ rfl rfl
      simp only [effect]
      split <;> first
        | exact hnil
        | exact List.forall_mem_cons.mpr ⟨⟨rfl, rfl, rfl⟩, hone _ ⟨rfl, rfl, rfl⟩⟩
        | exact List.forall_mem_cons.mpr ⟨⟨rfl, rfl, rfl⟩,
            List.forall_mem_cons.mpr ⟨⟨rfl, rfl, rfl⟩, hone _ ⟨rfl, rfl, rfl⟩⟩⟩
    | afterGlobalInitialize l' =>
      refine .keep ?_ rfl rfl
      simp only [effect]
      split
      · exact hmap _ (fun _ => ⟨rfl, rfl, rfl⟩) _
      · exact hnil
    | createFinalizer l' worker =>
      refine .keep ?_ rfl rfl
      simp only [effect]
      split
      · exact hone _ ⟨rfl, rfl, rfl⟩
      · exact hnil
    | countDown l' p =>
      refine .keep ?_ rfl rfl
      simp only [effect]
      split
      · exact hone _ ⟨rfl, rfl, rfl⟩
      · exact hnil
    | createSortTask l' p | createPartitionRun l' p | spawn c =>
      exact .keep (hone _ ⟨rfl, rfl, rfl⟩) rfl rfl
    | _ => exact .keep hnil rfl rfl
  | allocate l' callback size =>
    by_cases hrun : callback = .run ∧ l' = l
    · obtain ⟨rfl, rfl⟩ := hrun
      exact .stay hnil rfl
    · exact .keep (hone _ ⟨rfl, rfl, inside_eq_zero hrun⟩) rfl (inside_eq_zero hrun)
  | flush l' callback port recordCount o hport hbuffer =>
    have hcommits : ∀ a ∈ (if 0 < recordCount then commitFragment g (l', port) 0 o else []),
        a.Apart l := by
      split
      · exact apart_commitFragment g _ 0 o
      · exact hnil
    by_cases hrun : callback = .run ∧ l' = l
    · obtain ⟨rfl, rfl⟩ := hrun
      exact .stay hcommits rfl
    · exact .keep (List.forall_mem_append.mpr ⟨hcommits, hone _ ⟨rfl, rfl, inside_eq_zero hrun⟩⟩)
        rfl (inside_eq_zero hrun)
  | setTaskCount l' count hinput => exact .keep (hone _ ⟨rfl, rfl, rfl⟩) rfl rfl

end Change

/-- How a program passes the gate of `l`: it notifies at most once and does nothing for `l`
after that, and until then at most one of its operations is before or inside `run`. -/
structure Passing (l : ℕ) (c : Command) (program : List Op) : Prop where
  gated : (program.map (Op.gated l)).sum ≤ c.gated l
  started : (program.map (Op.opens l)).sum + (program.map (Op.inside l)).sum ≤
    (program.map (Op.gated l)).sum
  last : program.Pairwise fun a b => 0 < a.notifies l → b.opens l = 0 ∧ b.inside l = 0
  kind : ∀ op ∈ program, (0 < op.inside l ∨ ∃ inputs, op = .call l .run inputs) → c.kind = .run

section Passing

variable {g : LogicalGraph} {lm : LocalityManager} {s : State n} {l : ℕ} {c : Command} {op : Op}
  {rest more : List Op}

theorem sum_apart {f : Op → ℕ} (hf : ∀ a ∈ more, f a = 0) : (more.map f).sum = 0 := by
  refine List.sum_eq_zero fun x hx => ?_
  obtain ⟨a, ha, rfl⟩ := List.mem_map.mp hx
  exact hf a ha

theorem eq_zero_of_sum {f : Op → ℕ} (hsum : (rest.map f).sum = 0) : ∀ a ∈ rest, f a = 0 :=
  fun _ ha => List.sum_eq_zero_iff.mp hsum _ (List.mem_map_of_mem ha)

/-- No operation of a list that is apart is a call of `run` or inside it. -/
theorem not_kind_of_apart {a : Op} (ha : a.Apart l)
    (h : 0 < a.inside l ∨ ∃ inputs, a = .call l .run inputs) : False := by
  rcases h with hpos | ⟨inputs, rfl⟩
  · rw [ha.inside] at hpos
    exact Nat.lt_irrefl 0 hpos
  · have hone : (Op.call l .run inputs).opens l = 1 := if_pos rfl
    rw [ha.opens] at hone
    cases hone

/-- Operations that do not notify may be put in front. -/
theorem pairwise_last (more : List Op) (hmore : ∀ a ∈ more, a.notifies l = 0)
    (hrest : rest.Pairwise fun a b => 0 < a.notifies l → b.opens l = 0 ∧ b.inside l = 0) :
    (more ++ rest).Pairwise fun a b => 0 < a.notifies l → b.opens l = 0 ∧ b.inside l = 0 := by
  have hnot : ∀ a ∈ more, ¬ 0 < a.notifies l := fun a ha hpos => by
    rw [hmore a ha] at hpos
    exact Nat.lt_irrefl 0 hpos
  refine List.pairwise_append.mpr ⟨?_, hrest, fun a ha b _ hpos => absurd hpos (hnot a ha)⟩
  exact List.pairwise_of_forall_mem_list fun a ha b _ hpos => absurd hpos (hnot a ha)

/-- The head of a program may be replaced where what it may still do does not grow. -/
theorem Passing.replace (h : Passing l c (op :: rest))
    (hgated : (more.map (Op.gated l)).sum ≤ op.gated l)
    (hstarted : (more.map (Op.opens l)).sum + (more.map (Op.inside l)).sum +
      ((rest.map (Op.opens l)).sum + (rest.map (Op.inside l)).sum) ≤
        (more.map (Op.gated l)).sum + (rest.map (Op.gated l)).sum)
    (hlast : (more ++ rest).Pairwise fun a b => 0 < a.notifies l → b.opens l = 0 ∧ b.inside l = 0)
    (hkind : ∀ a ∈ more, (0 < a.inside l ∨ ∃ inputs, a = .call l .run inputs) → c.kind = .run) :
    Passing l c (more ++ rest) := by
  have hsum := h.gated
  rw [List.map_cons, List.sum_cons] at hsum
  refine ⟨?_, ?_, hlast, List.forall_mem_append.mpr
    ⟨hkind, fun a ha => h.kind a (List.mem_cons_of_mem _ ha)⟩⟩
  · rw [List.map_append, List.sum_append]
    omega
  · simp only [List.map_append, List.sum_append]
    omega

/-- What an operation that is apart leaves open is left open by the rest, or it has notified. -/
theorem Passing.step_apart (h : Passing l c (op :: rest)) (hmore : ∀ a ∈ more, a.Apart l)
    (hgated : (more.map (Op.gated l)).sum + op.notifies l = op.gated l) :
    Passing l c (more ++ rest) := by
  obtain ⟨hbehind, hlast⟩ := List.pairwise_cons.mp h.last
  have hstarted := h.started
  simp only [List.map_cons, List.sum_cons] at hstarted
  have hopens := sum_apart fun a ha => (hmore a ha).opens
  have hinside := sum_apart fun a ha => (hmore a ha).inside
  refine h.replace (by omega) ?_ (pairwise_last _ (fun a ha => (hmore a ha).notifies) hlast)
    fun a ha hkind => (not_kind_of_apart (hmore a ha) hkind).elim
  rcases Nat.eq_zero_or_pos (op.notifies l) with hzero | hpos
  · omega
  · have hrestOpens : (rest.map (Op.opens l)).sum = 0 :=
      sum_apart fun a ha => (hbehind a ha hpos).1
    have hrestInside : (rest.map (Op.inside l)).sum = 0 :=
      sum_apart fun a ha => (hbehind a ha hpos).2
    omega

theorem Passing.step (h : Passing l c (op :: rest)) (hchange : PhaseChange l more op)
    (hgated : (more.map (Op.gated l)).sum + op.notifies l = op.gated l)
    (hcommand : ∀ t c', op = .prepare t c' → c' = c) : Passing l c (more ++ rest) := by
  have hlast := (List.pairwise_cons.mp h.last).2
  have hsum := h.gated
  have hstarted := h.started
  simp only [List.map_cons, List.sum_cons] at hsum hstarted
  have hone := gated_eq_zero_or_one c l
  -- nothing is open behind the `prepare` of a process command
  have hprepare : ∀ t c', op = .prepare t c' → c'.gated l = 1 →
      (rest.map (Op.opens l)).sum = 0 ∧ (rest.map (Op.inside l)).sum = 0 := by
    rintro t c' rfl hgated'
    obtain rfl := hcommand t c' rfl
    have hown : (Op.prepare t c').gated l = 1 ∧ (Op.prepare t c').opens l = 1 :=
      ⟨hgated', hgated'⟩
    omega
  cases hchange with
  | keep hnext => exact h.step_apart hnext hgated
  | finalize hnext => exact h.step_apart hnext hgated
  | leave hnext => exact h.step_apart (hnext ▸ List.forall_mem_nil _) hgated
  | @beginRun t c' inputs hgated' hrun hnext =>
    obtain ⟨hopens, hinside⟩ := hprepare t c' rfl hgated'
    obtain rfl := hcommand t c' rfl
    subst hnext
    refine h.replace (by omega) ?_ ?_ fun _ _ _ => hrun
    · simp [Op.opens, Op.inside, Op.gated, hopens, hinside]
    · refine pairwise_last [_, _, _] ?_ (List.pairwise_cons.mpr ⟨fun b hb _ => ?_, hlast⟩)
      · simp [Op.notifies]
      · exact ⟨eq_zero_of_sum hopens b hb, eq_zero_of_sum hinside b hb⟩
  | @beginFinalize t c' hgated' hfinalize hnext =>
    obtain ⟨hopens, hinside⟩ := hprepare t c' rfl hgated'
    subst hnext
    refine h.replace (by omega) ?_ ?_ ?_
    · simp [Op.opens, Op.inside, Op.gated, hopens, hinside]
    · refine pairwise_last [_, _] ?_ (List.pairwise_cons.mpr ⟨fun b hb _ => ?_, hlast⟩)
      · simp [Op.notifies]
      · exact ⟨eq_zero_of_sum hopens b hb, eq_zero_of_sum hinside b hb⟩
    · simp [Op.inside]
  | @call inputs hnext =>
    subst hnext
    have hrun := h.kind _ List.mem_cons_self (Or.inr ⟨inputs, rfl⟩)
    have hopens : (Op.call l .run inputs).opens l = 1 := if_pos rfl
    refine h.replace (by omega) ?_ (pairwise_last _ (by simp [Op.notifies]) hlast) fun _ _ _ => hrun
    simp only [List.map_cons, List.sum_cons, List.map_nil, List.sum_nil, Op.opens, Op.inside,
      Op.gated, if_true] at hstarted ⊢
    omega
  | @stay before hbefore hnext =>
    subst hnext
    have hbeforeOpens := sum_apart fun a ha => (hbefore a ha).opens
    have hbeforeInside := sum_apart fun a ha => (hbefore a ha).inside
    have hinside : (Op.inCallback l .run).inside l = 1 := if_pos rfl
    have hrun := h.kind _ List.mem_cons_self (Or.inl (hinside ▸ Nat.one_pos))
    refine h.replace (by omega) ?_ (pairwise_last _ ?_ hlast) fun _ _ _ => hrun
    · simp only [List.map_append, List.sum_append, hbeforeOpens, hbeforeInside]
      simp only [List.map_cons, List.sum_cons, List.map_nil, List.sum_nil, Op.opens, Op.inside,
        Op.gated, if_true] at hstarted ⊢
      omega
    · exact List.forall_mem_append.mpr
        ⟨fun a ha => (hbefore a ha).notifies, List.forall_mem_singleton.mpr rfl⟩

theorem passing_prepare (l : ℕ) (t : TaskId) (c : Command) : Passing l c [.prepare t c] := by
  refine ⟨?_, ?_, List.pairwise_singleton _ _, ?_⟩
  · simp [Op.gated]
  · simp [Op.gated, Op.opens, Op.inside]
  · simp [Op.inside]

theorem run_passing (hwaits : Waits g) (hrun : Run g lm s) (l : ℕ) : Programs (Passing l) s := by
  induction hrun with
  | start hinit =>
    obtain ⟨draws, rfl⟩ := hinit
    exact programs_start _ g _
  | @next s s' hrun hstep ih =>
    have h := run_invariant hwaits hrun
    refine step_programs h (passing_prepare l) ?_ ih hstep
    intro w t c op rest e hrunning hc hprogram heffect hpassing
    refine hpassing.step (heffect.phaseChange l) (heffect.gated l) ?_
    rintro t' c' rfl
    exact (h.fits_of_mem hrunning hc (mem_program hprogram)).2

end Passing

/-- The phase of a process command of `l` whose program has not come to its notification. -/
def phaseOf (l : ℕ) (program : List Op) : ProcessGate.Phase :=
  if 0 < (program.map (Op.opens l)).sum then .begun
  else if 0 < (program.map (Op.inside l)).sum then .inRun
  else .returned

/-- The command of a task as the gate by itself knows it. -/
def State.gateCommand (s : State n) (t : TaskId) : ProcessGate.Command :=
  { task := t, kind := (s.commands[t]?).elim .run Command.kind }

/-- The worker runs `t`, a process command of `l` that has not notified. -/
def State.HasJob (s : State n) (l : ℕ) (w : Fin n) (t : TaskId) : Prop :=
  (s.workers w).activity = .running t ∧ 0 < ((s.workers w).program.map (Op.gated l)).sum

def State.job (s : State n) (l : ℕ) (w : Fin n) (t : TaskId) : ProcessGate.Job :=
  { worker := w, command := s.gateCommand t, phase := phaseOf l (s.workers w).program }

/-- The task has got through its gate. -/
def State.Past (s : State n) (t : TaskId) : Prop :=
  .commitCalled t ∈ s.system.log ∨ ∃ w, .commit t ∈ (s.workers w).program

/-- A state of the gate by itself that follows what goes on at `l`. -/
structure Mirrors (l : ℕ) (s : State n) (p : ProcessGate.State) : Prop where
  gate : p.gate = (s.locals l).gate.map s.gateCommand
  initialized : p.globalInitialized = true
  submitted : ∀ x ∈ p.submitted, s.Past x.task ∨ x.task ∈ (s.locals l).gate.taskQueue
  committed : ∀ t c, s.commands[t]? = some c → c.gated l = 1 → .taken t ∉ s.system.log →
    s.Past t → s.gateCommand t ∈ p.committed
  jobs : ∀ j, j ∈ p.jobs ↔ ∃ w t, s.HasJob l w t ∧ j = s.job l w t

section Phases

variable {l : ℕ} {op : Op} {more rest : List Op}

theorem phaseOf_congr (hopens : (more.map (Op.opens l)).sum = (rest.map (Op.opens l)).sum)
    (hinside : (more.map (Op.inside l)).sum = (rest.map (Op.inside l)).sum) :
    phaseOf l more = phaseOf l rest := by
  rw [phaseOf, phaseOf, hopens, hinside]

theorem phaseOf_begun (h : 0 < (rest.map (Op.opens l)).sum) : phaseOf l rest = .begun := if_pos h

theorem phaseOf_inRun (hopens : (rest.map (Op.opens l)).sum = 0)
    (hinside : 0 < (rest.map (Op.inside l)).sum) : phaseOf l rest = .inRun := by
  rw [phaseOf, if_neg (by omega), if_pos hinside]

theorem phaseOf_returned (hopens : (rest.map (Op.opens l)).sum = 0)
    (hinside : (rest.map (Op.inside l)).sum = 0) : phaseOf l rest = .returned := by
  rw [phaseOf, if_neg (by omega), if_neg (by omega)]

/-- An operation leaves the phase of its program, or it is one of those that begin or end
`run` or are a finalizer's. -/
theorem PhaseChange.phase (h : PhaseChange l more op) (rest : List Op) :
    phaseOf l (more ++ rest) = phaseOf l (op :: rest) ∨
      (∃ inputs, op = .call l .run inputs ∧ more = [.inCallback l .run]) ∨
      (op = .inCallback l .run ∧ more = []) ∨
      (op = .threadLocalFinalize l ∧ ∀ a ∈ more, a.Apart l) := by
  have hsame : (more.map (Op.opens l)).sum = op.opens l →
      (more.map (Op.inside l)).sum = op.inside l →
        phaseOf l (more ++ rest) = phaseOf l (op :: rest) := fun hopens hinside =>
    phaseOf_congr (by simp [hopens]) (by simp [hinside])
  cases h with
  | keep hnext hop hin =>
    refine Or.inl (hsame ?_ ?_)
    · rw [hop]
      exact sum_apart fun a ha => (hnext a ha).opens
    · rw [hin]
      exact sum_apart fun a ha => (hnext a ha).inside
  | beginRun hone hrun hnext =>
    subst hnext
    refine Or.inl (hsame ?_ ?_) <;> simp [Op.opens, Op.inside, hone]
  | beginFinalize hone hfin hnext =>
    subst hnext
    refine Or.inl (hsame ?_ ?_) <;> simp [Op.opens, Op.inside, hone]
  | @call inputs hnext => exact Or.inr (Or.inl ⟨inputs, rfl, hnext⟩)
  | stay hbefore hnext =>
    subst hnext
    have hopens := sum_apart fun a ha => (hbefore a ha).opens
    have hinside := sum_apart fun a ha => (hbefore a ha).inside
    refine Or.inl (hsame ?_ ?_)
    · rw [List.map_append, List.sum_append, hopens]
      rfl
    · rw [List.map_append, List.sum_append, hinside]
      simp
  | leave hnext => exact Or.inr (Or.inr (Or.inl ⟨rfl, hnext⟩))
  | finalize hnext => exact Or.inr (Or.inr (Or.inr ⟨rfl, hnext⟩))

end Phases

section Commits

variable {g : LogicalGraph} {lm : LocalityManager} {s s' : State n} {w : Fin n} {l : ℕ}
  {t u : TaskId} {c : Command} {op : Op} {rest : List Op} {e : Effect}

theorem Inv.lt_of_past (h : Inv g lm s) (hpast : s.Past t) : t < s.commands.length := by
  rcases hpast with hcalled | ⟨w, hcommit⟩
  · exact (h.created_iff t).mp ((run_inv h.run).log.called_created t hcalled)
  · exact (h.uncalled_of_owed hcommit (by simp [Op.owesCommit])).2

theorem gateCommand_apply (w : Fin n) (rest : List Op) (e : Effect)
    (ht : t < s.commands.length) : (s.apply w rest e).gateCommand t = s.gateCommand t := by
  simp only [State.gateCommand, State.apply, List.getElem?_append_left ht]

theorem Inv.past_apply (h : Inv g lm s) (hrunning : (s.workers w).activity = .running t)
    (hcall : s.system.calls (some w) = .idle) (hprogram : (s.workers w).program = op :: rest)
    (heffect : Performs g s w op e) :
    (s.apply w rest e).Past u ↔ s.Past u ∨ .commit u ∈ e.next := by
  have hlog := (performed h.run hcall (h.action_valid hrunning hprogram heffect)).log
  have hcalled : .commitCalled u ∈ (s.apply w rest e).system.log ↔
      op = .commit u ∨ .commitCalled u ∈ s.system.log := by
    have heq : (s.apply w rest e).system.log = e.action.events s.system ++ s.system.log := hlog
    rw [heq, List.mem_append]
    refine or_congr_left ?_
    rcases heffect.action with hnone | ⟨c, choice, rfl, -, rfl⟩ | ⟨t', c', d, deps, rfl, rfl⟩ |
        ⟨t', rfl, rfl⟩
    · rw [hnone]
      simp only [Action.events, List.not_mem_nil, false_iff]
      rintro rfl
      cases heffect
      cases hnone
    · simp [effect, Action.events]
    · simp only [Action.events]
      split <;> simp
    · simp [Action.events, eq_comm]
  have hself : ((s.apply w rest e).workers w).program = e.next ++ rest := by simp [State.apply]
  have hother : ∀ w', w' ≠ w → ((s.apply w rest e).workers w').program = (s.workers w').program :=
    fun w' hw => by simp [State.apply, hw]
  constructor
  · rintro (hlogged | ⟨w', hop⟩)
    · rcases hcalled.mp hlogged with rfl | hold
      · exact Or.inl (Or.inr ⟨w, mem_program hprogram⟩)
      · exact Or.inl (Or.inl hold)
    · by_cases hw : w' = w
      · subst hw
        rw [hself] at hop
        rcases List.mem_append.mp hop with hnext | hrest
        · exact Or.inr hnext
        · exact Or.inl (Or.inr ⟨w', hprogram ▸ List.mem_cons_of_mem _ hrest⟩)
      · rw [hother w' hw] at hop
        exact Or.inl (Or.inr ⟨w', hop⟩)
  · rintro ((hlogged | ⟨w', hop⟩) | hnext)
    · exact Or.inl (hcalled.mpr (Or.inr hlogged))
    · by_cases hw : w' = w
      · subst hw
        rw [hprogram] at hop
        rcases List.mem_cons.mp hop with hhead | hrest
        · exact Or.inl (hcalled.mpr (Or.inl hhead.symm))
        · exact Or.inr ⟨w', hself ▸ List.mem_append_right _ hrest⟩
      · exact Or.inr ⟨w', (hother w' hw).symm ▸ hop⟩
    · exact Or.inr ⟨w, hself ▸ List.mem_append_left _ hnext⟩

theorem eq_of_mem_commitProcessCommand {gate : ProcessGate.Gate TaskId}
    (h : u ∈ (gate.commitProcessCommand t).2) : u = t := by
  unfold ProcessGate.Gate.commitProcessCommand at h
  split at h
  · cases h
  · exact List.mem_singleton.mp h

theorem mem_commitProcessCommand (gate : ProcessGate.Gate TaskId) (t u : TaskId) :
    u ∈ (gate.commitProcessCommand t).2 ∨ u ∈ (gate.commitProcessCommand t).1.taskQueue ↔
      u = t ∨ u ∈ gate.taskQueue := by
  unfold ProcessGate.Gate.commitProcessCommand
  split
  · simp [or_comm]
  · simp

theorem mem_notifyCompletion (gate : ProcessGate.Gate TaskId) (u : TaskId) :
    u ∈ gate.notifyCompletion.2 ∨ u ∈ gate.notifyCompletion.1.taskQueue ↔
      u ∈ gate.taskQueue := by
  rw [← List.mem_append, ProcessGate.Gate.notifyCompletion, ProcessGate.release_append]

/-- A process command of `l` gets through the gate when it is submitted or when another
one notifies. -/
theorem Inv.commit_next (h : Inv g lm s) (hgates : ∀ l, GateInv s l (gateLimit g l))
    (hrunning : (s.workers w).activity = .running t) (hprogram : (s.workers w).program = op :: rest)
    (heffect : Performs g s w op e) (hc : s.commands[u]? = some c) (hgated : c.gated l = 1)
    (hcommit : .commit u ∈ e.next) :
    (op = .link u c [] ∧ u ∈ ((s.locals l).gate.commitProcessCommand u).2) ∨
      ∃ t', op = .notifyCompletion l t' ∧ u ∈ (s.locals l).gate.notifyCompletion.2 := by
  obtain ⟨hprocess, howner⟩ := gated_eq_one.mp hgated
  by_cases hop : op.commits = true
  · cases heffect with
    | step op choice hoption =>
      cases op with
      | spawn c' => simp [effect] at hcommit
      | commit t' => simp [effect] at hcommit
      | link t' c' deps =>
        obtain ⟨-, -, hc', -⟩ := h.running_fits hrunning (mem_program hprogram)
        cases deps with
        | cons d deps => simp [effect] at hcommit
        | nil =>
          simp only [effect, commitTask] at hcommit
          split at hcommit
          · obtain ⟨u', hu', heq⟩ := List.mem_map.mp hcommit
            obtain rfl : u' = u := Op.commit.inj heq
            obtain rfl := eq_of_mem_commitProcessCommand hu'
            rw [hc, Option.some.injEq] at hc'
            subst hc'
            rw [howner] at hu'
            exact Or.inl ⟨rfl, hu'⟩
          · next hnot =>
            obtain rfl : u = t' := Op.commit.inj (List.mem_singleton.mp hcommit)
            rw [hc, Option.some.injEq] at hc'
            exact absurd (hc' ▸ hprocess) hnot
      | notifyCompletion l' t' =>
        obtain ⟨u', hu', heq⟩ := List.mem_map.mp hcommit
        obtain rfl : u' = u := Op.commit.inj heq
        have hqueued : u' ∈ (s.locals l').gate.taskQueue :=
          (mem_notifyCompletion _ u').mp (Or.inl hu')
        obtain ⟨c', hc', hone⟩ := (hgates l').members u' hqueued
        rw [hc, Option.some.injEq] at hc'
        obtain rfl : l' = l := (gated_eq_one.mp hone).2.symm.trans (hc' ▸ howner)
        exact Or.inr ⟨t', rfl, hu'⟩
      | _ => cases hop
    | _ => cases hop
  · have hplain := heffect.plain (Bool.eq_false_iff.mpr hop)
    cases hplain.next _ hcommit

end Commits

section Mirror

variable {g : LogicalGraph} {lm : LocalityManager} {s s' : State n} {w : Fin n} {l : ℕ}
  {t u : TaskId} {c : Command} {op : Op} {rest : List Op} {e : Effect} {p : ProcessGate.State}

theorem mem_erase_job {jobs : List ProcessGate.Job} (hbusy : (jobs.map ProcessGate.Job.worker).Nodup)
    {job j : ProcessGate.Job} (hjob : job ∈ jobs) :
    j ∈ jobs.erase job ↔ j ∈ jobs ∧ j.worker ≠ job.worker := by
  rw [(List.Nodup.of_map _ hbusy).mem_erase_iff, and_comm, and_congr_right_iff]
  intro hj
  refine not_congr ⟨fun heq => by rw [heq], fun hworker => ?_⟩
  exact List.inj_on_of_nodup_map hbusy hj hjob hworker

theorem Mirrors.job_mem (h : Mirrors l s p) (hjob : s.HasJob l w t) : s.job l w t ∈ p.jobs :=
  (h.jobs _).mpr ⟨w, t, hjob, rfl⟩

/-- The jobs after an operation of `w`, which is the only worker to go on. -/
theorem Mirrors.jobs_apply (h : Mirrors l s p) (hinv : Inv g lm s)
    (hrunning : (s.workers w).activity = .running t) (rest : List Op) (e : Effect)
    {jobs : List ProcessGate.Job}
    (hjobs : ∀ j, j ∈ jobs ↔ (j ∈ p.jobs ∧ j.worker ≠ w) ∨
      (0 < ((e.next ++ rest).map (Op.gated l)).sum ∧
        j = { s.job l w t with phase := phaseOf l (e.next ++ rest) })) :
    ∀ j, j ∈ jobs ↔ ∃ w' t', (s.apply w rest e).HasJob l w' t' ∧
      j = (s.apply w rest e).job l w' t' := by
  have hlt : ∀ {w' t'}, (s.workers w').activity = .running t' → t' < s.commands.length := by
    intro w' t' hrunning'
    obtain ⟨-, -, -, c, hc, -⟩ := hinv.running w' t' hrunning'
    exact (List.getElem?_eq_some_iff.mp hc).1
  have hself : (s.apply w rest e).workers w =
      { activity := (s.workers w).activity
        program := e.next ++ rest
        held := e.held.getD (s.workers w).held
        buffers := e.buffers.getD (s.workers w).buffers } := Function.update_self ..
  have hother : ∀ w', w' ≠ w → (s.apply w rest e).workers w' = s.workers w' :=
    fun w' hw => Function.update_of_ne hw ..
  have hjob : ∀ w' t', w' ≠ w → (s.apply w rest e).HasJob l w' t' = s.HasJob l w' t' := by
    intro w' t' hw
    rw [State.HasJob, State.HasJob, hother w' hw]
  have hsame : ∀ w' t', w' ≠ w → s.HasJob l w' t' →
      (s.apply w rest e).job l w' t' = s.job l w' t' := by
    intro w' t' hw hhas
    rw [State.job, State.job, hother w' hw, gateCommand_apply w rest e (hlt hhas.1)]
  intro j
  rw [hjobs j]
  constructor
  · rintro (⟨hold, hworker⟩ | ⟨hpos, rfl⟩)
    · obtain ⟨w', t', hhas, rfl⟩ := (h.jobs j).mp hold
      have hw : w' ≠ w := fun heq => hworker (congrArg Fin.val heq)
      exact ⟨w', t', (hjob w' t' hw).mpr hhas, (hsame w' t' hw hhas).symm⟩
    · refine ⟨w, t, ⟨by rw [hself]; exact hrunning, by rw [hself]; exact hpos⟩, ?_⟩
      rw [State.job, State.job, hself, gateCommand_apply w rest e (hlt hrunning)]
  · rintro ⟨w', t', hhas, rfl⟩
    by_cases hw : w' = w
    · subst hw
      right
      obtain ⟨hrunning', hpos⟩ := hhas
      rw [hself] at hrunning' hpos
      obtain rfl : t' = t := Activity.running.inj (hrunning'.symm.trans hrunning)
      refine ⟨hpos, ?_⟩
      rw [State.job, State.job, hself, gateCommand_apply w' rest e (hlt hrunning)]
    · left
      have hhas' := (hjob w' t' hw).mp hhas
      rw [hsame w' t' hw hhas']
      exact ⟨h.job_mem hhas', fun heq => hw (Fin.ext heq)⟩

/-- A mirror after an operation, from its jobs and the tasks that the gate of `l` releases. -/
theorem Mirrors.apply_of_jobs (h : Mirrors l s p) (hinv : Inv g lm s)
    (hrunning : (s.workers w).activity = .running t)
    (hcall : s.system.calls (some w) = .idle) (hprogram : (s.workers w).program = op :: rest)
    (heffect : Performs g s w op e) (released : List TaskId) (p' : ProcessGate.State)
    (hgate : p'.gate = ((s.apply w rest e).locals l).gate.map s.gateCommand)
    (hinitialized : p'.globalInitialized = p.globalInitialized)
    (hcommitted : p'.committed = p.committed ++ released.map s.gateCommand)
    (hreleased : ∀ u c, s.commands[u]? = some c → c.gated l = 1 → .commit u ∈ e.next →
      u ∈ released)
    (hsubmitted : ∀ x ∈ p'.submitted, (s.apply w rest e).Past x.task ∨
      x.task ∈ ((s.apply w rest e).locals l).gate.taskQueue)
    (hmembers : ∀ u ∈ ((s.apply w rest e).locals l).gate.taskQueue, u < s.commands.length)
    (hjobs : ∀ j, j ∈ p'.jobs ↔ (j ∈ p.jobs ∧ j.worker ≠ w) ∨
      (0 < ((e.next ++ rest).map (Op.gated l)).sum ∧
        j = { s.job l w t with phase := phaseOf l (e.next ++ rest) })) :
    Mirrors l (s.apply w rest e) p' := by
  refine ⟨?_, hinitialized.trans h.initialized, hsubmitted, ?_,
    h.jobs_apply hinv hrunning rest e hjobs⟩
  · rw [hgate]
    simp only [ProcessGate.Gate.map]
    congr 1
    refine List.map_congr_left fun u hu => ?_
    exact (gateCommand_apply w rest e (hmembers u hu)).symm
  · intro u c hc hgated huntaken hpast
    have hlog := (performed hinv.run hcall (hinv.action_valid hrunning hprogram heffect)).log
    have huntaken' : .taken u ∉ s.system.log := fun htaken =>
      huntaken (hlog ▸ List.mem_append_right _ htaken)
    have hcases := (hinv.past_apply hrunning hcall hprogram heffect).mp hpast
    have hlt : u < s.commands.length := by
      rcases hcases with hold | hnew
      · exact hinv.lt_of_past hold
      · have hcreated : e.action.created = [] := by
          rcases heffect.action with hnone | ⟨c', choice, rfl, -, rfl⟩ |
              ⟨t', c', d, deps, rfl, rfl⟩ | ⟨t', rfl, rfl⟩
          · rw [hnone]
            rfl
          · simp [effect] at hnew
          · simp at hnew
          · simp at hnew
        have hall : (s.apply w rest e).commands = s.commands := by simp [State.apply, hcreated]
        rw [hall] at hc
        exact (List.getElem?_eq_some_iff.mp hc).1
    have hc' : s.commands[u]? = some c := by
      rw [← hc]
      exact (List.getElem?_append_left hlt).symm
    rw [gateCommand_apply w rest e hlt, hcommitted]
    rcases hcases with hold | hnew
    · exact List.mem_append_left _ (h.committed u c hc' hgated huntaken' hold)
    · exact List.mem_append_right _ (List.mem_map_of_mem (hreleased u c hc' hgated hnew))

/-- A mirror after an operation that commits exactly the tasks that the gate releases. -/
theorem Mirrors.apply_of_commits (h : Mirrors l s p) (hinv : Inv g lm s)
    (hrunning : (s.workers w).activity = .running t)
    (hcall : s.system.calls (some w) = .idle) (hprogram : (s.workers w).program = op :: rest)
    (heffect : Performs g s w op e) {released : List TaskId}
    (hnext : e.next = released.map .commit) (p' : ProcessGate.State)
    (hgate : p'.gate = ((s.apply w rest e).locals l).gate.map s.gateCommand)
    (hinitialized : p'.globalInitialized = p.globalInitialized)
    (hcommitted : p'.committed = p.committed ++ released.map s.gateCommand)
    (hsubmitted : ∀ x ∈ p'.submitted, s.Past x.task ∨ x.task ∈ released ∨
      x.task ∈ ((s.apply w rest e).locals l).gate.taskQueue)
    (hmembers : ∀ u ∈ ((s.apply w rest e).locals l).gate.taskQueue, u < s.commands.length)
    (hjobs : ∀ j, j ∈ p'.jobs ↔ (j ∈ p.jobs ∧ j.worker ≠ w) ∨
      (0 < ((e.next ++ rest).map (Op.gated l)).sum ∧
        j = { s.job l w t with phase := phaseOf l (e.next ++ rest) })) :
    Mirrors l (s.apply w rest e) p' := by
  have hpast := fun u => hinv.past_apply (u := u) hrunning hcall hprogram heffect
  refine h.apply_of_jobs hinv hrunning hcall hprogram heffect released p' hgate hinitialized
    hcommitted ?_ ?_ hmembers hjobs
  · intro u c _ _ hcommit
    rw [hnext] at hcommit
    obtain ⟨u', hu', heq⟩ := List.mem_map.mp hcommit
    exact Op.commit.inj heq ▸ hu'
  · intro x hx
    rcases hsubmitted x hx with hold | hcommit | hqueued
    · exact Or.inl ((hpast _).mpr (Or.inl hold))
    · exact Or.inl ((hpast _).mpr (Or.inr (hnext ▸ List.mem_map_of_mem hcommit)))
    · exact Or.inr hqueued

theorem GateInv.lt_of_mem {limit : UInt64} (hgate : GateInv s l limit)
    (hu : u ∈ (s.locals l).gate.taskQueue) : u < s.commands.length := by
  obtain ⟨c, hc, -⟩ := hgate.members u hu
  exact (List.getElem?_eq_some_iff.mp hc).1

/-- Nobody else is to commit a task that is about to be submitted. -/
theorem Inv.not_past_of_link (h : Inv g lm s) (hlink : .link t c [] ∈ (s.workers w).program) :
    ¬ s.Past t := by
  rintro (hcalled | ⟨w', hcommit⟩)
  · exact (h.uncalled_of_owed hlink (by simp [Op.owesCommit])).1 hcalled
  · have hle : ∀ w, ∀ op ∈ (s.workers w).program,
        (if op = .commit t then 1 else 0) + (if op = .link t c [] then 1 else 0) ≤
          op.owesCommit t := by
      intro w op _
      by_cases hop : op = .commit t
      · subst hop
        simp [Op.owesCommit]
      · by_cases hop' : op = .link t c []
        · subst hop'
          simp [Op.owesCommit]
        · simp [hop, hop']
    have hsum := inPrograms_le hle
    rw [inPrograms_add] at hsum
    have hfirst := inPrograms_pos (f := fun op => if op = .commit t then 1 else 0) hcommit (by simp)
    have hsecond := inPrograms_pos (f := fun op => if op = .link t c [] then 1 else 0) hlink
      (by simp)
    have hcommits := h.commits t
    unfold State.commits issued at hcommits
    split at hcommits <;> omega

theorem Inv.not_queued_of_link (h : Inv g lm s) (hgate : GateInv s l (gateLimit g l))
    (hlink : .link t c [] ∈ (s.workers w).program) : t ∉ (s.locals l).gate.taskQueue := by
  intro hqueued
  have hcount := List.count_pos_iff.mpr hqueued
  have hwaiting := h.count_le_waiting hgate t
  have howed := inPrograms_pos (f := Op.owesCommit t) hlink (by simp [Op.owesCommit])
  have hcommits := h.commits t
  unfold State.commits issued at hcommits
  split at hcommits <;> omega

/-- The jobs stay when the command of `w` neither notifies nor comes to another phase. -/
theorem Mirrors.jobs_same (h : Mirrors l s p) (hrunning : (s.workers w).activity = .running t)
    (hprogram : (s.workers w).program = op :: rest)
    (hsum : ((e.next ++ rest).map (Op.gated l)).sum = ((op :: rest).map (Op.gated l)).sum)
    (hphase : phaseOf l (e.next ++ rest) = phaseOf l (op :: rest)) :
    ∀ j, j ∈ p.jobs ↔ (j ∈ p.jobs ∧ j.worker ≠ w) ∨
      (0 < ((e.next ++ rest).map (Op.gated l)).sum ∧
        j = { s.job l w t with phase := phaseOf l (e.next ++ rest) }) := by
  have hjob : { s.job l w t with phase := phaseOf l (e.next ++ rest) } = s.job l w t := by
    rw [hphase, ← hprogram]
    rfl
  intro j
  rw [hjob, hsum, ← hprogram]
  constructor
  · intro hj
    by_cases hworker : j.worker = w
    · obtain ⟨w', t', hhas, rfl⟩ := (h.jobs j).mp hj
      obtain rfl : w' = w := Fin.ext hworker
      obtain rfl : t' = t := Activity.running.inj (hhas.1.symm.trans hrunning)
      exact Or.inr ⟨hhas.2, rfl⟩
    · exact Or.inl ⟨hj, hworker⟩
  · rintro (⟨hj, -⟩ | ⟨hpos, rfl⟩)
    · exact hj
    · exact h.job_mem ⟨hrunning, hpos⟩

/-- The jobs when the command of `w` comes to another phase. -/
theorem Mirrors.jobs_advance (h : Mirrors l s p)
    (hbusy : (p.jobs.map ProcessGate.Job.worker).Nodup) (hjob : s.HasJob l w t)
    (hpos : 0 < ((e.next ++ rest).map (Op.gated l)).sum) :
    ∀ j, j ∈ (p.advance (s.job l w t) (phaseOf l (e.next ++ rest))).jobs ↔
      (j ∈ p.jobs ∧ j.worker ≠ w) ∨ (0 < ((e.next ++ rest).map (Op.gated l)).sum ∧
        j = { s.job l w t with phase := phaseOf l (e.next ++ rest) }) := by
  intro j
  simp only [ProcessGate.State.advance, List.mem_cons, hpos, true_and]
  rw [mem_erase_job hbusy (h.job_mem hjob), or_comm]
  rfl

/-- The submission of a process command of `l` is one of the gate by itself. -/
theorem Mirrors.apply_submit {pc : ProcessGate.ProcessorClass} (h : Mirrors l s p)
    (hp : ProcessGate.Run n pc p) (hinv : Inv g lm s) (hgate : GateInv s l (gateLimit g l))
    (hrunning : (s.workers w).activity = .running t) (hcall : s.system.calls (some w) = .idle)
    (hprogram : (s.workers w).program = .link u c [] :: rest)
    (heffect : Performs g s w (.link u c []) e) (hc : s.commands[u]? = some c)
    (hgated : c.gated l = 1)
    (hnew : ((s.apply w rest e).locals l).gate = ((s.locals l).gate.commitProcessCommand u).1) :
    ∃ p', ProcessGate.Run n pc p' ∧ Mirrors l (s.apply w rest e) p' := by
  obtain ⟨hprocess, howner⟩ := gated_eq_one.mp hgated
  have hlink := mem_program hprogram
  have hfresh : (s.gateCommand u).task ∉ p.submitted.map ProcessGate.Command.task := by
    intro hmem
    obtain ⟨x, hx, heq⟩ := List.mem_map.mp hmem
    have hcases := h.submitted x hx
    rw [show x.task = u from heq] at hcases
    rcases hcases with hold | hqueued
    · exact hinv.not_past_of_link hlink hold
    · exact hinv.not_queued_of_link hgate hlink hqueued
  have hnext : e.next = ((s.locals l).gate.commitProcessCommand u).2.map .commit := by
    cases heffect
    simp [effect, commitTask, hprocess, howner]
  have hwhere := mem_commitProcessCommand (s.locals l).gate u
  refine ⟨_, hp.next (.submit hfresh),
    h.apply_of_commits hinv hrunning hcall hprogram heffect hnext _ ?_ rfl ?_ ?_ ?_ ?_⟩
  · simp only [ProcessGate.State.submit]
    rw [hnew, h.gate, ProcessGate.commitProcessCommand_map]
  · simp only [ProcessGate.State.submit]
    rw [h.gate, ProcessGate.commitProcessCommand_map]
  · intro x hx
    rw [hnew]
    rcases List.mem_cons.mp hx with rfl | hx
    · exact Or.inr ((hwhere u).mpr (Or.inl rfl))
    · exact (h.submitted x hx).imp_right fun hqueued => (hwhere x.task).mpr (Or.inr hqueued)
  · rw [hnew]
    intro v hv
    rcases (hwhere v).mp (Or.inr hv) with rfl | hqueued
    · exact (List.getElem?_eq_some_iff.mp hc).1
    · exact hgate.lt_of_mem hqueued
  · have hsame : ((e.next ++ rest).map (Op.gated l)).sum =
        ((Op.link u c [] :: rest).map (Op.gated l)).sum := by
      have hgated := heffect.gated l
      have hnotifies : (Op.link u c []).notifies l = 0 := rfl
      simp only [List.map_append, List.sum_append, List.map_cons, List.sum_cons]
      omega
    exact h.jobs_same hrunning hprogram hsame
      (((heffect.phaseChange l).phase rest).resolve_right (by simp))

/-- A notification is one of the gate by itself, and the job ends with it. -/
theorem Mirrors.apply_notify {pc : ProcessGate.ProcessorClass} (h : Mirrors l s p)
    (hp : ProcessGate.Run n pc p) (hinv : Inv g lm s) (hgate : GateInv s l (gateLimit g l))
    (hpass : Passing l c (.notifyCompletion l t :: rest)) (hone : c.gated l = 1)
    (hrunning : (s.workers w).activity = .running t) (hcall : s.system.calls (some w) = .idle)
    (hprogram : (s.workers w).program = .notifyCompletion l t :: rest)
    (heffect : Performs g s w (.notifyCompletion l t) e)
    (hnew : ((s.apply w rest e).locals l).gate = (s.locals l).gate.notifyCompletion.1) :
    ∃ p', ProcessGate.Run n pc p' ∧ Mirrors l (s.apply w rest e) p' := by
  have hbusy := (ProcessGate.run_slotInv hp).busy
  have hown : (Op.notifyCompletion l t).gated l = 1 := if_pos rfl
  have hnotifies : (Op.notifyCompletion l t).notifies l = 1 := if_pos rfl
  have hbehind := (List.pairwise_cons.mp hpass.last).1
  have hreturned : (s.job l w t).phase = .returned := by
    rw [State.job, hprogram]
    refine phaseOf_returned ?_ ?_ <;> rw [List.map_cons, List.sum_cons]
    · rw [sum_apart fun a ha => (hbehind a ha (by omega)).1]
      rfl
    · rw [sum_apart fun a ha => (hbehind a ha (by omega)).2]
      rfl
  have hhas : s.HasJob l w t := by
    refine ⟨hrunning, ?_⟩
    rw [hprogram, List.map_cons, List.sum_cons]
    omega
  have hnext : e.next = (s.locals l).gate.notifyCompletion.2.map .commit := by
    cases heffect
    rfl
  have hwhere := mem_notifyCompletion (s.locals l).gate
  refine ⟨_, hp.next (.notifyCompletion (h.job_mem hhas) hreturned),
    h.apply_of_commits hinv hrunning hcall hprogram heffect hnext _ ?_ rfl ?_ ?_ ?_ ?_⟩
  · simp only [ProcessGate.State.notifyCompletion]
    rw [hnew, h.gate, ProcessGate.notifyCompletion_map]
  · simp only [ProcessGate.State.notifyCompletion]
    rw [h.gate, ProcessGate.notifyCompletion_map]
  · intro x hx
    rw [hnew]
    exact (h.submitted x hx).imp_right fun hqueued => (hwhere x.task).mpr hqueued
  · rw [hnew]
    exact fun v hv => hgate.lt_of_mem ((hwhere v).mp (Or.inr hv))
  · have hzero : ((e.next ++ rest).map (Op.gated l)).sum = 0 := by
      have hsum := hpass.gated
      have hgated := heffect.gated l
      rw [List.map_cons, List.sum_cons] at hsum
      rw [List.map_append, List.sum_append]
      omega
    intro j
    simp only [ProcessGate.State.notifyCompletion, hzero, Nat.lt_irrefl, false_and, or_false]
    exact mem_erase_job hbusy (h.job_mem hhas)

/-- One operation of a worker is one step of the gate by itself or none. -/
theorem Mirrors.apply {pc : ProcessGate.ProcessorClass} (h : Mirrors l s p)
    (hp : ProcessGate.Run n pc p) (hinv : Inv g lm s)
    (hgates : ∀ l, GateInv s l (gateLimit g l)) (hpassing : Programs (Passing l) s)
    (hrunning : (s.workers w).activity = .running t)
    (hcall : s.system.calls (some w) = .idle) (hprogram : (s.workers w).program = op :: rest)
    (heffect : Performs g s w op e) :
    ∃ p', ProcessGate.Run n pc p' ∧ Mirrors l (s.apply w rest e) p' := by
  obtain ⟨-, -, -, c, hc, hfits⟩ := hinv.running w t hrunning
  have hfit := hfits op (mem_program hprogram)
  have hpass := hpassing w t c hrunning hc
  rw [hprogram] at hpass
  have hbusy := (ProcessGate.run_slotInv hp).busy
  have hgated := heffect.gated l
  have hone := gated_eq_zero_or_one c l
  have hsum := hpass.gated
  have hstarted := hpass.started
  have hkind : (s.gateCommand t).kind = c.kind := by rw [State.gateCommand, hc, Option.elim_some]
  have hphase : (s.job l w t).phase = phaseOf l (op :: rest) := by rw [State.job, hprogram]
  have hpast := fun u => (hinv.past_apply (u := u) hrunning hcall hprogram heffect)
  have hcommits := fun u c => hinv.commit_next (l := l) (u := u) (c := c) hgates hrunning hprogram
    heffect
  simp only [List.map_cons, List.sum_cons] at hsum hstarted
  have hchange := heffect.gateChange_apply rest l
  generalize hnew : ((s.apply w rest e).locals l).gate = gate at hchange
  cases hchange with
  | keep hsubmits hnotifies =>
    -- what is left to say is how the job of `w` goes on
    have hkeep : ∀ p' : ProcessGate.State, p'.gate = p.gate →
        p'.globalInitialized = p.globalInitialized → p'.committed = p.committed →
        p'.submitted = p.submitted →
        (∀ j, j ∈ p'.jobs ↔ (j ∈ p.jobs ∧ j.worker ≠ w) ∨
          (0 < ((e.next ++ rest).map (Op.gated l)).sum ∧
            j = { s.job l w t with phase := phaseOf l (e.next ++ rest) })) →
        Mirrors l (s.apply w rest e) p' := by
      intro p' hgate hinitialized hcommitted hsubmitted hjobs
      refine h.apply_of_jobs hinv hrunning hcall hprogram heffect [] p' ?_
        hinitialized ?_ ?_ ?_ ?_ hjobs
      · rw [hgate, hnew, h.gate]
      · rw [hcommitted, List.map_nil, List.append_nil]
      · intro u c' hc' hone' hcommit
        rcases hcommits u c' hc' hone' hcommit with ⟨rfl, -⟩ | ⟨t', rfl, -⟩
        · exact absurd (hone'.symm.trans hsubmits) Nat.one_ne_zero
        · exact absurd hnotifies (by simp [Op.notifies])
      · intro x hx
        rw [hnew]
        rw [hsubmitted] at hx
        exact (h.submitted x hx).imp_left fun hold => (hpast _).mpr (Or.inl hold)
      · rw [hnew]
        exact fun u hu => (hgates l).lt_of_mem hu
    have hsame : ((e.next ++ rest).map (Op.gated l)).sum = ((op :: rest).map (Op.gated l)).sum := by
      simp only [List.map_append, List.sum_append, List.map_cons, List.sum_cons]
      omega
    have hadvance : ∀ phase, phaseOf l (e.next ++ rest) = phase →
        0 < ((op :: rest).map (Op.gated l)).sum →
        (s.job l w t ∈ p.jobs → ProcessGate.Step n pc p (p.advance (s.job l w t) phase)) →
        ∃ p', ProcessGate.Run n pc p' ∧ Mirrors l (s.apply w rest e) p' := by
      rintro _ rfl hpos hstep
      have hhas : s.HasJob l w t := ⟨hrunning, hprogram ▸ hpos⟩
      exact ⟨_, hp.next (hstep (h.job_mem hhas)), hkeep _ rfl rfl rfl rfl
        (h.jobs_advance hbusy hhas (hsame ▸ hpos))⟩
    simp only [List.map_cons, List.sum_cons] at hadvance
    rcases (heffect.phaseChange l).phase rest with hstay | ⟨inputs, rfl, hnext⟩ | ⟨rfl, hnext⟩ |
        ⟨rfl, hnext⟩
    · exact ⟨p, hp, hkeep p rfl rfl rfl rfl (h.jobs_same hrunning hprogram hsame hstay)⟩
    · have hopens : (Op.call l .run inputs).opens l = 1 := if_pos rfl
      have hrest : (rest.map (Op.opens l)).sum = 0 := by omega
      refine hadvance .inRun ?_ (by omega) fun hmem => .callRun hmem ?_ ?_
      · rw [hnext]
        exact phaseOf_inRun (by simp [Op.opens, hrest]) (by simp [Op.inside])
      · exact hphase.trans (phaseOf_begun (by simp [Op.opens]))
      · exact hkind.trans (hpass.kind _ List.mem_cons_self (Or.inr ⟨inputs, rfl⟩))
    · have hinside : (Op.inCallback l .run).inside l = 1 := if_pos rfl
      have hrest : (rest.map (Op.opens l)).sum = 0 ∧ (rest.map (Op.inside l)).sum = 0 := by omega
      refine hadvance .returned ?_ (by omega) fun hmem => .returnRun hmem ?_
      · rw [hnext]
        exact phaseOf_returned hrest.1 hrest.2
      · exact hphase.trans (phaseOf_inRun (by simp [Op.opens, hrest.1]) (by simp [Op.inside]))
    · have hopens : (Op.threadLocalFinalize l).opens l = 1 := if_pos rfl
      have hrest : (rest.map (Op.opens l)).sum = 0 ∧ (rest.map (Op.inside l)).sum = 0 := by omega
      obtain ⟨worker, rfl⟩ := hfit
      refine hadvance .returned ?_ (by omega) fun hmem => .threadLocalFinalize hmem ?_ hkind
      · refine phaseOf_returned ?_ ?_ <;> rw [List.map_append, List.sum_append]
        · rw [hrest.1, sum_apart fun a ha => (hnext a ha).opens]
        · rw [hrest.2, sum_apart fun a ha => (hnext a ha).inside]
      · exact hphase.trans (phaseOf_begun (by simp [Op.opens]))
  | @submit u c' hgated' =>
    obtain ⟨hc', -⟩ := hfit
    exact h.apply_submit hp hinv (hgates l) hrunning hcall hprogram heffect hc' hgated' hnew
  | @notify u =>
    obtain ⟨howner, hprocess, rfl⟩ := hfit
    exact h.apply_notify hp hinv (hgates l) hpass (gated_eq_one.mpr ⟨hprocess, howner⟩) hrunning
      hcall hprogram heffect hnew

/-- Steps at which no program goes on and no task gets through a gate. -/
theorem Mirrors.congr (h : Mirrors l s p) (hlocals : s'.locals = s.locals)
    (hcommands : s'.commands = s.commands)
    (hprogram : ∀ w, (s'.workers w).program = (s.workers w).program)
    (hactivity : ∀ w, (s.workers w).program ≠ [] →
      (s'.workers w).activity = (s.workers w).activity) (events : List Event)
    (hlog : s'.system.log = events ++ s.system.log)
    (hevents : ∀ u, .commitCalled u ∉ events ∧ .taken u ∉ events) : Mirrors l s' p := by
  have hcommand : s'.gateCommand = s.gateCommand := by
    funext u
    rw [State.gateCommand, State.gateCommand, hcommands]
  have hpast : ∀ u, s'.Past u ↔ s.Past u := by
    intro u
    simp only [State.Past, hlog, hprogram, List.mem_append, (hevents u).1, false_or]
  have hhas : ∀ w u, s'.HasJob l w u ↔ s.HasJob l w u := by
    intro w u
    rw [State.HasJob, State.HasJob, hprogram w]
    refine and_congr_left fun hpos => ?_
    rw [hactivity w]
    intro hnil
    rw [hnil] at hpos
    exact Nat.lt_irrefl 0 hpos
  have hjob : ∀ w u, s'.job l w u = s.job l w u := by
    intro w u
    rw [State.job, State.job, hcommand, hprogram w]
  refine ⟨?_, h.initialized, ?_, ?_, ?_⟩
  · rw [hlocals, hcommand]
    exact h.gate
  · intro x hx
    rw [hpast, hlocals]
    exact h.submitted x hx
  · intro u c hc hgated huntaken hgone
    rw [hcommand]
    rw [hcommands] at hc
    refine h.committed u c hc hgated (fun hu => huntaken ?_) ((hpast u).mp hgone)
    rw [hlog]
    exact List.mem_append_right _ hu
  · intro j
    rw [h.jobs j]
    simp only [hhas, hjob]

/-- A worker without a program comes to another activity. -/
theorem Mirrors.settle (h : Mirrors l s p) {sys : System (Option (Fin n))} {activity : Activity}
    (hempty : (s.workers w).program = []) (events : List Event)
    (hlog : sys.log = events ++ s.system.log)
    (hevents : ∀ u, .commitCalled u ∉ events ∧ .taken u ∉ events) :
    Mirrors l { s.setActivity w activity with system := sys } p := by
  refine h.congr rfl rfl (fun w' => ?_) (fun w' hne => ?_) events hlog hevents
  · by_cases hw : w' = w
    · simp [State.setActivity, hw]
    · simp [State.setActivity, hw]
  · have hw : w' ≠ w := fun heq => hne (heq ▸ hempty)
    simp [State.setActivity, hw]

/-- The jobs when `w` takes `t`: one more that has begun, if `t` is a process command of `l`. -/
theorem Mirrors.jobs_take (h : Mirrors l s p) {scheduler : Scheduler}
    (hidle : (s.workers w).activity = .idle) (hc : s.commands[t]? = some c) (j : ProcessGate.Job) :
    (∃ w' u, (s.take w t scheduler).HasJob l w' u ∧ j = (s.take w t scheduler).job l w' u) ↔
      (0 < c.gated l ∧ j = ⟨w, s.gateCommand t, .begun⟩) ∨ j ∈ p.jobs := by
  have hself : (s.take w t scheduler).workers w =
      { Worker.idle with activity := .running t, program := [.prepare t c] } := by
    simp [State.take, hc]
  have hother : ∀ w', w' ≠ w → (s.take w t scheduler).workers w' = s.workers w' :=
    fun w' hw => Function.update_of_ne hw ..
  have hsum : (([.prepare t c] : List Op).map (Op.gated l)).sum = c.gated l := by simp [Op.gated]
  have hown : 0 < c.gated l →
      (s.take w t scheduler).job l w t = ⟨w, s.gateCommand t, .begun⟩ := by
    intro hpos
    rw [State.job, hself, phaseOf_begun (by simpa [Op.opens] using hpos)]
    rfl
  have hjob : ∀ w' u, w' ≠ w → (s.take w t scheduler).job l w' u = s.job l w' u := by
    intro w' u hw
    rw [State.job, State.job, hother w' hw]
    rfl
  rw [h.jobs j]
  constructor
  · rintro ⟨w', u, hhas, rfl⟩
    by_cases hw : w' = w
    · subst hw
      obtain ⟨hrunning, hpos⟩ := hhas
      rw [hself] at hrunning hpos
      obtain rfl : t = u := Activity.running.inj hrunning
      rw [hsum] at hpos
      exact Or.inl ⟨hpos, hown hpos⟩
    · rw [State.HasJob, hother w' hw] at hhas
      exact Or.inr ⟨w', u, hhas, hjob w' u hw⟩
  · rintro (⟨hpos, rfl⟩ | ⟨w', u, hhas, rfl⟩)
    · exact ⟨w, t, ⟨by rw [hself], by rw [hself, hsum]; exact hpos⟩, (hown hpos).symm⟩
    · have hw : w' ≠ w := by
        rintro rfl
        rw [hhas.1] at hidle
        cases hidle
      refine ⟨w', u, ?_, (hjob w' u hw).symm⟩
      rw [State.HasJob, hother w' hw]
      exact hhas

/-- A worker takes a task. -/
theorem Mirrors.take {pc : ProcessGate.ProcessorClass} (h : Mirrors l s p)
    (hp : ProcessGate.Run n pc p) (hinv : Inv g lm s) {q : QueueRef} {scheduler : Scheduler}
    (hidle : (s.workers w).activity = .idle)
    (hpop : Scheduler.Pops lm w s.system.scheduler q t scheduler) :
    ∃ p', ProcessGate.Run n pc p' ∧ Mirrors l (s.take w t scheduler) p' := by
  have hrun := run_inv hinv.run
  obtain ⟨hempty, -⟩ := hinv.idle w (Or.inl hidle)
  obtain ⟨tail, hperm, -⟩ := hpop.perm
  obtain ⟨hpushed, huntaken⟩ := hrun.data.queued q t (hperm.mem_iff.mpr List.mem_cons_self)
  have hcalled := hrun.released_called ⟨q, hpushed⟩
  have hlt := (hinv.created_iff t).mp (hrun.log.called_created t hcalled)
  obtain ⟨c, hc⟩ : ∃ c, s.commands[t]? = some c := ⟨_, List.getElem?_eq_getElem hlt⟩
  have hlog : (s.take w t scheduler).system.log = .taken t :: s.system.log := rfl
  have hpast : ∀ u, (s.take w t scheduler).Past u ↔ s.Past u := by
    intro u
    refine or_congr (by simp [hlog]) (exists_congr fun w' => ?_)
    by_cases hw : w' = w
    · subst hw
      simp [State.take, hc, hempty]
    · simp [State.take, hw]
  have hcommitted : ∀ u c', s.commands[u]? = some c' → c'.gated l = 1 →
      .taken u ∉ (s.take w t scheduler).system.log → (s.take w t scheduler).Past u →
        u ≠ t ∧ s.gateCommand u ∈ p.committed := by
    intro u c' hc' hgated huntaken' hgone
    simp only [hlog, List.mem_cons, Event.taken.injEq, not_or] at huntaken'
    exact ⟨huntaken'.1, h.committed u c' hc' hgated huntaken'.2 ((hpast u).mp hgone)⟩
  have hsubmitted : ∀ x ∈ p.submitted, (s.take w t scheduler).Past x.task ∨
      x.task ∈ (s.locals l).gate.taskQueue := fun x hx =>
    (h.submitted x hx).imp_left (hpast _).mpr
  rcases gated_eq_zero_or_one c l with hzero | hone
  · refine ⟨p, hp, ⟨h.gate, h.initialized, hsubmitted, ?_, fun j => ?_⟩⟩
    · exact fun u c' hc' hgated huntaken' hgone => (hcommitted u c' hc' hgated huntaken' hgone).2
    · rw [h.jobs_take hidle hc, hzero]
      simp
  · have hworker : (w : ℕ) ∉ p.jobs.map ProcessGate.Job.worker := by
      intro hmem
      obtain ⟨j, hj, heq⟩ := List.mem_map.mp hmem
      obtain ⟨w', u, hhas, rfl⟩ := (h.jobs j).mp hj
      obtain rfl : w' = w := Fin.ext heq
      rw [hhas.1] at hidle
      cases hidle
    have hmem := h.committed t c hc hone huntaken (Or.inl hcalled)
    refine ⟨_, hp.next (.take w.isLt hworker h.initialized hmem),
      ⟨h.gate, h.initialized, hsubmitted, ?_, fun j => ?_⟩⟩
    · intro u c' hc' hgated huntaken' hgone
      obtain ⟨hne, hold⟩ := hcommitted u c' hc' hgated huntaken' hgone
      refine (List.mem_erase_of_ne fun heq => hne ?_).mpr hold
      exact congrArg ProcessGate.Command.task heq
    · rw [h.jobs_take hidle hc, hone]
      simp [ProcessGate.State.take]

theorem mirrors_start {pc : ProcessGate.ProcessorClass}
    (hlimit : pc.constructed.maxConcurrency = gateLimit g l) (draws : TaskId → WorkerId) :
    ∃ p, ProcessGate.Run n pc p ∧
      Mirrors l (State.start g (Plan.setUp g lm draws) : State n) p := by
  have hfirst : ProcessGate.Run n pc (ProcessGate.construct pc.constructed) := .start rfl
  refine ⟨_, hfirst.next (.globalInitialize rfl), ⟨?_, rfl, ?_, ?_, ?_⟩⟩
  · have hqueue : ((State.start g (Plan.setUp g lm draws) : State n).locals l).gate.taskQueue =
        [] := by
      simp only [State.start]
      cases (g.kindOf l).getD .gather <;> rfl
    simp only [ProcessGate.construct, ProcessGate.Gate.map, hqueue, List.map_nil, hlimit]
    rfl
  · intro x hx
    cases hx
  · intro u c hc hgated
    obtain ⟨kind, l', place, rfl⟩ := commands_setUp g lm draws c (List.mem_of_getElem? hc)
    have hprocess := (gated_eq_one.mp hgated).1
    cases kind <;> cases place <;> cases hprocess
  · intro j
    constructor
    · intro hj
      cases hj
    · rintro ⟨w, u, ⟨hrunning, -⟩, -⟩
      cases hrunning

/-- The gate of `l` by itself can follow every run of the engine. -/
theorem exists_mirror (hwaits : Waits g) (hrun : Run g lm s) (l : ℕ)
    {pc : ProcessGate.ProcessorClass} (hlimit : pc.constructed.maxConcurrency = gateLimit g l) :
    ∃ p, ProcessGate.Run n pc p ∧ Mirrors l s p := by
  induction hrun with
  | start hinit =>
    obtain ⟨draws, rfl⟩ := hinit
    exact mirrors_start hlimit draws
  | @next s s' hrun hstep ih =>
    obtain ⟨p, hp, h⟩ := ih
    have hinv := run_invariant hwaits hrun
    have hsystem := run_inv hinv.run
    cases hstep with
    | take hidle hpop => exact h.take hp hinv hidle hpop
    | perform hrunning hcall hprogram heffect =>
      exact h.apply hp hinv (fun l => run_gateInv hwaits hrun l) (run_passing hwaits hrun l)
        hrunning hcall hprogram heffect
    | @complete w t hrunning hcall hprogram =>
      obtain ⟨htaken, hlive, -⟩ := hinv.running w t hrunning
      obtain ⟨_, hlog, -, -⟩ := hsystem.beginCompletion_effect (some w) htaken hlive
      refine ⟨p, hp, h.congr rfl rfl (fun w' => ?_) (fun w' hne => ?_) [.completed t]
        hlog (by simp)⟩
      · by_cases hw : w' = w
        · simp [State.complete, hw, Worker.idle, hprogram]
        · simp [State.complete, hw]
      · have hw : w' ≠ w := fun heq => hne (heq ▸ hprogram)
        simp [State.complete, hw]
    | @commitDecrement w t draw hcall =>
      obtain ⟨pushes, hpushes, hlog, -, -⟩ := hsystem.commitDecrement_effect lm draw hcall
      refine ⟨p, hp, h.congr rfl rfl (fun _ => rfl) (fun _ _ => rfl) (pushes ++ [.committed t])
        (by simp [hlog]) fun u => ?_⟩
      constructor <;> simpa using hpushes.notMem (by simp)
    | @drain w t x rest draw hcall =>
      obtain ⟨pushes, hpushes, hlog, -, -⟩ := hsystem.drain_effect lm draw hcall
      exact ⟨p, hp, h.congr rfl rfl (fun _ => rfl) (fun _ _ => rfl) pushes hlog
        fun u => ⟨hpushes.notMem (by simp), hpushes.notMem (by simp)⟩⟩
    | @finish w t hcall =>
      obtain ⟨hempty, -⟩ := hinv.completing w t (hinv.completing_of_draining hcall)
      exact ⟨p, hp, h.settle hempty [.finished t] rfl (by simp)⟩
    | @leave w hidle hfinished =>
      exact ⟨p, hp, h.settle (hinv.idle w (Or.inl hidle)).1 [] rfl (by simp)⟩

end Mirror

/-- The workers that are in `run` of `l`. -/
def State.insideRun (s : State n) (l : ℕ) : Finset (Fin n) :=
  univ.filter fun w => .inCallback l .run ∈ (s.workers w).program

section Limit

variable {g : LogicalGraph} {lm : LocalityManager} {s : State n} {w : Fin n} {l : ℕ} {t : TaskId}
  {p : ProcessGate.State} {pc : ProcessGate.ProcessorClass} {config : Configuration}
  {fg : FlowGraph} {v : Vertex}

theorem inside_pos {program : List Op} :
    0 < (program.map (Op.inside l)).sum ↔ .inCallback l .run ∈ program := by
  rw [Nat.pos_iff_ne_zero, ne_eq, List.sum_eq_zero_iff, not_forall]
  constructor
  · rintro ⟨x, hx⟩
    rw [Classical.not_imp, List.mem_map] at hx
    obtain ⟨⟨op, hop, rfl⟩, hne⟩ := hx
    cases op with
    | inCallback l' callback =>
      by_cases hrun : callback = .run ∧ l' = l
      · obtain ⟨rfl, rfl⟩ := hrun
        exact hop
      · exact absurd (inside_eq_zero hrun) hne
    | _ => exact absurd rfl hne
  · intro hmem
    exact ⟨1, fun hzero => absurd (hzero (List.mem_map.mpr ⟨_, hmem, if_pos rfl⟩)) Nat.one_ne_zero⟩

/-- A worker is in `run` of `l` exactly if it has a job in that phase. -/
theorem mem_insideRun (hinv : Inv g lm s) (hpassing : Programs (Passing l) s) :
    w ∈ s.insideRun l ↔ ∃ t, s.HasJob l w t ∧ (s.job l w t).phase = .inRun := by
  rw [State.insideRun, mem_filter, and_iff_right (mem_univ w), ← inside_pos]
  constructor
  · intro hpos
    obtain ⟨t, hrunning⟩ := hinv.running_of_mem (inside_pos.mp hpos)
    obtain ⟨-, -, -, c, hc, -⟩ := hinv.running w t hrunning
    have hpass := hpassing w t c hrunning hc
    have hone := gated_eq_zero_or_one c l
    have hgated := hpass.gated
    have hstarted := hpass.started
    exact ⟨t, ⟨hrunning, by omega⟩, phaseOf_inRun (by omega) hpos⟩
  · rintro ⟨t, -, hphase⟩
    rw [State.job, phaseOf] at hphase
    split at hphase
    · cases hphase
    · split at hphase
      · assumption
      · cases hphase

theorem Mirrors.runsInProgress (h : Mirrors l s p) (hp : ProcessGate.Run n pc p)
    (hinv : Inv g lm s) (hpassing : Programs (Passing l) s) :
    p.runsInProgress = (s.insideRun l).card := by
  have hbusy := (ProcessGate.run_slotInv hp).busy
  let inRun := p.jobs.filter fun j => j.phase = .inRun
  have hnodup : (inRun.map ProcessGate.Job.worker).Nodup :=
    hbusy.sublist (List.filter_sublist.map _)
  have hsame : (inRun.map ProcessGate.Job.worker).toFinset = (s.insideRun l).map Fin.valEmbedding := by
    ext x
    rw [List.mem_toFinset, List.mem_map, mem_map]
    constructor
    · rintro ⟨j, hj, rfl⟩
      obtain ⟨hj, hphase⟩ := List.mem_filter.mp hj
      obtain ⟨w, t, hhas, rfl⟩ := (h.jobs j).mp hj
      exact ⟨w, (mem_insideRun hinv hpassing).mpr ⟨t, hhas, of_decide_eq_true hphase⟩, rfl⟩
    · rintro ⟨w, hw, rfl⟩
      obtain ⟨t, hhas, hphase⟩ := (mem_insideRun hinv hpassing).mp hw
      exact ⟨_, List.mem_filter.mpr ⟨h.job_mem hhas, decide_eq_true hphase⟩, rfl⟩
  have hcard := congrArg Finset.card hsame
  rw [card_map, List.toFinset_card_of_nodup hnodup, List.length_map] at hcard
  rw [← hcard, ProcessGate.State.runsInProgress, List.countP_eq_length_filter]

/-- As many workers are in `run` of a processor as in a run of its gate by itself. There are
no more of them than the value in force when there were no more slots at the construction, or
there are no more workers. -/
theorem inside_run_within (hacyclic : Acyclic fg.Feeds) (hmovements : fg.DefinedMovements)
    (hbuild : GraphBuilder.buildLogicalGraph config fg = .ok g) (hrun : Run g lm s)
    (hv : fg.vertices[l]? = some v)
    (hlimit : pc.constructed.maxConcurrency = UInt64.ofNat v.processor.maxConcurrency) :
    (∃ p, ProcessGate.Run n pc p ∧ p.runsInProgress = (s.insideRun l).card) ∧
      (s.insideRun l).card ≤ pc.constructed.maxConcurrency.toNat ∧
      (pc.constructed.maxConcurrency ≤ pc.inForce ∨ n ≤ pc.inForce.toNat →
        (s.insideRun l).card ≤ pc.inForce.toNat) := by
  have hwaits := (shape_of_build hbuild hacyclic hmovements).waits
  obtain ⟨g', hg', hmeaning⟩ := sameMeaning config fg hacyclic hmovements
  obtain rfl : g = g' := Except.ok.inj (hbuild.symm.trans hg')
  have hkind := (hmeaning.processes l v hv).1
  have hslots := gateLimit_eq hkind (processor?_createProcessTask config v.processor)
  obtain ⟨p, hp, hmirror⟩ := exists_mirror hwaits hrun l (hlimit.trans hslots.symm)
  have hcount := hmirror.runsInProgress hp (run_invariant hwaits hrun) (run_passing hwaits hrun l)
  refine ⟨⟨p, hp, hcount⟩, ?_, fun h => ?_⟩
  · rw [← hcount]
    exact (ProcessGate.run_slotInv hp).runsInProgress_le.1
  · rw [← hcount]
    exact ProcessGate.run_within hp h

theorem inside_run_within_pipe : ∃ s : State 1, (s.insideRun 0).card = 1 ∧
    ∃ p, ProcessGate.Run 1 ⟨[1], []⟩ p ∧ p.runsInProgress = 1 := by
  have hreplay : ((replay? pipeGraph .default 1 (pipeMoves.take 34)).any
      fun s => (s.insideRun 0).card = 1) = true := by decide +kernel
  obtain ⟨s, hrun, hinside⟩ := exists_of_replay? hreplay
  have hcard := of_decide_eq_true hinside
  have hlimit : (⟨[1], []⟩ : ProcessGate.ProcessorClass).constructed.maxConcurrency = 1 := rfl
  obtain ⟨⟨p, hp, hcount⟩, -⟩ :=
    inside_run_within acyclic_pipe definedMovements_pipe build_pipe hrun (l := 0) rfl hlimit
  exact ⟨s, hcard, p, hp, hcount.trans hcard⟩

end Limit

end M3bp.Engine
