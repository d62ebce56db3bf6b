import M3bp.EngineDelivery
import M3bp.EngineMoves

/-!
No fragment is lost and none is consumed twice. Each fragment that a processor flushes is
followed on its way to one consumer: it is to be delivered, it waits in a command or in the
inputs of a gather, or it has been consumed. Together these always make up what was sent.
-/
namespace M3bp.Engine

open Finset SchedulerCalls Transition

variable {n : ℕ}

/-- The port at which a fragment is consumed that a processor sends to port `x`. -/
def consumerOf (g : LogicalGraph) (x : PortKey) : Option PortKey :=
  match g.kindOf x.1 with
  | some (.shuffle _) | some .gather => some (x.1, 0)
  | some (.oneToOneProcess proc _) =>
    if (proc.inputPorts[x.2]?).any fun port => port.movement = .oneToOne then some x else none
  | _ => none

/-- How often a command is going to consume object `z.2` at port `z.1`. -/
def Command.carries (z : PortKey × Object) : Command → ℕ
  | shufflePartition l o => [((l, 0), o)].count z
  | oneToOneRun l o port => [((l, port), o)].count z
  | scatterGatherRun l inputs _ =>
    (inputs.zipIdx.filterMap fun (input, port) => input.map (((l, port), ·))).count z
  | _ => 0

/-- How often an operation leads to the consumption of object `z.2` at port `z.1`. -/
def Op.carries (g : LogicalGraph) (z : PortKey × Object) : Op → ℕ
  | prepare _ c | spawn c => c.carries z
  | call _ _ inputs => inputs.count z
  | partitionFragment l o => [((l, 0), o)].count z
  | runGather l inputs => (inputs.map ((l, 0), ·)).count z
  | deliver x _ o => ((consumerOf g x).toList.map (·, o)).count z
  | _ => 0

/-- The deliveries that a flush owes to the consumer `z.1`. -/
def Note.sends (g : LogicalGraph) (z : PortKey × Object) : Note → ℕ
  | flushed x o => (g.successorsOf x).countP fun y => (consumerOf g y).map (·, o) = some z
  | _ => 0

def Note.consumes (z : PortKey × Object) : Note → ℕ
  | consumed x o => [(x, o)].count z
  | _ => 0

def isGather : TaskKind → Bool
  | .gather => true
  | _ => false

/-- What a delivery adds to the inputs of a gather. -/
def Op.collects (g : LogicalGraph) (z : PortKey × Object) : Op → ℕ
  | deliver x p o => if (g.kindOf x.1).any isGather then (deliver x p o).carries g z else 0
  | _ => 0

/-- What stands in the inputs of a gather. -/
def State.stands (s : State n) (l : ℕ) (z : PortKey × Object) : ℕ :=
  ((s.locals l).inputs.map ((l, 0), ·)).count z

/-- What the preparation of a gather takes out of its inputs. -/
def Op.hands (s : State n) (z : PortKey × Object) : Op → ℕ
  | prepare _ (.gather l) => s.stands l z
  | _ => 0

section Balance

variable {config : Configuration} {g : LogicalGraph} {lm : LocalityManager} {s : State n}
  {w : Fin n} {t : TaskId} {op : Op} {e : Effect} {z : PortKey × Object}

theorem carries_commitFragment (g : LogicalGraph) (z : PortKey × Object) (producer : PortKey)
    (p : ℕ) (o : Object) : ((commitFragment g producer p o).map (Op.carries g z)).sum =
      (Note.flushed producer o).sends g z := by
  rw [commitFragment, List.map_map, Note.sends, ← Counting.sum_map_ite]
  apply congrArg List.sum
  apply List.map_congr_left
  intro y _
  simp only [Function.comp_apply, Op.carries]
  cases consumerOf g y with
  | none => simp
  | some y' => simp [List.count_singleton]

/-- What is not sent by a processor is not consumed where its fragments are. -/
theorem Shape.sends_eq_zero (h : Shape config g) {kind : TaskKind} {producer : PortKey}
    (hkind : g.kindOf producer.1 = some kind) (hrelay : kind.isIntermediate = true) (o : Object) :
    (Note.flushed producer o).sends g z = 0 := by
  apply List.countP_eq_zero.mpr
  intro y hy
  obtain ⟨e, he, rfl, rfl⟩ := mem_successorsOf h.delivers hy
  obtain ⟨kind₁, kind', hkind₁, hkind', hjoins⟩ := h.joins e he
  rw [hkind, Option.some.injEq] at hkind₁
  subst hkind₁
  have hport : ∀ {movement}, HasPort kind' e.consumer.2 movement → movement ≠ .oneToOne →
      consumerOf g e.consumer = none := by
    rintro movement ⟨proc, iport, hproc, hget, rfl⟩ hmovement
    cases kind' <;> cases hproc <;> simp [consumerOf, hkind', hget, hmovement]
  have hnone : consumerOf g e.consumer = none := by
    generalize e.physicalSuccessor = succ at hjoins
    generalize hq : e.consumer.2 = q at hjoins hport
    cases hjoins with
    | shuffle hno => rw [hno] at hrelay; cases hrelay
    | gather hno => rw [hno] at hrelay; cases hrelay
    | oneToOne hno => rw [hno] at hrelay; cases hrelay
    | valueSort => simp [consumerOf, hkind']
    | broadcast hfits => exact hport hfits (by simp)
    | partitions hfits => exact hport hfits (by simp)
    | sorted hfits => exact hport hfits (by simp)
  simp [hnone]

theorem carries_body (g : LogicalGraph) (s : State n) (t : TaskId) (c : Command) :
    ((body g s t c).map (Op.carries g z)).sum = c.carries z + Op.hands s z (.prepare t c) := by
  cases c with
  | shuffleBarrier l =>
    simp only [body]
    split
    · simp [Op.carries, Command.carries, Op.hands, Function.comp_def]
    · rfl
  | processBarrier l => simp [body, Op.carries, Command.carries, Op.hands, Function.comp_def]
  | gather l => simp [body, Op.carries, Command.carries, Op.hands, State.stands]
  | _ => simp [body, Op.carries, Command.carries, Op.hands]

theorem carries_receive (hz : consumerOf g z.1 = some z.1) (s : State n) (x : PortKey) (p : ℕ)
    (o : Object) : ((receiveFragment g s x p o).next.map (Op.carries g z)).sum +
      (Op.deliver x p o).collects g z = (Op.deliver x p o).carries g z := by
  unfold receiveFragment receiveProcessFragment
  dsimp only
  split
  · next hkind =>
    split <;> simp [Op.carries, Op.collects, consumerOf, isGather, hkind]
  · next proc workerCount hkind =>
    by_cases hone : ((proc.inputPorts[x.2]?).any fun port => port.movement = .oneToOne) = true
    · have hno : ((proc.inputPorts[x.2]?).any fun port => port.movement = .broadcast) = false := by
        cases hget : proc.inputPorts[x.2]? with
        | none => rfl
        | some iport =>
          rw [hget] at hone
          simp only [Option.any_some, decide_eq_true_eq] at hone
          simp [hone]
      rw [if_neg (by rw [hno]; simp)]
      simp [Op.carries, Op.collects, Command.carries, consumerOf, isGather, hkind, hone]
    · have hnone : consumerOf g x = none := by simp [consumerOf, hkind, hone]
      have hne : ((x.1, x.2), o) ≠ z := by
        rintro rfl
        rw [hnone] at hz
        cases hz
      split
      · simp [Op.carries, Op.collects, isGather, hnone, hkind]
      · simp [Op.carries, Op.collects, Command.carries, isGather, hnone, hkind, hne]
  · next hkind =>
    split <;> simp [Op.carries, Op.collects, consumerOf, isGather, hkind]
  · next hkind => simp [Op.carries, Op.collects, Command.carries, consumerOf, isGather, hkind]
  · next hkind => simp [Op.carries, Op.collects, consumerOf, isGather, hkind]
  · next hkind => simp [Op.carries, Op.collects, Command.carries, consumerOf, isGather, hkind]
  · next hkind => simp [Op.carries, Op.collects, consumerOf, hkind]

theorem consumes_map_consumed (z : PortKey × Object) (inputs : List (PortKey × Object)) :
    ((inputs.map fun (x, o) => Note.consumed x o).map (Note.consumes z)).sum = inputs.count z := by
  induction inputs with
  | nil => rfl
  | cons input inputs ih =>
    rw [List.map_cons, List.map_cons, List.sum_cons, ih, List.count_cons, Nat.add_comm]
    simp [Note.consumes, List.count_singleton]

theorem sends_map_consumed (z : PortKey × Object) (inputs : List (PortKey × Object)) :
    ((inputs.map fun (x, o) => Note.consumed x o).map (Note.sends g z)).sum = 0 := by
  simp [Function.comp_def, Note.sends]

theorem map_consumed_pairs (x : PortKey) (objects : List Object) :
    (objects.map (x, ·)).map (fun (x, o) => Note.consumed x o) = objects.map (.consumed x) := by
  rw [List.map_map]
  rfl

theorem Static.kind_of_shuffleSort {log : List Event} {commands : List Command} {ids : ℕ → Ids}
    (h : Static g log commands ids) {l p : ℕ} {sources : List Object}
    (hc : commands[t]? = some (.shuffleSort l p sources)) :
    ∃ count, g.kindOf l = some (.shuffle count) := by
  rcases h.kinds t _ hc with ⟨kind, place, -, hcommand, -⟩ | ⟨kind, hkind, hcreated⟩
  · cases kind <;> cases place <;> cases hcommand
  · cases kind <;> cases hcreated
    exact ⟨_, hkind⟩

/-- An operation passes on what it carries, or puts it into a gather, or consumes it. -/
theorem Inv.carries_balance (hinv : Inv g lm s) (h : Shape config g)
    (hz : consumerOf g z.1 = some z.1) (hrunning : (s.workers w).activity = .running t)
    (hmem : op ∈ (s.workers w).program) (heffect : Performs g s w op e) :
    op.carries g z + op.hands s z + (e.notes.map (Note.sends g z)).sum =
      (e.next.map (Op.carries g z)).sum + (e.action.created.map (Command.carries z)).sum +
        (e.notes.map (Note.consumes z)).sum + op.collects g z := by
  obtain ⟨c, hc, hfit⟩ := hinv.running_fits hrunning hmem
  cases heffect with
  | step op choice hoption =>
    cases op with
    | prepare t' c' => simp [effect, Op.carries, Op.collects, carries_body, Action.created]
    | deliver x p o =>
      have hreceive := carries_receive hz s x p o
      have hnotes : (receiveFragment g s x p o).notes = [] := by
        unfold receiveFragment receiveProcessFragment
        dsimp only
        split <;> (try split) <;> rfl
      simp only [effect, Op.hands, receiveFragment_action, hnotes, Action.created, List.map_nil,
        List.sum_nil, Nat.add_zero]
      exact hreceive.symm
    | sortRecords l p =>
      obtain ⟨sources, rfl⟩ := hfit
      obtain ⟨count, hkind⟩ := hinv.static.kind_of_shuffleSort hc
      have hzero := @Shape.sends_eq_zero _ _ z h _ (l, 0) hkind rfl s.nextObject
      simp [effect, carries_commitFragment, Op.carries, Op.hands, Op.collects, hzero, Action.created]
    | sortValues l p =>
      obtain ⟨o, rfl⟩ := hfit
      obtain ⟨comparator, hv⟩ := hinv.static.kind_of_valueSort hc
      have hzero := @Shape.sends_eq_zero _ _ z h _ (l, 0) hv rfl s.nextObject
      simp [effect, carries_commitFragment, Op.carries, Op.hands, Op.collects, hzero, Action.created]
    | runGather l inputs =>
      obtain rfl : c = .gather l := hfit
      obtain ⟨kind, place, hkind, hcommand, -⟩ := hinv.static.fixed hc fun kind => by
        cases kind <;> rfl
      obtain rfl := kind_of_gather hcommand
      have hzero := @Shape.sends_eq_zero _ _ z h _ (l, 0) hkind rfl s.nextObject
      have hconsumes := consumes_map_consumed z (inputs.map ((l, 0), ·))
      rw [map_consumed_pairs] at hconsumes
      have hsends : ((inputs.map (Note.consumed (l, 0))).map (Note.sends g z)).sum = 0 := by
        simp [Function.comp_def, Note.sends]
      simp only [effect, Op.hands, Op.collects, Action.created, List.map_append, List.sum_append,
        carries_commitFragment, hzero, hsends, List.map_cons, List.map_nil, List.sum_cons,
        List.sum_nil, Op.carries, Nat.add_zero, Nat.zero_add]
      exact hconsumes.symm
    | call l callback inputs =>
      have hconsumes := consumes_map_consumed z inputs
      have hsends := @sends_map_consumed g z inputs
      simp only [effect, Op.hands, Op.collects, Action.created, hsends, hconsumes, List.map_cons,
        List.map_nil, List.sum_cons, List.sum_nil, Op.carries, Note.sends, Note.consumes,
        Nat.add_zero, Nat.zero_add]
    | partitionFragment l o =>
      simp [effect, Op.carries, Op.hands, Op.collects, Note.sends, Note.consumes, Action.created]
    | createPartitionRun l p =>
      obtain ⟨⟨proc, workerCount, count, hkind⟩, -⟩ := hfit
      have hother : z.1.1 ≠ l := by
        rintro rfl
        simp [consumerOf, hkind] at hz
      have hzero : ∀ inputs, (Command.scatterGatherRun l inputs p).carries z = 0 := by
        intro inputs
        apply List.count_eq_zero.mpr
        intro hmem'
        obtain ⟨⟨input, port⟩, -, hinput⟩ := List.mem_filterMap.mp hmem'
        obtain ⟨o, -, rfl⟩ := Option.map_eq_some_iff.mp hinput
        exact hother rfl
      simp [effect, Op.carries, Op.hands, Op.collects, hzero, Action.created]
    | link t' c' deps =>
      cases deps with
      | cons d deps => simp [effect, Op.carries, Op.hands, Op.collects, Action.created]
      | nil =>
        simp only [effect, Action.created, commitTask]
        split <;> simp [Op.carries, Op.hands, Op.collects, Function.comp_def]
    | spawn c' => simp [effect, Op.carries, Op.hands, Op.collects, Action.created]
    | _ =>
      simp only [effect, Op.carries, Op.hands, Op.collects]
      (try split) <;> simp [Op.carries, Command.carries, Action.created, Function.comp_def]
  | flush l callback port recordCount o hport hbuffer =>
    by_cases hrecords : 0 < recordCount
    · simp [hrecords, carries_commitFragment, Op.carries, Op.hands, Op.collects, Note.consumes,
        Action.created]
    · simp [hrecords, Op.carries, Op.hands, Op.collects, Action.created]
  | _ => simp [Op.carries, Op.hands, Op.collects, Action.created]

end Balance

/-! The inputs of a gather are handed over once. -/

def Command.gathers : Command → Option ℕ
  | gather l => some l
  | _ => none

/-- The gather that an operation is about to prepare. -/
def Op.gathers : Op → Option ℕ
  | prepare _ c => c.gathers
  | _ => none

/-- The gather that an operation belongs to once it has been prepared. -/
def Op.gathered : Op → Option ℕ
  | runGather l _ | clearInputs l => some l
  | _ => none

def gathering (s : State n) (l : ℕ) : ℕ :=
  s.tokens (marked Op.gathers l) (marked Command.gathers l)

def gathered (s : State n) (l : ℕ) : ℕ := s.tokens (marked Op.gathered l) fun _ => 0

/-- What stands in the inputs of a gather that has not been prepared. -/
def waits (s : State n) (z : PortKey × Object) : ℕ :=
  if 0 < gathering s z.1.1 then s.stands z.1.1 z else 0

section Gathering

variable {config : Configuration} {g : LogicalGraph} {lm : LocalityManager} {s : State n}
  {w : Fin n} {t : TaskId} {op : Op} {rest : List Op} {e : Effect} {l : ℕ} {z : PortKey × Object}

theorem gathers_eq_none (h : Performs g s w op e) : ∀ op' ∈ e.next, op'.gathers = none := by
  have hcommit : ∀ producer p o, ∀ op' ∈ commitFragment g producer p o, op'.gathers = none := by
    intro producer p o op' hop'
    obtain ⟨x, -, rfl⟩ := List.mem_map.mp hop'
    rfl
  cases h with
  | step op choice hoption =>
    cases op with
    | prepare t c =>
      cases c with
      | shuffleBarrier l =>
        simp only [effect, body]
        split <;> simp +contextual [or_imp, Op.gathers]
      | _ => simp +contextual [effect, body, Op.gathers]
    | deliver x p o =>
      simp only [effect, receiveFragment, receiveProcessFragment]
      split <;> (try split) <;> simp [Op.gathers]
    | sortRecords l p => exact hcommit _ _ _
    | sortValues l p => exact hcommit _ _ _
    | runGather l inputs =>
      intro op' hop'
      rcases List.mem_append.mp hop' with hop' | hop'
      · exact hcommit _ _ _ op' hop'
      · rw [List.mem_singleton.mp hop']
        rfl
    | link t c deps =>
      cases deps with
      | cons d deps => simp [effect, Op.gathers]
      | nil =>
        simp only [effect, commitTask]
        split <;> simp +contextual [Op.gathers]
    | _ =>
      simp only [effect]
      (try split) <;> simp +contextual [Op.gathers]
  | flush l callback port recordCount o hport hbuffer =>
    intro op' hop'
    rcases List.mem_append.mp hop' with hop' | hop'
    · split at hop'
      · exact hcommit _ _ _ op' hop'
      · cases hop'
    · rw [List.mem_singleton.mp hop']
      rfl
  | _ => simp [Op.gathers]

theorem gathered_le (h : Performs g s w op e) (l : ℕ) :
    (e.next.map (marked Op.gathered l)).sum ≤ marked Op.gathers l op + marked Op.gathered l op := by
  have hcommit : ∀ producer p o,
      ((commitFragment g producer p o).map (marked Op.gathered l)).sum = 0 := by
    intro producer p o
    apply sum_marked_eq_zero
    intro op' hop'
    obtain ⟨x, -, rfl⟩ := List.mem_map.mp hop'
    simp [Op.gathered]
  cases h with
  | step op choice hoption =>
    cases op with
    | prepare t c =>
      cases c with
      | gather l' => simp [effect, body, marked, Op.gathered, Op.gathers, Command.gathers]
      | shuffleBarrier l' =>
        simp only [effect, body]
        split <;> simp [marked, Op.gathered, Function.comp_def]
      | _ => simp [effect, body, marked, Op.gathered, Function.comp_def]
    | deliver x p o =>
      simp only [effect, receiveFragment, receiveProcessFragment]
      split <;> (try split) <;> simp [marked, Op.gathered]
    | sortRecords l' p => simp [effect, hcommit]
    | sortValues l' p => simp [effect, hcommit]
    | runGather l' inputs => simp [effect, hcommit, marked, Op.gathered]
    | link t c deps =>
      cases deps with
      | cons d deps => simp [effect, marked, Op.gathered]
      | nil =>
        simp only [effect, commitTask]
        split <;> simp [marked, Op.gathered, Function.comp_def]
    | _ =>
      simp only [effect]
      (try split) <;> simp [marked, Op.gathered, Function.comp_def]
  | flush l' callback port recordCount o hport hbuffer =>
    by_cases hrecords : 0 < recordCount
    · simp [hrecords, hcommit, marked, Op.gathered]
    · simp [hrecords, marked, Op.gathered]
  | _ => simp [marked, Op.gathered]

/-- How the inputs of a gather change. -/
theorem Performs.inputs (h : Performs g s w op e) {y : Local} (hchange : e.change = some (l, y)) :
    y.inputs = (s.locals l).inputs ∨
      (∃ x p o, op = .deliver x p o ∧ x.1 = l ∧ g.kindOf l = some .gather ∧
        y.inputs = (s.locals l).inputs ++ [o]) ∨
      op = .clearInputs l ∧ y.inputs = [] := by
  cases h with
  | step op choice hoption =>
    cases op with
    | deliver x p o =>
      simp only [effect, receiveFragment, receiveProcessFragment] at hchange
      split at hchange
      case h_5 hkind =>
        cases hchange
        exact Or.inr (Or.inl ⟨x, p, o, rfl, rfl, hkind, rfl⟩)
      all_goals
        left
        (try split at hchange) <;> first
          | (cases hchange; done)
          | (cases hchange; rfl)
    | clearInputs l' =>
      cases hchange
      exact Or.inr (Or.inr ⟨rfl, rfl⟩)
    | link t c deps =>
      left
      cases deps with
      | cons d deps => cases hchange
      | nil =>
        simp only [effect, commitTask] at hchange
        split at hchange
        · cases hchange
          rfl
        · cases hchange
    | _ =>
      left
      simp only [effect] at hchange
      first
        | (cases hchange <;> rfl)
        | (split at hchange <;> cases hchange <;> rfl)
  | setTaskCount l' count hinput =>
    cases hchange
    exact Or.inl rfl
  | _ => cases hchange

/-- What an operation does to the two counts of a gather. -/
theorem Inv.gathering_apply (h : Inv g lm s) (hrunning : (s.workers w).activity = .running t)
    (hcall : s.system.calls (some w) = .idle) (hprogram : (s.workers w).program = op :: rest)
    (heffect : Performs g s w op e) (l : ℕ) :
    gathering (s.apply w rest e) l + marked Op.gathers l op = gathering s l ∧
      gathering (s.apply w rest e) l + gathered (s.apply w rest e) l ≤
        gathering s l + gathered s l := by
  have hbefore := h.tokens_apply hrunning hcall hprogram heffect (marked Op.gathers l)
    (marked Command.gathers l)
  have hafter := h.tokens_apply hrunning hcall hprogram heffect (marked Op.gathered l) fun _ => 0
  have hnext : (e.next.map (marked Op.gathers l)).sum = 0 :=
    sum_marked_eq_zero fun op' hop' => by
      rw [gathers_eq_none heffect op' hop']
      simp
  have hcreated : (e.action.created.map (marked Command.gathers l)).sum = 0 :=
    sum_marked_eq_zero fun c hc => by
      obtain ⟨kind, -, hdynamic⟩ := h.dynamic_created hrunning hprogram heffect c hc
      cases c <;> first
        | cases hdynamic
        | simp [Command.gathers]
  have hnone : (e.action.created.map fun _ => 0).sum = 0 := by simp
  have hle := gathered_le heffect l
  rw [hnext, hcreated] at hbefore
  rw [hnone] at hafter
  unfold gathering gathered
  omega

theorem gathering_start (hwaits : Waits g) (draws : TaskId → WorkerId) (l : ℕ) :
    gathering (State.start g (Plan.setUp g lm draws) : State n) l +
      gathered (State.start g (Plan.setUp g lm draws) : State n) l ≤ 1 := by
  have h : Inv g lm (State.start g (Plan.setUp g lm draws) : State n) :=
    start_inv hwaits.endpoints draws
  have hnone : gathered (State.start g (Plan.setUp g lm draws) : State n) l = 0 := by
    rw [gathered, tokens_start]
    apply Finset.sum_eq_zero
    intro u _
    cases (State.start g (Plan.setUp g lm draws) : State n).commands[u]? <;> rfl
  rw [hnone, gathering, tokens_start]
  apply inCommands_le_of_unique ((State.start g (Plan.setUp g lm draws) : State n).ids l).terminal
  intro u c hc hpos
  have hkey := key_of_marked_pos hpos
  cases c with
  | gather l' =>
    obtain rfl : l' = l := Option.some.inj hkey
    obtain ⟨kind, place, hkind, hcommand, hid⟩ := h.static.fixed hc fun kind => by
      cases kind <;> rfl
    obtain rfl := kind_of_gather hcommand
    refine ⟨?_, marked_le_one⟩
    rw [hid]
    exact (h.static.laid _ _ hkind).merged place .terminal rfl
  | _ => cases hkey

theorem run_gathering (hwaits : Waits g) (hrun : Run g lm s) (l : ℕ) :
    gathering s l + gathered s l ≤ 1 := by
  refine @run_induction n g lm s hwaits (fun s => gathering s l + gathered s l ≤ 1)
    (fun draws => gathering_start hwaits draws l) ?_ ?_ hrun
  · intro s w t op rest e _ h honce hrunning hcall hprogram heffect
    exact ((h.gathering_apply hrunning hcall hprogram heffect l).2).trans honce
  · intro s s' _ honce hbetween
    have hbefore : gathering s' l = gathering s l := hbetween.tokens _ _ fun _ _ => rfl
    have hafter : gathered s' l = gathered s l := hbetween.tokens _ _ fun _ _ => rfl
    rw [hbefore, hafter]
    exact honce

/-- A gather that is delivered to has not been prepared. -/
theorem Inv.gathering_of_deliver (h : Inv g lm s) (hrunning : (s.workers w).activity = .running t)
    {x : PortKey} {p : ℕ} {o : Object} (hop : .deliver x p o ∈ (s.workers w).program)
    (hkind : g.kindOf x.1 = some .gather) : 0 < gathering s x.1 := by
  obtain ⟨c, hc, hfit⟩ := h.running_fits hrunning hop
  have hplace : waitPlace g x = some .entry := by simp [waitPlace, hkind]
  have hunreleased := h.unreleased hrunning (hfit .entry hplace)
  refine tokens_pos_of_untaken _ ((h.static.laid _ _ hkind).command .entry) ?_ ?_
  · exact fun htaken => hunreleased ((run_inv h.run).log.taken_released _ htaken)
  · have hone : marked Command.gathers x.1 (.gather x.1) = 1 := marked_of_eq rfl
    exact Nat.lt_of_lt_of_eq Nat.one_pos hone.symm

/-- What waits in a gather has been delivered to it and not been handed over. -/
theorem Inv.waits_apply (h : Inv g lm s) (hwaits : Waits g) (hrun : Run g lm s)
    (hrunning : (s.workers w).activity = .running t)
    (hcall : s.system.calls (some w) = .idle) (hprogram : (s.workers w).program = op :: rest)
    (heffect : Performs g s w op e) (z : PortKey × Object) :
    waits (s.apply w rest e) z + op.hands s z = waits s z + op.collects g z := by
  have hmem : op ∈ (s.workers w).program := mem_program hprogram
  obtain ⟨hgathering, -⟩ := h.gathering_apply hrunning hcall hprogram heffect z.1.1
  have honce := run_gathering hwaits hrun z.1.1
  have hother : ∀ (l : ℕ) (inputs : List Object), l ≠ z.1.1 →
      (inputs.map ((l, 0), ·)).count z = 0 := by
    intro l inputs hl
    apply List.count_eq_zero.mpr
    intro hmem'
    obtain ⟨o, -, rfl⟩ := List.mem_map.mp hmem'
    exact hl rfl
  by_cases hprepare : op.gathers = some z.1.1
  · -- the inputs are handed over
    have hone : marked Op.gathers z.1.1 op = 1 := marked_of_eq hprepare
    have hnow : 0 < gathering s z.1.1 := by omega
    have hthen : ¬ 0 < gathering (s.apply w rest e) z.1.1 := by omega
    cases op with
    | prepare t' c =>
      cases c with
      | gather l =>
        obtain rfl : l = z.1.1 := Option.some.inj hprepare
        simp [waits, hnow, hthen, Op.hands, Op.collects]
      | _ => cases hprepare
    | _ => cases hprepare
  have hzero : marked Op.gathers z.1.1 op = 0 := marked_of_ne hprepare
  have hsame : gathering (s.apply w rest e) z.1.1 = gathering s z.1.1 := by omega
  have hhands : op.hands s z = 0 := by
    cases op with
    | prepare t' c =>
      cases c with
      | gather l => exact hother l _ fun hl => hprepare (congrArg some hl)
      | _ => rfl
    | _ => rfl
  rw [hhands, Nat.add_zero, waits, waits, hsame]
  by_cases hdeliver : ∃ x p o, op = .deliver x p o ∧ g.kindOf x.1 = some .gather
  · -- one more input
    obtain ⟨x, p, o, rfl, hkind⟩ := hdeliver
    have hcollects : (Op.deliver x p o).collects g z = ([o].map ((x.1, 0), ·)).count z := by
      simp [Op.collects, Op.carries, consumerOf, hkind, isGather]
    by_cases hx : x.1 = z.1.1
    · have hpos := h.gathering_of_deliver hrunning hmem hkind
      rw [hx] at hpos hkind
      cases heffect
      rw [if_pos hpos, if_pos hpos, hcollects, hx]
      simp [State.stands, State.apply, effect, receiveFragment, hx, hkind]
    · have hlocal : (s.apply w rest e).locals z.1.1 = s.locals z.1.1 := by
        cases heffect
        simp [State.apply, effect, receiveFragment, hkind, Ne.symm hx]
      rw [hcollects, hother _ _ hx, State.stands, hlocal]
      rfl
  have hcollects : op.collects g z = 0 := by
    cases op with
    | deliver x p o =>
      refine if_neg fun hgather => hdeliver ⟨x, p, o, rfl, ?_⟩
      cases hkind : g.kindOf x.1 with
      | none => simp [hkind] at hgather
      | some kind =>
        rw [hkind] at hgather
        cases kind <;> first
          | rfl
          | cases hgather
    | _ => rfl
  rw [hcollects, Nat.add_zero]
  by_cases hclear : op = .clearInputs z.1.1
  · -- nothing waits any more
    subst hclear
    have hgathered : 0 < gathered s z.1.1 := by
      have hone : marked Op.gathered z.1.1 (.clearInputs z.1.1) = 1 := marked_of_eq rfl
      exact Nat.add_pos_left (inPrograms_pos hmem (by omega)) _
    have hnone : ¬ 0 < gathering s z.1.1 := by omega
    rw [if_neg hnone, if_neg hnone]
  have hinputs : ((s.apply w rest e).locals z.1.1).inputs = (s.locals z.1.1).inputs := by
    rcases locals_apply s w rest e z.1.1 with ⟨y, hchange, heq⟩ | heq
    · rw [heq]
      rcases heffect.inputs hchange with hkept | ⟨x, p, o, rfl, hx, hkind, -⟩ | ⟨hclear', -⟩
      · exact hkept
      · exact absurd ⟨x, p, o, rfl, by rw [hx]; exact hkind⟩ hdeliver
      · exact absurd hclear' hclear
    · rw [heq]
  rw [State.stands, State.stands, hinputs]

end Gathering

/-! Everything that was sent is under way or has been consumed. -/

/-- The fragments on their way to be consumed as `z`. -/
def travelling (g : LogicalGraph) (s : State n) (z : PortKey × Object) : ℕ :=
  s.tokens (Op.carries g z) (Command.carries z) + waits s z

/-- How often an object is flushed. -/
def Note.flushes (o : Object) : Note → ℕ
  | flushed _ o' => if o' = o then 1 else 0
  | _ => 0

/-- How often an object stands in the buffers of a callback. -/
def State.buffered (s : State n) (o : Object) : ℕ := ∑ w, (s.workers w).buffers.count o

section Ledger

variable {config : Configuration} {g : LogicalGraph} {lm : LocalityManager} {s : State n}
  {w : Fin n} {t : TaskId} {op : Op} {rest : List Op} {e : Effect} {z : PortKey × Object}

theorem travelling_start (hwaits : Waits g) (draws : TaskId → WorkerId) (z : PortKey × Object) :
    travelling g (State.start g (Plan.setUp g lm draws) : State n) z = 0 := by
  have h : Inv g lm (State.start g (Plan.setUp g lm draws) : State n) :=
    start_inv hwaits.endpoints draws
  have hinputs : ∀ l, ((State.start g (Plan.setUp g lm draws) : State n).locals l).inputs = [] := by
    intro l
    simp only [State.start]
    cases (g.kindOf l).getD .gather <;> rfl
  have hempty : waits (State.start g (Plan.setUp g lm draws) : State n) z = 0 := by
    simp [waits, State.stands, hinputs]
  rw [travelling, hempty, tokens_start, Nat.add_zero]
  apply Finset.sum_eq_zero
  intro u _
  cases hc : (State.start g (Plan.setUp g lm draws) : State n).commands[u]? with
  | none => rfl
  | some c =>
    have hzero : c.carries z = 0 := by
      rcases (setUp_spec (n := n) lm draws hwaits.endpoints).fixed u c hc with
        ⟨kind, place, -, hcommand, -⟩
      rw [hcommand]
      cases kind <;> cases place <;> rfl
    rw [Option.elim_some, hzero, Nat.mul_zero]

theorem run_ledger (h : Shape config g) (hz : consumerOf g z.1 = some z.1) (hrun : Run g lm s) :
    travelling g s z + (s.notes.map (Note.consumes z)).sum = (s.notes.map (Note.sends g z)).sum := by
  refine @run_induction n g lm s h.waits (fun s => travelling g s z +
    (s.notes.map (Note.consumes z)).sum = (s.notes.map (Note.sends g z)).sum) ?_ ?_ ?_ hrun
  · intro draws
    rw [travelling_start h.waits draws z]
    rfl
  · intro s w t op rest e hrun hinv hledger hrunning hcall hprogram heffect
    have hmem : op ∈ (s.workers w).program := mem_program hprogram
    have htokens := hinv.tokens_apply hrunning hcall hprogram heffect (Op.carries g z)
      (Command.carries z)
    have hstored := hinv.waits_apply h.waits hrun hrunning hcall hprogram heffect z
    have hbalance := hinv.carries_balance h hz hrunning hmem heffect
    have hnotes : (s.apply w rest e).notes = e.notes ++ s.notes := rfl
    rw [hnotes, List.map_append, List.map_append, List.sum_append, List.sum_append]
    unfold travelling at hledger ⊢
    omega
  · intro s s' _ hledger hbetween
    have htokens : s'.tokens (Op.carries g z) (Command.carries z) =
        s.tokens (Op.carries g z) (Command.carries z) := hbetween.tokens _ _ fun _ _ => rfl
    have hgathering : gathering s' z.1.1 = gathering s z.1.1 := hbetween.tokens _ _ fun _ _ => rfl
    have hsame : travelling g s' z = travelling g s z := by
      unfold travelling waits State.stands
      rw [htokens, hgathering, hbetween.locals]
    rw [hsame, hbetween.notes]
    exact hledger

/-! An object is flushed once at most. -/

/-- A flush takes the object out of the buffers, and an allocation puts a new one in. -/
theorem Performs.flushes (h : Performs g s w op e) (o : Object) :
    (e.buffers.getD (s.workers w).buffers).count o + (e.notes.map (Note.flushes o)).sum ≤
      (s.workers w).buffers.count o + if o = s.nextObject ∧ e.allocated ≠ [] then 1 else 0 := by
  cases h with
  | step op choice hoption =>
    have hnotes : ((effect g s choice w op).notes.map (Note.flushes o)).sum = 0 := by
      cases op with
      | deliver x p o' =>
        simp only [effect, receiveFragment, receiveProcessFragment]
        split <;> (try split) <;> rfl
      | link t c deps =>
        cases deps with
        | cons d deps => rfl
        | nil =>
          simp only [effect, commitTask]
          split <;> rfl
      | call l callback inputs => simp [effect, Note.flushes, Function.comp_def]
      | runGather l inputs => simp [effect, Note.flushes, Function.comp_def]
      | _ =>
        simp only [effect]
        (try split) <;> rfl
    have hbuffers : ((effect g s choice w op).buffers.getD (s.workers w).buffers).count o ≤
        (s.workers w).buffers.count o := by
      cases op with
      | deliver x p o' =>
        simp only [effect, receiveFragment, receiveProcessFragment]
        split <;> (try split) <;> exact Nat.le_refl _
      | link t c deps =>
        cases deps with
        | cons d deps => exact Nat.le_refl _
        | nil =>
          simp only [effect, commitTask]
          split <;> exact Nat.le_refl _
      | inCallback l callback => exact Nat.zero_le _
      | _ =>
        simp only [effect]
        (try split) <;> exact Nat.le_refl _
    omega
  | allocate l callback size =>
    by_cases ho : o = s.nextObject
    · simp [ho, List.count_append]
    · simp [ho, List.count_append, Ne.symm ho]
  | flush l callback port recordCount o' hport hbuffer =>
    by_cases ho : o' = o
    · subst ho
      have hpos := List.count_pos_iff.mpr hbuffer
      simp only [Option.getD_some, List.count_erase_self]
      split
      · simp [Note.flushes]
        omega
      · simp
    · have hsame : ((s.workers w).buffers.erase o').count o = (s.workers w).buffers.count o :=
        List.count_erase_of_ne (Ne.symm ho)
      simp only [Option.getD_some, hsame]
      split <;> simp [Note.flushes, ho]
  | setTaskCount l count hinput => simp

theorem buffered_apply (s : State n) (w : Fin n) (rest : List Op) (e : Effect) (o : Object) :
    (s.apply w rest e).buffered o + (s.workers w).buffers.count o =
      s.buffered o + (e.buffers.getD (s.workers w).buffers).count o := by
  have hsum := Counting.sum_univ_add_of_eq_off
    (fun w' => ((s.apply w rest e).workers w').buffers.count o)
    (fun w' => (s.workers w').buffers.count o) w fun w' hw' => by simp [State.apply, hw']
  simp only [State.apply, Function.update_self] at hsum
  exact hsum

theorem run_flushes (hwaits : Waits g) (hrun : Run g lm s) (o : Object) :
    s.buffered o + (s.notes.map (Note.flushes o)).sum ≤ issued s.objectSizes.length o := by
  refine @run_induction n g lm s hwaits (fun s => s.buffered o +
    (s.notes.map (Note.flushes o)).sum ≤ issued s.objectSizes.length o) ?_ ?_ ?_ hrun
  · intro draws
    have hnone : (State.start g (Plan.setUp g lm draws) : State n).buffered o = 0 :=
      Finset.sum_eq_zero fun w _ => rfl
    rw [hnone]
    exact Nat.zero_le _
  · intro s w t op rest e _ _ honce _ _ _ heffect
    have hflushes := heffect.flushes o
    have hbuffered := buffered_apply s w rest e o
    have hnotes : (s.apply w rest e).notes = e.notes ++ s.notes := rfl
    have hsizes : (s.apply w rest e).objectSizes.length =
        s.objectSizes.length + e.allocated.length := List.length_append
    have hissued : issued s.objectSizes.length o +
        (if o = s.nextObject ∧ e.allocated ≠ [] then 1 else 0) ≤
          issued (s.objectSizes.length + e.allocated.length) o := by
      by_cases hnew : o = s.nextObject ∧ e.allocated ≠ []
      · have hpos := List.length_pos_iff.mpr hnew.2
        have hobject : o = s.objectSizes.length := hnew.1
        rw [if_pos hnew, hobject, issued, issued, if_neg (Nat.lt_irrefl _),
          if_pos (Nat.lt_add_of_pos_right hpos)]
      · rw [if_neg hnew, issued, issued]
        split
        · next hlt => rw [if_pos (Nat.lt_of_lt_of_le hlt (Nat.le_add_right _ _))]
        · exact Nat.zero_le _
    rw [hnotes, hsizes, List.map_append, List.sum_append]
    omega
  · intro s s' _ honce hbetween
    rw [hbetween.notes, hbetween.objectSizes]
    have hle : s'.buffered o ≤ s.buffered o := by
      apply Finset.sum_le_sum
      intro w _
      rcases hbetween.workers w with ⟨-, hnone⟩ | ⟨-, hsame, -⟩
      · rw [hnone]
        exact Nat.zero_le _
      · rw [hsame]
    omega

/-- What is flushed is an output of a processor. -/
theorem run_flushed_process (hwaits : Waits g) (hrun : Run g lm s) {x : PortKey} {o : Object}
    (hflushed : .flushed x o ∈ s.notes) : x.2 < outputPortCount g x.1 := by
  refine @run_induction n g lm s hwaits
    (fun s => .flushed x o ∈ s.notes → x.2 < outputPortCount g x.1) ?_ ?_ ?_ hrun hflushed
  · intro draws hmem
    cases hmem
  · intro s w t op rest e _ _ hold _ _ _ heffect hmem
    have hnotes : (s.apply w rest e).notes = e.notes ++ s.notes := rfl
    rw [hnotes] at hmem
    rcases List.mem_append.mp hmem with hnew | hmem
    · have hflushes := heffect.flushes o
      cases heffect with
      | flush l callback port recordCount o' hport hbuffer =>
        split at hnew
        · cases List.mem_singleton.mp hnew
          exact hport
        · cases hnew
      | step op choice hoption =>
        cases op with
        | deliver x' p o' =>
          simp only [effect, receiveFragment, receiveProcessFragment] at hnew
          split at hnew <;> (try split at hnew) <;> cases hnew
        | link t' c deps =>
          cases deps with
          | cons d deps => cases hnew
          | nil =>
            simp only [effect, commitTask] at hnew
            split at hnew <;> cases hnew
        | _ =>
          simp only [effect] at hnew
          first
            | simp at hnew
            | (split at hnew <;> simp at hnew)
      | _ => cases hnew
    · exact hold hmem
  · intro s s' _ hold hbetween hmem
    rw [hbetween.notes] at hmem
    exact hold hmem

/-- The ways in which a fragment of a processor is consumed: a shuffle partitions it, a gather
includes it, or a one-to-one process runs on it. -/
def Consumes (g : LogicalGraph) (y : PortKey) : Prop :=
  (∃ count, g.kindOf y.1 = some (.shuffle count)) ∨ g.kindOf y.1 = some .gather ∨
    ∃ proc workerCount iport, g.kindOf y.1 = some (.oneToOneProcess proc workerCount) ∧
      proc.inputPorts[y.2]? = some iport ∧ iport.movement = .oneToOne

/-- Every fragment of a processor is consumed at the port it is sent to. -/
theorem Shape.consumerOf_eq (h : Shape config g) {x y : PortKey}
    (hx : x.2 < outputPortCount g x.1) (hy : y ∈ g.successorsOf x) :
    Consumes g y ∧ consumerOf g y = some y := by
  obtain ⟨e, he, rfl, rfl⟩ := mem_successorsOf h.delivers hy
  obtain ⟨kind, kind', hkind, hkind', hjoins⟩ := h.joins e he
  have hprocess : kind.isIntermediate = false := by
    unfold outputPortCount at hx
    rw [hkind] at hx
    cases kind <;> first
      | rfl
      | cases hx
  generalize e.physicalSuccessor = succ at hjoins
  generalize hq : e.consumer.2 = q at hjoins
  have hconsumer : e.consumer = (e.consumer.1, q) := by rw [← hq]
  cases hjoins with
  | shuffle =>
    refine ⟨Or.inl ⟨_, hkind'⟩, ?_⟩
    rw [consumerOf, hkind', ← hconsumer]
  | gather =>
    refine ⟨Or.inr (Or.inl hkind'), ?_⟩
    rw [consumerOf, hkind', ← hconsumer]
  | oneToOne _ hport =>
    obtain ⟨proc, iport, hproc, hget, hmovement⟩ := hport
    have hone : ∃ workerCount, kind' = .oneToOneProcess proc workerCount := by
      rcases h.kinds _ kind' hkind' with rfl | rfl | ⟨comparator, rfl⟩ | ⟨proc', rfl, -⟩
      · cases hproc
      · cases hproc
      · cases hproc
      · rw [processor?_createProcessTask, Option.some.injEq] at hproc
        subst hproc
        refine ⟨config.maxConcurrency, if_pos (List.any_eq_true.mpr ?_)⟩
        exact ⟨iport, List.mem_of_getElem? hget, decide_eq_true hmovement⟩
    obtain ⟨workerCount, rfl⟩ := hone
    refine ⟨Or.inr (Or.inr ⟨proc, workerCount, iport, hkind', by rw [hq]; exact hget, hmovement⟩), ?_⟩
    simp [consumerOf, hkind', hq, hget, hmovement]
  | broadcast => cases hprocess
  | valueSort => cases hprocess
  | partitions => cases hprocess
  | sorted => cases hprocess

/-- The edges from one port to another. -/
def edgesBetween (g : LogicalGraph) (x y : PortKey) : ℕ :=
  g.edges.countP fun e => e.producer = x ∧ e.consumer = y

theorem count_successorsOf (hdelivers : g.DeliversAlongEdges) (x y : PortKey) :
    (g.successorsOf x).count y = edgesBetween g x y := by
  rw [hdelivers, edgesBetween, List.count_eq_countP, List.countP_map, List.countP_filter]
  apply List.countP_congr
  intro e _
  simp [and_comm]

theorem consumes_eq_count (notes : List Note) (y : PortKey) (o : Object) :
    (notes.map (Note.consumes (y, o))).sum = notes.count (.consumed y o) := by
  induction notes with
  | nil => rfl
  | cons note notes ih =>
    rw [List.map_cons, List.sum_cons, ih, List.count_cons, Nat.add_comm]
    cases note with
    | consumed x o' => simp [Note.consumes, List.count_singleton]
    | _ => simp [Note.consumes]

/-- What has been sent of a fragment that was flushed: one for each edge. -/
theorem sends_of_flushed (h : Shape config g) (hrun : Run g lm s) {x : PortKey} {o : Object}
    (hflushed : .flushed x o ∈ s.notes) (y : PortKey) :
    (s.notes.map (Note.sends g (y, o))).sum = edgesBetween g x y := by
  have hsource := run_flushed_process h.waits hrun hflushed
  have honce : (s.notes.map (Note.flushes o)).sum ≤ 1 := by
    have hle := run_flushes h.waits hrun o
    have hone : issued s.objectSizes.length o ≤ 1 := by
      unfold issued
      split <;> simp
    omega
  rw [Counting.sum_eq_of_unique hflushed (if_pos rfl) honce, ← count_successorsOf h.delivers,
    Note.sends, List.count_eq_countP]
  · apply List.countP_congr
    intro y' hy'
    simp [(h.consumerOf_eq hsource hy').2]
  · intro note hnote
    cases note with
    | flushed x' o' =>
      have hne : o' ≠ o := by
        rintro rfl
        simp [Note.flushes] at hnote
      apply List.countP_eq_zero.mpr
      intro y' _ hsent
      obtain ⟨y'', -, heq⟩ := Option.map_eq_some_iff.mp (of_decide_eq_true hsent)
      exact hne (Prod.mk.inj heq).2
    | _ => rfl

/-- Each fragment that is flushed is consumed once for each edge: never more often, and as
often as that when the run is over. -/
structure ConsumedOnce (g : LogicalGraph) (s : State n) : Prop where
  consumers : ∀ x o, .flushed x o ∈ s.notes → ∀ y ∈ g.successorsOf x, Consumes g y
  atMost : ∀ x o, .flushed x o ∈ s.notes → ∀ y ∈ g.successorsOf x,
    s.notes.count (.consumed y o) ≤ edgesBetween g x y
  exactly : s.system.scheduler.isFinished = true → ∀ x o, .flushed x o ∈ s.notes →
    ∀ y ∈ g.successorsOf x, s.notes.count (.consumed y o) = edgesBetween g x y

theorem run_consumedOnce (h : Shape config g) (hrun : Run g lm s) : ConsumedOnce g s := by
  have hledger : ∀ x o, .flushed x o ∈ s.notes → ∀ y ∈ g.successorsOf x,
      travelling g s (y, o) + s.notes.count (.consumed y o) = edgesBetween g x y := by
    intro x o hflushed y hy
    have hsource := run_flushed_process h.waits hrun hflushed
    have hbalance := run_ledger (z := (y, o)) h (h.consumerOf_eq hsource hy).2 hrun
    rwa [consumes_eq_count, sends_of_flushed h hrun hflushed y] at hbalance
  refine ⟨?_, ?_, ?_⟩
  · intro x o hflushed y hy
    exact (h.consumerOf_eq (run_flushed_process h.waits hrun hflushed) hy).1
  · intro x o hflushed y hy
    have hbalance := hledger x o hflushed y hy
    omega
  · intro hfinished x o hflushed y hy
    have hbalance := hledger x o hflushed y hy
    have hnone : travelling g s (y, o) = 0 := by
      have hgathering : gathering s y.1 = 0 := tokens_of_finished h.waits hrun hfinished _ _
      rw [travelling, tokens_of_finished h.waits hrun hfinished, waits]
      simp [hgathering]
    omega

/-- Fragments are never late, lost or consumed twice. -/
theorem fragments_consumed_once {fg : FlowGraph} (hacyclic : Acyclic fg.Feeds)
    (hmovements : fg.DefinedMovements) (hbuild : GraphBuilder.buildLogicalGraph config fg = .ok g)
    (hrun : Run g lm s) : Timely g lm s ∧ ConsumedOnce g s := by
  have h := shape_of_build hbuild hacyclic hmovements
  exact ⟨run_timely h hrun, run_consumedOnce h hrun⟩

theorem fragments_consumed_once_pipe :
    ∃ s : State 1, s.system.scheduler.isFinished = true ∧ s.objectSizes = [8] ∧
      Timely pipeGraph .default s ∧ ConsumedOnce pipeGraph s := by
  obtain ⟨s, hrun, hfinished, hsizes⟩ := exists_run_pipe
  exact ⟨s, hfinished, hsizes,
    fragments_consumed_once acyclic_pipe definedMovements_pipe build_pipe hrun⟩

end Ledger

end M3bp.Engine
