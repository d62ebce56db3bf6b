import M3bp.EngineFlow
import M3bp.EnginePool

/-!
The runs of a scatter-gather process. Each partition is run once, and when its row is moved into
the run there is a fragment at every scatter-gather port: a fragment of the partition is under
way to the port until one is stored there, and the counter of the partition waits for all of
them.
-/
namespace M3bp.Engine

open Finset GraphBuilder SchedulerCalls Transition

variable {n : ℕ}

/-- The partition that a command runs a process on. -/
def Command.joins : Command → Option (ℕ × ℕ)
  | scatterGatherRun l _ p => some (l, p)
  | _ => none

/-- The partition whose run is created next. -/
def Op.joins : Op → Option (ℕ × ℕ)
  | spawn c => c.joins
  | _ => none

/-- How often the run of a partition has been created, or is created next. -/
def joined (s : State n) (x : ℕ × ℕ) : ℕ :=
  (s.commands.map (marked Command.joins x)).sum + s.tokens (marked Op.joins x) fun _ => 0

def landing (y x : PortKey) : ℕ := if x = y then 1 else 0

/-- How often a value sort sends a fragment on to port `y`. -/
def passedTo (g : LogicalGraph) (y : PortKey) (v : ℕ) : ℕ :=
  ((g.successorsOf (v, 0)).map (landing y)).sum

/-- How often a fragment that is delivered to port `x` comes to port `y`. -/
def arrivalsAt (g : LogicalGraph) (y x : PortKey) : ℕ :=
  landing y x + if (g.kindOf x.1).any isValueSort then passedTo g y x.1 else 0

/-- How often a fragment of the shuffle `u` comes to port `y`. -/
def scatteredTo (g : LogicalGraph) (y : PortKey) (u : ℕ) : ℕ :=
  ((g.successorsOf (u, 0)).map (arrivalsAt g y)).sum

/-- What a command brings to port `y` of partition `p`. -/
def Command.supplies (g : LogicalGraph) (y : PortKey) (p : ℕ) : Command → ℕ
  | valueSort v _ p' => if p' = p then passedTo g y v else 0
  | shuffleSort u p' _ => if p' = p then scatteredTo g y u else 0
  | shuffleBarrier u =>
    match g.kindOf u with
    | some (.shuffle count) => if p < count then scatteredTo g y u else 0
    | _ => 0
  | _ => 0

/-- What an operation brings to port `y` of partition `p`. -/
def Op.supplies (g : LogicalGraph) (y : PortKey) (p : ℕ) : Op → ℕ
  | prepare _ c | spawn c => c.supplies g y p
  | createSortTask u p' | sortRecords u p' => if p' = p then scatteredTo g y u else 0
  | sortValues v p' => if p' = p then passedTo g y v else 0
  | deliver x p' _ => if p' = p then arrivalsAt g y x else 0
  | _ => 0

/-- The fragments of partition `p` that are under way to port `y`. -/
def supplying (g : LogicalGraph) (s : State n) (y : PortKey) (p : ℕ) : ℕ :=
  s.tokens (Op.supplies g y p) (Command.supplies g y p)

variable {config : Configuration} {g : LogicalGraph} {lm : LocalityManager} {s : State n}
  {w : Fin n} {t : TaskId} {op : Op} {rest : List Op} {e : Effect} {l p : ℕ} {y : PortKey}
  {proc : Processor} {workerCount count : ℕ}

section Runs

theorem joins_eq_zero {ops : List Op} (h : ∀ op ∈ ops, op.joins = none ∧ op.moves = none)
    (x : ℕ × ℕ) :
    (ops.map (marked Op.joins x)).sum = 0 ∧ (ops.map (marked Op.moves x)).sum = 0 :=
  ⟨sum_marked_eq_zero fun op hop => by simp [(h op hop).1],
    sum_marked_eq_zero fun op hop => by simp [(h op hop).2]⟩

/-- A row is moved into a run, and a run is created, when the last fragment has been counted. -/
theorem Performs.joins_balance (h : Performs g s w op e) (x : ℕ × ℕ) :
    (e.action.created.map (marked Command.joins x)).sum + (e.next.map (marked Op.joins x)).sum +
        (e.next.map (marked Op.moves x)).sum =
      marked Op.joins x op + marked Op.moves x op +
        if op = .countDown x.1 x.2 then (e.next.map (marked Op.moves x)).sum else 0 := by
  cases h with
  | step op choice hoption =>
    cases op with
    | spawn c =>
      by_cases hc : c.joins = some x
      · simp [effect, Action.created, marked, Op.joins, Op.moves, hc]
      · simp [effect, Action.created, marked, Op.joins, Op.moves, hc]
    | createPartitionRun l' p' =>
      by_cases hx : (l', p') = x
      · simp [effect, Action.created, marked, Op.joins, Command.joins, Op.moves, hx]
      · simp [effect, Action.created, marked, Op.joins, Command.joins, Op.moves, hx]
    | countDown l' p' =>
      by_cases hx : (l', p') = x
      · subst hx
        simp only [effect, Action.created]
        split <;> simp [marked, Op.joins, Op.moves]
      · have hne : ¬ (l' = x.1 ∧ p' = x.2) := fun heq => hx (Prod.ext heq.1 heq.2)
        simp only [effect, Action.created, Op.countDown.injEq, if_neg hne]
        split <;> simp [marked, Op.joins, Op.moves, hx]
    | prepare t' c' =>
      have hnone : ∀ op ∈ body g s t' c', op.joins = none ∧ op.moves = none := by
        cases c' with
        | shuffleBarrier l' =>
          simp only [body]
          split <;> simp +contextual [or_imp, Op.joins, Op.moves]
        | _ => simp +contextual [body, Op.joins, Op.moves]
      obtain ⟨hjoins, hmoves⟩ := joins_eq_zero hnone x
      simp [effect, Action.created, hjoins, hmoves, marked, Op.joins, Op.moves]
    | deliver x' p' o =>
      have hnone : ∀ op ∈ (receiveFragment g s x' p' o).next, op.joins = none ∧ op.moves = none := by
        simp only [receiveFragment, receiveProcessFragment]
        split <;> (try split) <;> simp [Op.joins, Command.joins, Op.moves]
      obtain ⟨hjoins, hmoves⟩ := joins_eq_zero hnone x
      simp [effect, receiveFragment_action, Action.created, hjoins, hmoves, marked, Op.joins, Op.moves]
    | link t' c' deps =>
      cases deps with
      | cons d deps => simp [effect, Action.created, marked, Op.joins, Op.moves]
      | nil =>
        cases hprocess : c'.isProcessCommand <;>
          simp [effect, commitTask, hprocess, Action.created, marked, Op.joins, Op.moves,
            Function.comp_def]
    | sortRecords l' p' | sortValues l' p' | runGather l' inputs =>
      simp [effect, Action.created, commitFragment, marked, Op.joins, Op.moves, Function.comp_def]
    | _ =>
      simp only [effect]
      (try split) <;>
        simp [Action.created, marked, Op.joins, Command.joins, Op.moves, Function.comp_def]
  | flush l' callback port recordCount o hport hbuffer =>
    simp only [Action.created]
    split <;> simp [commitFragment, marked, Op.joins, Op.moves, Function.comp_def]
  | _ => simp [Action.created, marked, Op.joins, Op.moves]

theorem Inv.joined_apply (h : Inv g lm s) (hrunning : (s.workers w).activity = .running t)
    (hcall : s.system.calls (some w) = .idle) (hprogram : (s.workers w).program = op :: rest)
    (heffect : Performs g s w op e) (x : ℕ × ℕ) :
    joined (s.apply w rest e) x + moving (s.apply w rest e) x =
      joined s x + moving s x +
        if op = .countDown x.1 x.2 then (e.next.map (marked Op.moves x)).sum else 0 := by
  have hbalance := heffect.joins_balance x
  have htokens := h.tokens_apply hrunning hcall hprogram heffect (marked Op.joins x) fun _ => 0
  have hmoving := h.moving_apply hrunning hcall hprogram heffect x
  have hnone : (e.action.created.map fun _ => 0).sum = 0 := by simp
  have hcommands : (s.apply w rest e).commands = s.commands ++ e.action.created := rfl
  unfold joined
  rw [hcommands, List.map_append, List.sum_append]
  omega

theorem Between.joined {s' : State n} (h : Between s s') (x : ℕ × ℕ) : joined s' x = joined s x := by
  have htokens : (s'.tokens (marked Op.joins x) fun _ => 0) = s.tokens (marked Op.joins x) fun _ => 0 :=
    h.tokens _ _ fun _ _ => rfl
  rw [Engine.joined, Engine.joined, h.commands, htokens]

theorem joined_start (draws : TaskId → WorkerId) (x : ℕ × ℕ) :
    joined (State.start g (Plan.setUp g lm draws) : State n) x = 0 ∧
      moving (State.start g (Plan.setUp g lm draws) : State n) x = 0 := by
  have hnone : ∀ f : Op → ℕ,
      ((State.start g (Plan.setUp g lm draws) : State n).tokens f fun _ => 0) = 0 := by
    intro f
    rw [tokens_start]
    exact Finset.sum_eq_zero fun t _ => by
      cases (State.start g (Plan.setUp g lm draws) : State n).commands[t]? <;> rfl
  have hcommands : ((State.start g (Plan.setUp g lm draws) : State n).commands.map
      (marked Command.joins x)).sum = 0 := sum_marked_eq_zero fun c hc => by
    obtain ⟨kind, l, place, hcommand⟩ := commands_setUp g lm draws c hc
    rw [hcommand]
    cases kind <;> cases place <;> simp [commandAt, Command.joins]
  exact ⟨by rw [joined, hcommands, hnone], hnone _⟩

/-- A scatter-gather process has a scatter-gather port. -/
theorem scatterGather_port {proc' : Processor}
    (h : .scatterGatherProcess proc workerCount count = createProcessTask config proc') :
    0 < proc.inputPorts.countP fun iport => iport.movement = .scatterGather := by
  unfold createProcessTask at h
  split at h
  · cases h
  · split at h
    · next hyes =>
      cases h
      obtain ⟨iport, hiport, hmovement⟩ := List.any_eq_true.mp hyes
      exact List.countP_pos_iff.mpr ⟨iport, hiport, by simpa using hmovement⟩
    · cases h

theorem Shape.scatterGather_pos (h : Shape config g)
    (hl : g.kindOf l = some (.scatterGatherProcess proc workerCount count)) :
    0 < proc.inputPorts.countP fun iport => iport.movement = .scatterGather := by
  rcases h.kinds l _ hl with heq | heq | ⟨comparator, heq⟩ | ⟨proc', heq, -⟩
  · cases heq
  · cases heq
  · cases heq
  · exact scatterGather_port heq

/-- The row of a partition is moved, and the partition run, once: when nothing more of it is to
come. -/
theorem run_joined (h : Shape config g) (hrun : Run g lm s)
    (hl : g.kindOf l = some (.scatterGatherProcess proc workerCount count)) (hp : p < count) :
    joined s (l, p) + moving s (l, p) = if coming g s l p = 0 then 1 else 0 := by
  refine @run_induction n g lm s h.waits (fun s => joined s (l, p) + moving s (l, p) =
    if coming g s l p = 0 then 1 else 0) ?_ ?_ ?_ hrun
  · intro draws
    obtain ⟨hjoined, hmoving⟩ := @joined_start n g lm draws (l, p)
    have hpos := h.scatterGather_pos hl
    rw [hjoined, hmoving, coming_start h hl hp, if_neg (by omega)]
  · intro s w t op rest e hrun hinv hsum hrunning hcall hprogram heffect
    have hcoming := hinv.coming_apply h hl hrunning hcall hprogram heffect p
    have hjoined := hinv.joined_apply hrunning hcall hprogram heffect (l, p)
    by_cases hop : op = .countDown l p
    · subst hop
      have hcounter := (run_poolInv h hrun hl).counters p hp
      simp only [if_true] at hcoming hjoined
      have hnext : (e.next.map (marked Op.moves (l, p))).sum =
          if coming g s l p = 1 then 1 else 0 := by
        cases heffect
        have hdown : ((s.locals l).waitingCounters.modify p (· - 1))[p]? =
            some ((coming g s l p : ℤ) - 1) := by
          rw [List.getElem?_modify, hcounter]
          simp
        simp only [effect, hdown, Option.some.injEq]
        split
        · rw [if_pos (by omega), List.map_singleton, List.sum_singleton]
          exact marked_of_eq rfl
        · rw [if_neg (by omega)]
          rfl
      have hlast : coming g s l p = 1 ↔ coming g (s.apply w rest e) l p = 0 := by omega
      rw [hjoined, hnext, hsum, if_neg (by omega), Nat.zero_add]
      simp only [hlast]
    · simp only [if_neg hop, Nat.add_zero] at hcoming hjoined
      rw [hjoined, hcoming, hsum]
  · intro s s' _ hsum hbetween
    have hcoming : coming g s' l p = coming g s l p := hbetween.tokens _ _ fun _ _ => rfl
    have hmoving : moving s' (l, p) = moving s (l, p) := hbetween.tokens _ _ fun _ _ => rfl
    rw [hbetween.joined, hmoving, hcoming, hsum]

theorem joined_pos_of_made {inputs : List (Option Object)}
    (h : Made s (.scatterGatherRun l inputs p)) : 0 < joined s (l, p) := by
  rcases h with hc | ⟨w, hop⟩
  · have hone : marked Command.joins (l, p) (.scatterGatherRun l inputs p) = 1 := marked_of_eq rfl
    have hle := List.single_le_sum (fun _ _ => Nat.zero_le _) _
      (List.mem_map_of_mem (f := marked Command.joins (l, p)) hc)
    exact Nat.add_pos_left (by omega) _
  · have hone : marked Op.joins (l, p) (.spawn (.scatterGatherRun l inputs p)) = 1 :=
      marked_of_eq rfl
    exact Nat.add_pos_right _ (Nat.add_pos_left (inPrograms_pos hop (by omega)) _)

end Runs

/-! One fragment of each partition comes to each port. -/

/-- Port `y` has its fragment of partition `p`, or the fragment is under way, until the row is
moved; the run is given it. -/
structure Stocked (g : LogicalGraph) (s : State n) (y : PortKey) (p : ℕ) : Prop where
  room : 0 < joined s (y.1, p) ∨
    ∃ row, (s.locals y.1).partitionedPool[p]? = some row ∧ y.2 < row.length
  stored : 0 < joined s (y.1, p) ∨ 0 < supplying g s y p ∨
    ∃ row o, (s.locals y.1).partitionedPool[p]? = some row ∧ row[y.2]? = some (some o)
  inputs : ∀ inputs, Made s (.scatterGatherRun y.1 inputs p) → ∃ o, inputs[y.2]? = some (some o)

section Ports

theorem supplies_commitFragment (g : LogicalGraph) (y : PortKey) (p : ℕ) (producer : PortKey)
    (p' : ℕ) (o : Object) : ((commitFragment g producer p' o).map (Op.supplies g y p)).sum =
      if p' = p then ((g.successorsOf producer).map (arrivalsAt g y)).sum else 0 := by
  rw [commitFragment, List.map_map]
  by_cases hp : p' = p
  · rw [if_pos hp]
    exact congrArg List.sum (List.map_congr_left fun x _ => if_pos hp)
  · rw [if_neg hp]
    exact sum_map_eq_zero fun x _ => if_neg hp

theorem passedTo_le (g : LogicalGraph) (y : PortKey) (v : ℕ) :
    passedTo g y v ≤ ((g.successorsOf (v, 0)).map (arrivalsAt g y)).sum :=
  List.sum_le_sum fun _ _ => Nat.le_add_right _ _

theorem supplies_body (g : LogicalGraph) (s : State n) (t : TaskId) (c : Command) (y : PortKey)
    (p : ℕ) : ((body g s t c).map (Op.supplies g y p)).sum = c.supplies g y p := by
  cases c with
  | shuffleBarrier l' =>
    simp only [body, Command.supplies]
    cases hkind : g.kindOf l' with
    | none => rfl
    | some kind =>
      cases kind with
      | shuffle count =>
        have hrange := sum_range_ite p (scatteredTo g y l') count
        simpa [Op.supplies, Function.comp_def] using hrange
      | _ => rfl
  | _ => simp [body, Op.supplies, Command.supplies, Function.comp_def]

/-- A fragment is under way until it is delivered to the port. -/
theorem Performs.supplies_le (h : Performs g s w op e) (y : PortKey) (p : ℕ) :
    op.supplies g y p ≤ (e.next.map (Op.supplies g y p)).sum +
        (e.action.created.map (Command.supplies g y p)).sum ∨
      ∃ o, op = .deliver y p o := by
  cases h with
  | step op choice hoption =>
    cases op with
    | prepare t' c' =>
      left
      simp [effect, Op.supplies, supplies_body]
    | spawn c' =>
      left
      simp [effect, Op.supplies, Action.created]
    | createSortTask l' p' =>
      left
      simp [effect, Op.supplies, Command.supplies]
    | sortRecords l' p' =>
      left
      simp [effect, supplies_commitFragment, Op.supplies, scatteredTo]
    | sortValues v p' =>
      left
      have hle := passedTo_le g y v
      simp only [effect, supplies_commitFragment, Op.supplies]
      split <;> omega
    | deliver x p' o =>
      by_cases hx : x = y ∧ p' = p
      · obtain ⟨rfl, rfl⟩ := hx
        exact Or.inr ⟨o, rfl⟩
      · left
        by_cases hp : p' = p
        · have hlanding : landing y x = 0 := if_neg fun heq => hx ⟨heq, hp⟩
          simp only [Op.supplies, if_pos hp, arrivalsAt, hlanding, Nat.zero_add]
          split
          · next hsort =>
            obtain ⟨comparator, hkind⟩ := kind_of_isValueSort hsort
            simp [effect, receiveFragment, hkind, Op.supplies, Command.supplies, hp]
          · exact Nat.zero_le _
        · simp [Op.supplies, hp]
    | _ => exact Or.inl (Nat.zero_le _)
  | _ => exact Or.inl (Nat.zero_le _)

theorem landing_le_arrival (hplace : waitPlace g y = some .barrier) (x : PortKey) :
    landing y x ≤ arrival g y.1 x := by
  unfold landing
  split
  · next hx =>
    rw [hx, arrival, if_pos ⟨rfl, hplace⟩]
  · exact Nat.zero_le _

theorem passedTo_le_passed (hplace : waitPlace g y = some .barrier) (v : ℕ) :
    passedTo g y v ≤ passed g y.1 v :=
  List.sum_le_sum fun x _ => landing_le_arrival hplace x

theorem arrivalsAt_le_arrivals (hplace : waitPlace g y = some .barrier) (x : PortKey) :
    arrivalsAt g y x ≤ arrivals g y.1 x := by
  refine Nat.add_le_add (landing_le_arrival hplace x) ?_
  split
  · exact passedTo_le_passed hplace x.1
  · exact Nat.zero_le _

theorem scatteredTo_le_scattered (hplace : waitPlace g y = some .barrier) (u : ℕ) :
    scatteredTo g y u ≤ scattered g y.1 u :=
  List.sum_le_sum fun x _ => arrivalsAt_le_arrivals hplace x

theorem ite_le_ite_zero {a b : ℕ} (c : Prop) [Decidable c] (hle : a ≤ b) :
    (if c then a else 0) ≤ if c then b else 0 := by
  split
  · exact hle
  · exact Nat.zero_le _

theorem Command.supplies_le_brings (hplace : waitPlace g y = some .barrier) (p : ℕ) (c : Command) :
    c.supplies g y p ≤ c.brings g y.1 p := by
  have hscattered := scatteredTo_le_scattered hplace
  cases c with
  | valueSort v o p' =>
    simp only [Command.supplies, Command.brings]
    exact ite_le_ite_zero _ (passedTo_le_passed hplace v)
  | shuffleSort u p' sources =>
    simp only [Command.supplies, Command.brings]
    exact ite_le_ite_zero _ (hscattered u)
  | shuffleBarrier u =>
    simp only [Command.supplies, Command.brings]
    cases g.kindOf u with
    | none => exact Nat.zero_le _
    | some kind =>
      cases kind with
      | shuffle count => exact ite_le_ite_zero _ (hscattered u)
      | _ => exact Nat.zero_le _
  | _ => exact Nat.zero_le _

theorem Op.supplies_le_brings (hplace : waitPlace g y = some .barrier) (p : ℕ) (op : Op) :
    op.supplies g y p ≤ op.brings g y.1 p := by
  cases op with
  | prepare t c => exact c.supplies_le_brings hplace p
  | spawn c => exact c.supplies_le_brings hplace p
  | createSortTask u p' | sortRecords u p' =>
    simp only [Op.supplies, Op.brings]
    exact ite_le_ite_zero _ (scatteredTo_le_scattered hplace u)
  | sortValues v p' =>
    simp only [Op.supplies, Op.brings]
    exact ite_le_ite_zero _ (passedTo_le_passed hplace v)
  | deliver x p' o =>
    simp only [Op.supplies, Op.brings]
    exact ite_le_ite_zero _ (arrivalsAt_le_arrivals hplace x)
  | _ => exact Nat.zero_le _

/-- What is under way to a port is among what comes to its process. -/
theorem supplying_le_coming (hplace : waitPlace g y = some .barrier) (s : State n) (p : ℕ) :
    supplying g s y p ≤ coming g s y.1 p := by
  refine Nat.add_le_add (inPrograms_le fun w op _ => op.supplies_le_brings hplace p) ?_
  refine Finset.sum_le_sum fun t _ => Nat.mul_le_mul_left _ ?_
  cases s.commands[t]? with
  | none => exact Nat.zero_le _
  | some c => exact c.supplies_le_brings hplace p

theorem waitPlace_of_scatterGather {kind : TaskKind} (hkind : g.kindOf y.1 = some kind)
    (hport : HasPort kind y.2 .scatterGather) :
    waitPlace g y = some .barrier := by
  obtain ⟨proc, iport, hproc, hget, hmovement⟩ := hport
  simp [waitPlace_of_process hkind hproc, hget, hmovement]

/-- Each scatter-gather port is fed by a shuffle. -/
theorem Shape.exists_shuffle (h : Shape config g) {kind : TaskKind} (hkind : g.kindOf y.1 = some kind)
    (hport : HasPort kind y.2 .scatterGather) :
    ∃ u, g.kindOf u = some (.shuffle config.partitionCount) ∧ g.FedBy u y := by
  have hedge : ∀ {x : PortKey}, (g.incoming x).length = 1 → ∃ e ∈ g.edges, e.consumer = x := by
    intro x hone
    obtain ⟨⟨producer, succ⟩, hmem⟩ := List.exists_mem_of_length_pos (by rw [hone]; exact Nat.one_pos)
    exact ⟨_, LogicalGraph.mem_incoming.mp hmem, rfl⟩
  have hcount : ∀ {u count}, g.kindOf u = some (.shuffle count) →
      g.kindOf u = some (.shuffle config.partitionCount) := by
    intro u count hu
    rcases h.kinds u _ hu with heq | heq | ⟨comparator, heq⟩ | ⟨proc, heq, -⟩
    · rw [hu, heq]
    · cases heq
    · cases heq
    · have hprocess := GraphBuilder.isIntermediate_createProcessTask config proc
      rw [← heq] at hprocess
      cases hprocess
  obtain ⟨e, he, hfeeds⟩ := hedge (h.single y.1 kind y.2 .scatterGather hkind hport (Or.inl rfl))
  obtain rfl : e.consumer = y := hfeeds
  obtain ⟨hzero, ⟨count, hu⟩ | ⟨⟨comparator, hv⟩, -⟩⟩ := h.sifts_edge he (Or.inr ⟨kind, hkind, hport⟩)
  · exact ⟨e.producer.1, hcount hu, Or.inl ⟨e, he, Prod.ext rfl hzero, rfl⟩⟩
  · -- there is a value sort between them
    obtain ⟨e', he', hconsumer⟩ := hedge (h.sorts e.producer.1 comparator hv)
    have hsort : g.kindOf e'.consumer.1 = some (.valueSort comparator) := by rw [hconsumer]; exact hv
    obtain ⟨hzero', ⟨count, hu⟩ | ⟨-, hno⟩⟩ := h.sifts_edge he' (Or.inl ⟨comparator, hsort⟩)
    · exact ⟨e'.producer.1, hcount hu, Or.inr ⟨e.producer.1, comparator, hv,
        ⟨e', he', Prod.ext rfl hzero', hconsumer⟩, ⟨e, he, Prod.ext rfl hzero, rfl⟩⟩⟩
    · exact absurd hsort (hno comparator)

theorem Shape.mem_successorsOf (h : Shape config g) {edge : Edge} (he : edge ∈ g.edges) {x : PortKey}
    (hproducer : edge.producer = x) : edge.consumer ∈ g.successorsOf x := by
  rw [h.delivers, List.mem_map]
  exact ⟨edge, List.mem_filter.mpr ⟨he, decide_eq_true hproducer⟩, rfl⟩

theorem Shape.scatteredTo_pos (h : Shape config g) {u : ℕ} (hfed : g.FedBy u y) :
    0 < scatteredTo g y u := by
  have hlanding : landing y y = 1 := if_pos rfl
  have hsum : ∀ {xs : List PortKey} {F : PortKey → ℕ} {x : PortKey}, x ∈ xs → 0 < F x →
      0 < (xs.map F).sum := fun hx hpos =>
    Nat.lt_of_lt_of_le hpos (List.single_le_sum (fun _ _ => Nat.zero_le _) _ (List.mem_map_of_mem hx))
  rcases hfed with ⟨e, he, hproducer, rfl⟩ | ⟨v, comparator, hv, ⟨e, he, hproducer, hconsumer⟩,
      ⟨e', he', hproducer', rfl⟩⟩
  · refine hsum (h.mem_successorsOf he hproducer) ?_
    rw [arrivalsAt, hlanding]
    omega
  · have hpassed : 0 < passedTo g e'.consumer v :=
      hsum (h.mem_successorsOf he' hproducer') (by omega)
    have hsuccessor : (v, 0) ∈ g.successorsOf (u, 0) := hconsumer ▸ h.mem_successorsOf he hproducer
    refine hsum hsuccessor ?_
    have hsort : (g.kindOf v).any isValueSort = true := by rw [hv]; rfl
    rw [arrivalsAt, if_pos hsort]
    exact Nat.add_pos_right _ hpassed

/-- A delivery to a scatter-gather port stores the fragment in the row of its partition. -/
theorem receiveFragment_scatterGather
    (hkind : g.kindOf y.1 = some (.scatterGatherProcess proc workerCount count))
    (hport : HasPort (.scatterGatherProcess proc workerCount count) y.2 .scatterGather)
    (s : State n) (p : ℕ) (o : Object) :
    (receiveFragment g s y p o).change = some (y.1, { s.locals y.1 with
      partitionedPool := (s.locals y.1).partitionedPool.modify p fun row => row.set y.2 (some o) }) := by
  obtain ⟨proc', iport, hproc, hget, hmovement⟩ := hport
  cases hproc
  simp [receiveFragment, receiveProcessFragment, hkind, hget, hmovement]

/-- The run of a partition stays created. -/
theorem Inv.joined_le (h : Inv g lm s) (hrunning : (s.workers w).activity = .running t)
    (hcall : s.system.calls (some w) = .idle) (hprogram : (s.workers w).program = op :: rest)
    (heffect : Performs g s w op e) (x : ℕ × ℕ) :
    joined s x ≤ joined (s.apply w rest e) x ∧
      (op = .createPartitionRun x.1 x.2 → 0 < joined (s.apply w rest e) x) := by
  have htokens := h.tokens_apply hrunning hcall hprogram heffect (marked Op.joins x) fun _ => 0
  have hnone : (e.action.created.map fun _ => 0).sum = 0 := by simp
  have hcommands : (s.apply w rest e).commands = s.commands ++ e.action.created := rfl
  have hspawned : marked Op.joins x op ≤ (e.action.created.map (marked Command.joins x)).sum := by
    cases op with
    | spawn c =>
      cases heffect
      simp only [effect, Action.created, List.map_singleton, List.sum_singleton]
      exact Nat.le_refl _
    | _ => exact Nat.zero_le _
  have hmoved : op = .createPartitionRun x.1 x.2 → (e.next.map (marked Op.joins x)).sum = 1 := by
    rintro rfl
    cases heffect
    simp only [effect, List.map_singleton, List.sum_singleton]
    exact marked_of_eq rfl
  unfold joined
  rw [hcommands, List.map_append, List.sum_append]
  refine ⟨by omega, fun hop => ?_⟩
  have hone := hmoved hop
  have hplain : marked Op.joins x op = 0 := marked_of_ne (by rw [hop]; simp [Op.joins])
  omega

/-- A row keeps its ports, and those that are filled. -/
def KeepsFilled (row row' : List (Option Object)) : Prop :=
  row'.length = row.length ∧
    ∀ (q : ℕ) (o : Object), row[q]? = some (some o) → ∃ o', row'[q]? = some (some o')

theorem KeepsFilled.refl (row : List (Option Object)) : KeepsFilled row row :=
  ⟨rfl, fun _ o ho => ⟨o, ho⟩⟩

theorem keepsFilled_set (row : List (Option Object)) (q : ℕ) (o : Object) :
    KeepsFilled row (row.set q (some o)) := by
  refine ⟨List.length_set, fun q' o' ho => ?_⟩
  by_cases hq : q = q'
  · have hlt := (List.getElem?_eq_some_iff.mp ho).1
    exact ⟨o, by simp [hq, hlt]⟩
  · exact ⟨o', by rw [List.getElem?_set_ne hq]; exact ho⟩

/-- Only `createPartitionRun` empties a row. -/
theorem Performs.row_kept (h : Performs g s w op e) (rest : List Op) {l : ℕ}
    (hmove : op ≠ .createPartitionRun l p) {row : List (Option Object)}
    (hrow : (s.locals l).partitionedPool[p]? = some row) :
    ∃ row', ((s.apply w rest e).locals l).partitionedPool[p]? = some row' ∧
      KeepsFilled row row' := by
  have hsame (heq : ((s.apply w rest e).locals l).partitionedPool[p]? = some row) :
      ∃ row', ((s.apply w rest e).locals l).partitionedPool[p]? = some row' ∧
        KeepsFilled row row' := ⟨row, heq, .refl row⟩
  cases h.poolChange_apply rest l with
  | keep hpool => exact hsame (hpool ▸ hrow)
  | countDown hpool => exact hsame (hpool ▸ hrow)
  | @store x p' o' _ hx hplace hpool =>
    by_cases hp' : p' = p
    · exact ⟨row.set x.2 (some o'), by simp [hpool, hrow, hp'], keepsFilled_set row x.2 o'⟩
    · exact hsame (by simp [hpool, hrow, hp'])
  | @move p' _ hpool =>
    have hne : p' ≠ p := by
      rintro rfl
      exact hmove rfl
    exact hsame (by simp [hpool, hrow, hne])

/-- The row is moved when nothing is to come, and for the first time, so that the fragment of
the port is in it. -/
theorem Stocked.inputs_apply (hy : Stocked g s y p) (h : Shape config g) (hrun : Run g lm s)
    (hkind : g.kindOf y.1 = some (.scatterGatherProcess proc workerCount count))
    (hport : HasPort (.scatterGatherProcess proc workerCount count) y.2 .scatterGather)
    (hp : p < count) (hprogram : (s.workers w).program = op :: rest)
    (heffect : Performs g s w op e) {inputs : List (Option Object)}
    (hmade : Made (s.apply w rest e) (.scatterGatherRun y.1 inputs p)) :
    ∃ o, inputs[y.2]? = some (some o) := by
  rcases made_apply heffect hprogram hmade with hmade | hspawns
  · exact hy.inputs inputs hmade
  · cases hspawns
    have honce := run_joined h hrun hkind hp
    have hmoving : 0 < moving s (y.1, p) := by
      have hone : marked Op.moves (y.1, p) (.createPartitionRun y.1 p) = 1 := marked_of_eq rfl
      exact Nat.add_pos_left (inPrograms_pos (mem_program hprogram) (by omega)) _
    have hcoming : coming g s y.1 p = 0 := by
      by_contra hne
      rw [if_neg hne] at honce
      omega
    rw [if_pos hcoming] at honce
    have hsupplying := supplying_le_coming (waitPlace_of_scatterGather hkind hport) s p
    rcases hy.stored with hjoined | hpos | ⟨row, o, hrow, ho⟩
    · omega
    · omega
    · exact ⟨o, by rw [hrow]; exact ho⟩

theorem Stocked.apply (hy : Stocked g s y p) (h : Shape config g) (hrun : Run g lm s)
    (hkind : g.kindOf y.1 = some (.scatterGatherProcess proc workerCount count))
    (hport : HasPort (.scatterGatherProcess proc workerCount count) y.2 .scatterGather)
    (hp : p < count) (hrunning : (s.workers w).activity = .running t)
    (hcall : s.system.calls (some w) = .idle) (hprogram : (s.workers w).program = op :: rest)
    (heffect : Performs g s w op e) : Stocked g (s.apply w rest e) y p := by
  have hinv := run_invariant h.waits hrun
  obtain ⟨hle, hmoved⟩ := hinv.joined_le hrunning hcall hprogram heffect (y.1, p)
  have hkept : 0 < joined s (y.1, p) → 0 < joined (s.apply w rest e) (y.1, p) := fun hpos =>
    Nat.lt_of_lt_of_le hpos hle
  have hinputs : ∀ inputs, Made (s.apply w rest e) (.scatterGatherRun y.1 inputs p) →
      ∃ o, inputs[y.2]? = some (some o) := fun inputs hmade =>
    hy.inputs_apply h hrun hkind hport hp hprogram heffect hmade
  have htokens := hinv.tokens_apply hrunning hcall hprogram heffect (Op.supplies g y p)
    (Command.supplies g y p)
  by_cases hdelivers : ∃ o, op = .deliver y p o
  · obtain ⟨o, rfl⟩ := hdelivers
    have hlocal : ((s.apply w rest e).locals y.1).partitionedPool =
        (s.locals y.1).partitionedPool.modify p fun row => row.set y.2 (some o) := by
      cases heffect
      simp [State.apply, effect, receiveFragment_scatterGather hkind hport]
    have hroom := hy.room.imp_left hkept
    refine ⟨hroom.imp_right ?_, hroom.imp_right ?_, hinputs⟩
    · rintro ⟨row, hrow, hlt⟩
      exact ⟨row.set y.2 (some o), by simp [hlocal, hrow], by simpa using hlt⟩
    · rintro ⟨row, hrow, hlt⟩
      exact Or.inr ⟨row.set y.2 (some o), o, by simp [hlocal, hrow], by simp [hlt]⟩
  · have hsupplying : supplying g s y p ≤ supplying g (s.apply w rest e) y p := by
      rcases heffect.supplies_le y p with hle | hyes
      · unfold supplying
        omega
      · exact absurd hyes hdelivers
    by_cases hmove : op = .createPartitionRun y.1 p
    · have hpos := hmoved hmove
      exact ⟨Or.inl hpos, Or.inl hpos, hinputs⟩
    refine ⟨?_, ?_, hinputs⟩
    · refine hy.room.imp hkept ?_
      rintro ⟨row, hrow, hlt⟩
      obtain ⟨row', hrow', hlength, -⟩ := heffect.row_kept rest hmove hrow
      exact ⟨row', hrow', by omega⟩
    · refine hy.stored.imp hkept (Or.imp (fun hpos => Nat.lt_of_lt_of_le hpos hsupplying) ?_)
      rintro ⟨row, o, hrow, ho⟩
      obtain ⟨row', hrow', -, hfilled⟩ := heffect.row_kept rest hmove hrow
      obtain ⟨o', ho'⟩ := hfilled y.2 o ho
      exact ⟨row', o', hrow', ho'⟩

/-- When the partition is run, there is a fragment at each scatter-gather port. -/
theorem run_stocked (h : Shape config g) (hrun : Run g lm s)
    (hkind : g.kindOf y.1 = some (.scatterGatherProcess proc workerCount count))
    (hport : HasPort (.scatterGatherProcess proc workerCount count) y.2 .scatterGather)
    (hp : p < count) : Stocked g s y p := by
  refine @run_induction n g lm s h.waits (fun s => Stocked g s y p) ?_ ?_ ?_ hrun
  · intro draws
    have hinv : Inv g lm (State.start g (Plan.setUp g lm draws) : State n) :=
      start_inv h.waits.endpoints draws
    have hlocal : (State.start g (Plan.setUp g lm draws) : State n).locals y.1 =
        Local.create (.scatterGatherProcess proc workerCount count) := by
      simp [State.start, hkind]
    refine ⟨Or.inr ?_, Or.inr (Or.inl ?_), fun inputs hmade => ?_⟩
    · obtain ⟨proc', iport, hproc, hget, -⟩ := hport
      cases hproc
      refine ⟨List.replicate proc.inputPorts.length none, ?_, ?_⟩
      · simp [hlocal, Local.create, hp]
      · simpa using (List.getElem?_eq_some_iff.mp hget).1
    · obtain ⟨u, hu, hfed⟩ := h.exists_shuffle hkind hport
      have hcount := (h.scatterGather hkind).1
      have hpos := h.scatteredTo_pos hfed
      refine tokens_pos_of_untaken _ ((hinv.static.laid _ _ hu).command .barrier) ?_ ?_
      · exact (setUp_spec lm draws h.waits.endpoints).calm.untaken _
      · simp only [commandAt, Command.supplies, hu, ← hcount, if_pos hp]
        exact hpos
    · have hzero := (@joined_start n g lm draws (y.1, p)).1
      have hpos := joined_pos_of_made hmade
      omega
  · intro s w t op rest e hrun _ hy hrunning hcall hprogram heffect
    exact hy.apply h hrun hkind hport hp hrunning hcall hprogram heffect
  · intro s s' _ hy hbetween
    have hsame : supplying g s' y p = supplying g s y p := hbetween.tokens _ _ fun _ _ => rfl
    refine ⟨?_, ?_, fun inputs hmade => hy.inputs inputs (hbetween.made hmade)⟩
    · rw [hbetween.joined, hbetween.locals]
      exact hy.room
    · rw [hbetween.joined, hbetween.locals, hsame]
      exact hy.stored

end Ports

end M3bp.Engine
