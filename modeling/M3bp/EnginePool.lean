import M3bp.EngineArrivals
import M3bp.EngineFinish

/-!
The pool of a scatter-gather process. The counter of a partition is the number of
fragments of the partition that are still to arrive, so it comes to zero with
the last of them, and then the row of the pool moves into a run command.
-/
namespace M3bp.Engine

open Finset SchedulerCalls Transition

variable {n : ℕ}

/-- What a command brings to partition `p` of the process `l`. -/
def Command.brings (g : LogicalGraph) (l p : ℕ) : Command → ℕ
  | valueSort v _ p' => if p' = p then passed g l v else 0
  | shuffleSort s p' _ => if p' = p then scattered g l s else 0
  | shuffleBarrier s =>
    match g.kindOf s with
    | some (.shuffle count) => if p < count then scattered g l s else 0
    | _ => 0
  | _ => 0

/-- What an operation brings to partition `p` of the process `l`. -/
def Op.brings (g : LogicalGraph) (l p : ℕ) : Op → ℕ
  | prepare _ c | spawn c => c.brings g l p
  | createSortTask s p' | sortRecords s p' => if p' = p then scattered g l s else 0
  | sortValues v p' => if p' = p then passed g l v else 0
  | deliver x p' _ => if p' = p then arrivals g l x else 0
  | countDown l' p' => if l' = l ∧ p' = p then 1 else 0
  | _ => 0

/-- The fragments that are still to arrive. -/
def coming (g : LogicalGraph) (s : State n) (l p : ℕ) : ℕ :=
  s.tokens (Op.brings g l p) (Command.brings g l p)

section Balance

variable {config : Configuration} {g : LogicalGraph} {s : State n} {w : Fin n} {t : TaskId}
  {op : Op} {e : Effect} {l p : ℕ} {proc : Processor} {workerCount count : ℕ}

theorem sum_brings_eq_zero {ops : List Op} (h : ∀ op ∈ ops, op.brings g l p = 0) :
    (ops.map (Op.brings g l p)).sum = 0 :=
  List.sum_eq_zero fun x hx => by
    obtain ⟨op, hop, rfl⟩ := List.mem_map.mp hx
    exact h op hop

theorem sum_brings_commitFragment (g : LogicalGraph) (l p : ℕ) (producer : PortKey) (p' : ℕ)
    (o : Object) : ((commitFragment g producer p' o).map (Op.brings g l p)).sum =
      if p' = p then ((g.successorsOf producer).map (arrivals g l)).sum else 0 := by
  rw [commitFragment, List.map_map]
  by_cases hp : p' = p
  · rw [if_pos hp]
    refine congrArg List.sum (List.map_congr_left fun x _ => ?_)
    exact if_pos hp
  · rw [if_neg hp]
    refine List.sum_eq_zero fun m hm => ?_
    obtain ⟨x, -, rfl⟩ := List.mem_map.mp hm
    exact if_neg hp

/-- Nothing arrives over a port that belongs to no value sort and waits elsewhere. -/
theorem arrivals_eq_zero {x : PortKey} {kind : TaskKind} (hkind : g.kindOf x.1 = some kind)
    (hsort : isValueSort kind = false) (hplace : x.1 = l → waitPlace g x ≠ some .barrier) :
    arrivals g l x = 0 := by
  have harrival : arrival g l x = 0 := if_neg fun h => hplace h.1 h.2
  simp [arrivals, harrival, hkind, hsort]

theorem sum_map_eq_zero {xs : List PortKey} {F : PortKey → ℕ} (h : ∀ x ∈ xs, F x = 0) :
    (xs.map F).sum = 0 :=
  List.sum_eq_zero fun m hm => by
    obtain ⟨x, hx, rfl⟩ := List.mem_map.mp hm
    exact h x hx

theorem mem_successorsOf (hdelivers : g.DeliversAlongEdges) {producer x : PortKey}
    (hx : x ∈ g.successorsOf producer) :
    ∃ e ∈ g.edges, e.producer = producer ∧ e.consumer = x := by
  rw [hdelivers, List.mem_map] at hx
  obtain ⟨e, he, rfl⟩ := hx
  rw [List.mem_filter, decide_eq_true_eq] at he
  exact ⟨e, he.1, he.2, rfl⟩

/-- Behind a value sort there is no other one. -/
theorem Shape.passed_eq (h : Shape config g) {v : ℕ} {comparator : ValueComparator}
    (hv : g.kindOf v = some (.valueSort comparator)) :
    ((g.successorsOf (v, 0)).map (arrivals g l)).sum = passed g l v := by
  refine congrArg List.sum (List.map_congr_left fun x hx => ?_)
  obtain ⟨e, he, hproducer, rfl⟩ := mem_successorsOf h.delivers hx
  obtain ⟨kind, kind', hkind, hkind', hjoins⟩ := h.joins e he
  rw [hproducer, hv, Option.some.injEq] at hkind
  subst hkind
  have hsort : isValueSort kind' = false := by
    generalize e.consumer.2 = q at hjoins
    generalize e.physicalSuccessor = succ at hjoins
    cases hjoins with
    | sorted hport =>
      have hprocess := hport.isIntermediate
      cases kind' <;> first
        | rfl
        | cases hprocess
    | shuffle => rfl
    | gather => rfl
    | oneToOne hno => cases hno
  simp [arrivals, hkind', hsort]

/-- What processors flush and gathers send does not come to the process by a
scatter-gather port. -/
theorem Shape.arrivals_eq_zero (h : Shape config g)
    (hl : g.kindOf l = some (.scatterGatherProcess proc workerCount count)) (producer : PortKey)
    {kind : TaskKind} (hkind : g.kindOf producer.1 = some kind)
    (hproducer : isShuffle kind = false ∧ isValueSort kind = false) :
    ((g.successorsOf producer).map (arrivals g l)).sum = 0 := by
  refine sum_map_eq_zero fun x hx => ?_
  obtain ⟨e, he, rfl, rfl⟩ := mem_successorsOf h.delivers hx
  have harrival : arrival g l e.consumer = 0 := by
    by_contra hne
    rcases (arrival_edge h hl he hne).2.2 with ⟨hyes, -⟩ | ⟨-, hyes⟩
    · rw [hkind, Option.any_some, hproducer.1] at hyes
      cases hyes
    · rw [hkind, Option.any_some, hproducer.2] at hyes
      cases hyes
  obtain ⟨kind₁, kind', hkind₁, hkind', hjoins⟩ := h.joins e he
  rw [hkind, Option.some.injEq] at hkind₁
  subst hkind₁
  have hsort : isValueSort kind' = false := by
    generalize e.consumer.2 = q at hjoins
    generalize e.physicalSuccessor = succ at hjoins
    cases hjoins with
    | valueSort => cases hproducer.1
    | shuffle => rfl
    | gather => rfl
    | oneToOne _ hport | broadcast hport | partitions hport | sorted hport =>
      have hprocess := hport.isIntermediate
      cases kind' <;> first
        | rfl
        | cases hprocess
  simp [arrivals, harrival, hkind', hsort]

theorem waitPlace_of_process {x : PortKey} {kind : TaskKind} {proc' : Processor}
    (hkind : g.kindOf x.1 = some kind) (hproc : processor? kind = some proc') :
    waitPlace g x =
      some (if (proc'.inputPorts[x.2]?).any fun port => port.movement = .broadcast then .entry
        else .barrier) := by
  cases kind <;> cases hproc <;> simp [waitPlace, hkind]

theorem sum_range_ite (p m count : ℕ) :
    ((List.range count).map fun i => if i = p then m else 0).sum = if p < count then m else 0 := by
  induction count with
  | zero => rfl
  | succ count ih =>
    rw [List.range_succ, List.map_append, List.sum_append, ih]
    simp only [List.map_singleton, List.sum_singleton]
    split_ifs <;> omega

theorem sum_brings_body (g : LogicalGraph) (s : State n) (t : TaskId) (c : Command) (l p : ℕ) :
    ((body g s t c).map (Op.brings g l p)).sum = c.brings g l p := by
  cases c with
  | shuffleBarrier l' =>
    simp only [body, Command.brings]
    cases hkind : g.kindOf l' with
    | none => rfl
    | some kind =>
      cases kind with
      | shuffle count =>
        simp only [List.map_append, List.map_map, List.sum_append]
        have hrange := sum_range_ite p (scattered g l l') count
        simpa [Op.brings, Function.comp_def] using hrange
      | _ => rfl
  | processBarrier l' => exact sum_brings_eq_zero (by simp +contextual [body, Op.brings])
  | _ => simp [body, Op.brings, Command.brings]

theorem sum_brings_receive
    (hl : g.kindOf l = some (.scatterGatherProcess proc workerCount count)) (s : State n)
    (x : PortKey) (p' : ℕ) (o : Object) :
    ((receiveFragment g s x p' o).next.map (Op.brings g l p)).sum =
      if p' = p then arrivals g l x else 0 := by
  have hzero : ∀ {kind : TaskKind}, g.kindOf x.1 = some kind → isValueSort kind = false →
      (x.1 = l → waitPlace g x ≠ some .barrier) → 0 = if p' = p then arrivals g l x else 0 := by
    intro kind hkind hsort hplace
    rw [arrivals_eq_zero hkind hsort hplace, ite_self]
  have hother : ∀ {kind : TaskKind}, g.kindOf x.1 = some kind →
      (∀ proc workerCount count, kind ≠ .scatterGatherProcess proc workerCount count) →
      x.1 = l → waitPlace g x ≠ some .barrier := by
    rintro kind hkind hne rfl -
    rw [hl, Option.some.injEq] at hkind
    exact hne _ _ _ hkind.symm
  unfold receiveFragment receiveProcessFragment
  dsimp only
  split
  · next hkind =>
    rw [← hzero hkind rfl (hother hkind (by simp))]
    split <;> rfl
  · next hkind =>
    rw [← hzero hkind rfl (hother hkind (by simp))]
    split <;> rfl
  · next proc' workerCount' count' hkind =>
    have hplace := waitPlace_of_process hkind rfl
    split
    · next hport =>
      rw [if_pos hport] at hplace
      rw [← hzero hkind rfl (by simp [hplace])]
      rfl
    · next hport =>
      rw [if_neg hport] at hplace
      by_cases hx : x.1 = l
      · simp [Op.brings, hx, arrivals, arrival, hplace, hl, isValueSort]
      · simp [Op.brings, hx, arrivals, arrival, hkind, isValueSort]
  · next hkind =>
    rw [← hzero hkind rfl (hother hkind (by simp))]
    rfl
  · next hkind =>
    rw [← hzero hkind rfl (hother hkind (by simp))]
    rfl
  · next comparator hkind =>
    have harrival : arrival g l x = 0 :=
      if_neg fun hx => hother hkind (by simp) hx.1 hx.2
    simp [Op.brings, Command.brings, arrivals, harrival, hkind, isValueSort]
  · next hkind =>
    have harrival : arrival g l x = 0 := by
      simp [arrival, waitPlace, hkind]
    simp [arrivals, harrival, hkind]

variable {lm : LocalityManager}

theorem Static.kind_of_valueSort {log : List Event} {commands : List Command} {ids : ℕ → Ids}
    (h : Static g log commands ids) {v : ℕ} {o : Object} {p' : ℕ}
    (hc : commands[t]? = some (.valueSort v o p')) :
    ∃ comparator, g.kindOf v = some (.valueSort comparator) := by
  rcases h.kinds t _ hc with ⟨kind, place, -, hcommand, -⟩ | ⟨kind, hkind, hcreated⟩
  · cases kind <;> cases place <;> cases hcommand
  · cases kind <;> cases hcreated
    exact ⟨_, hkind⟩

/-- An operation passes on what it brings; a countdown has brought it. -/
theorem Inv.brings_balance (hinv : Inv g lm s) (h : Shape config g)
    (hl : g.kindOf l = some (.scatterGatherProcess proc workerCount count))
    (hrunning : (s.workers w).activity = .running t) (hmem : op ∈ (s.workers w).program)
    (heffect : Performs g s w op e) :
    op.brings g l p = (e.next.map (Op.brings g l p)).sum +
      (e.action.created.map (Command.brings g l p)).sum + if op = .countDown l p then 1 else 0 := by
  obtain ⟨c, hc, hfit⟩ := hinv.running_fits hrunning hmem
  cases heffect with
  | step op choice hoption =>
    cases op with
    | prepare t' c' =>
      simp [effect, Op.brings, sum_brings_body, Action.created]
    | deliver x p' o =>
      simp [effect, sum_brings_receive hl, Op.brings, receiveFragment_action, Action.created]
    | sortRecords l' p' =>
      simp [effect, sum_brings_commitFragment, Op.brings, scattered, Action.created]
    | sortValues v p' =>
      obtain ⟨o, rfl⟩ := hfit
      obtain ⟨comparator, hv⟩ := hinv.static.kind_of_valueSort hc
      simp [effect, sum_brings_commitFragment, Op.brings, h.passed_eq hv, Action.created]
    | runGather l' inputs =>
      obtain rfl : c = .gather l' := hfit
      obtain ⟨kind, place, hkind, hcommand, -⟩ := hinv.static.fixed hc fun kind => by
        cases kind <;> rfl
      obtain rfl := kind_of_gather hcommand
      have hzero := h.arrivals_eq_zero hl (l', 0) hkind ⟨rfl, rfl⟩
      simp [effect, sum_brings_commitFragment, Op.brings, hzero, Action.created]
    | link t' c' deps =>
      cases deps with
      | cons d deps => simp [effect, Op.brings, Action.created]
      | nil =>
        simp only [effect, Action.created, commitTask]
        split <;> simp [Op.brings, Function.comp_def]
    | countDown l' p' =>
      simp only [effect, Action.created, Op.brings, Op.countDown.injEq]
      split <;> split <;> simp [Op.brings]
    | spawn c' => simp [effect, Op.brings, Action.created]
    | createSortTask l' p' => simp [effect, Op.brings, Command.brings, Action.created]
    | _ =>
      simp only [effect, Op.brings, reduceCtorEq, if_false]
      (try split) <;> simp [Op.brings, Command.brings, Action.created, Function.comp_def]
  | flush l' callback port recordCount o hport hbuffer =>
    have hzero : ((g.successorsOf (l', port)).map (arrivals g l)).sum = 0 := by
      unfold outputPortCount at hport
      split at hport
      · next hkind => exact h.arrivals_eq_zero hl _ hkind ⟨rfl, rfl⟩
      · next hkind => exact h.arrivals_eq_zero hl _ hkind ⟨rfl, rfl⟩
      · next hkind => exact h.arrivals_eq_zero hl _ hkind ⟨rfl, rfl⟩
      · cases hport
    have hflush : ((if 0 < recordCount then commitFragment g (l', port) 0 o else []).map
        (Op.brings g l p)).sum = 0 := by
      split
      · rw [sum_brings_commitFragment, hzero, ite_self]
      · rfl
    simp [Op.brings, hflush, Action.created]
  | _ => simp [Op.brings, Action.created]

end Balance

/-! The run begins with one fragment of each partition to come for each port. -/

section Start

variable {config : Configuration} {g : LogicalGraph} {lm : LocalityManager} {l p : ℕ}
  {proc : Processor} {workerCount count : ℕ}

/-- A weight that only the tasks of one place have, summed over the logical tasks. -/
theorem inCommands_start (hwaits : Waits g) (draws : TaskId → WorkerId) (k : Command → ℕ)
    (place : PhysicalSuccessor) (honly : ∀ l kind place', g.kindOf l = some kind →
      k (commandAt kind l place') ≠ 0 → commandAt kind l place' = commandAt kind l place) :
    (State.start g (Plan.setUp g lm draws) : State n).inCommands k =
      ∑ l ∈ range g.tasks.length, (g.kindOf l).elim 0 fun kind => k (commandAt kind l place) := by
  have h := setUp_spec (n := n) lm draws hwaits.endpoints
  let p : Plan n := Plan.setUp g lm draws
  have hterm : ∀ t, untaken p.system.log t * (p.commands[t]?).elim 0 k =
      (p.commands[t]?).elim 0 k := by
    intro t
    rw [untaken, if_neg (h.calm.untaken t), Nat.one_mul]
  have hsum : (State.start g (Plan.setUp g lm draws) : State n).inCommands k =
      ∑ t ∈ range p.commands.length, (p.commands[t]?).elim 0 k :=
    Finset.sum_congr rfl fun t _ => hterm t
  rw [hsum]
  symm
  refine Finset.sum_bij_ne_zero (fun l _ _ => (p.ids l).get place) ?_ ?_ ?_ ?_
  · intro l hl _
    obtain ⟨kind, hkind⟩ := g.kindOf_eq_some (mem_range.mp hl)
    exact mem_range.mpr (List.getElem?_eq_some_iff.mp ((h.laid l kind hkind).command place)).1
  · intro l hl _ l' hl' _ heq
    obtain ⟨kind, hkind⟩ := g.kindOf_eq_some (mem_range.mp hl)
    obtain ⟨kind', hkind'⟩ := g.kindOf_eq_some (mem_range.mp hl')
    have hcommand := (h.laid l kind hkind).command place
    have hcommand' := (h.laid l' kind' hkind').command place
    have hids : (p.ids l).get place = (p.ids l').get place := heq
    rw [hids, hcommand', Option.some.injEq] at hcommand
    rw [← owner_commandAt kind l place, ← hcommand, owner_commandAt]
  · intro t ht hne
    obtain ⟨c, hc⟩ : ∃ c, p.commands[t]? = some c :=
      ⟨_, List.getElem?_eq_getElem (mem_range.mp ht)⟩
    obtain ⟨kind, place', hkind, hcommand, hid⟩ := h.fixed t c hc
    rw [hc, Option.elim_some, hcommand] at hne
    have hsame := honly _ kind place' hkind hne
    refine ⟨c.owner, mem_range.mpr (g.lt_of_kindOf hkind), ?_, ?_⟩
    · rw [hkind, Option.elim_some, ← hsame]
      exact hne
    · rw [(h.laid _ kind hkind).merged place place' hsame.symm]
      exact hid.symm
  · intro l hl _
    obtain ⟨kind, hkind⟩ := g.kindOf_eq_some (mem_range.mp hl)
    rw [hkind, (h.laid l kind hkind).command place]
    rfl

theorem coming_start (h : Shape config g)
    (hl : g.kindOf l = some (.scatterGatherProcess proc workerCount count)) (hp : p < count)
    (draws : TaskId → WorkerId) :
    coming g (State.start g (Plan.setUp g lm draws) : State n) l p =
      proc.inputPorts.countP fun iport => iport.movement = .scatterGather := by
  rw [coming, tokens_start, inCommands_start h.waits draws _ .barrier, ← sum_scattered h hl]
  · refine Finset.sum_congr rfl fun s hs => ?_
    obtain ⟨kind, hkind⟩ := g.kindOf_eq_some (mem_range.mp hs)
    rw [hkind, Option.elim_some, Option.any_some]
    cases kind with
    | shuffle count' =>
      have hcount : count' = count := by
        rw [(h.scatterGather hl).1]
        rcases h.kinds s _ hkind with heq | heq | ⟨comparator, heq⟩ | ⟨proc', heq, -⟩
        · cases heq
          rfl
        · cases heq
        · cases heq
        · have hprocess := GraphBuilder.isIntermediate_createProcessTask config proc'
          rw [← heq] at hprocess
          cases hprocess
      simp [commandAt, Command.brings, hkind, isShuffle, hcount, hp]
    | _ => simp [commandAt, Command.brings, isShuffle]
  · intro s kind place' hkind hne
    cases kind <;> cases place' <;> first
      | rfl
      | exact absurd rfl hne

end Start

/-! The counters follow the fragments, and the rows are moved out in time. -/

/-- The row of the pool that an operation moves into a run command. -/
def Op.moves : Op → Option (ℕ × ℕ)
  | createPartitionRun l p => some (l, p)
  | _ => none

def moving (s : State n) (x : ℕ × ℕ) : ℕ := s.tokens (marked Op.moves x) fun _ => 0

structure PoolInv (g : LogicalGraph) (s : State n) (l count : ℕ) : Prop where
  length : (s.locals l).partitionedPool.length = count
  counters : ∀ p < count, (s.locals l).waitingCounters[p]? = some (coming g s l p : ℤ)
  rows : ∀ p row, (s.locals l).partitionedPool[p]? = some row → (∃ o, some o ∈ row) →
    0 < coming g s l p ∨ 0 < moving s (l, p)

section Pool

variable {config : Configuration} {g : LogicalGraph} {lm : LocalityManager} {s : State n}
  {w : Fin n} {t : TaskId} {op : Op} {rest : List Op} {e : Effect} {l p : ℕ} {proc : Processor}
  {workerCount count : ℕ}

/-- What an operation may do to the pool and the counters of the task it changes. -/
inductive PoolChange (g : LogicalGraph) (x : Local) (l : ℕ) : Op → Local → Prop
  | keep {op : Op} {y : Local} (hpool : y.partitionedPool = x.partitionedPool)
      (hcounters : y.waitingCounters = x.waitingCounters)
      (hop : ∀ p, op ≠ .countDown l p ∧ op ≠ .createPartitionRun l p) : PoolChange g x l op y
  | store {port : PortKey} {p : ℕ} {o : Object} {y : Local} (hl : port.1 = l)
      (hplace : waitPlace g port = some .barrier)
      (hpool : y.partitionedPool = x.partitionedPool.modify p fun row => row.set port.2 (some o))
      (hcounters : y.waitingCounters = x.waitingCounters) : PoolChange g x l (.deliver port p o) y
  | countDown {p : ℕ} {y : Local} (hpool : y.partitionedPool = x.partitionedPool)
      (hcounters : y.waitingCounters = x.waitingCounters.modify p (· - 1)) :
      PoolChange g x l (.countDown l p) y
  | move {p : ℕ} {y : Local} (hpool : y.partitionedPool = x.partitionedPool.set p [])
      (hcounters : y.waitingCounters = x.waitingCounters) :
      PoolChange g x l (.createPartitionRun l p) y

theorem Performs.poolChange (h : Performs g s w op e) {y : Local}
    (hchange : e.change = some (l, y)) : PoolChange g (s.locals l) l op y := by
  cases h with
  | step op choice hoption =>
    cases op with
    | deliver x p o =>
      simp only [effect, receiveFragment, receiveProcessFragment] at hchange
      split at hchange
      · split at hchange <;> cases hchange
        exact .keep rfl rfl (by simp)
      · split at hchange <;> cases hchange
        exact .keep rfl rfl (by simp)
      · next hkind =>
        have hplace := waitPlace_of_process hkind rfl
        split at hchange
        · cases hchange
          exact .keep rfl rfl (by simp)
        · next hport =>
          rw [if_neg hport] at hplace
          cases hchange
          exact .store rfl hplace rfl rfl
      · cases hchange
      · cases hchange
        exact .keep rfl rfl (by simp)
      · cases hchange
      · cases hchange
    | countDown l' p =>
      cases hchange
      exact .countDown rfl rfl
    | createPartitionRun l' p =>
      cases hchange
      exact .move rfl rfl
    | link t c deps =>
      cases deps with
      | cons d deps => cases hchange
      | nil =>
        simp only [effect, commitTask] at hchange
        split at hchange <;> cases hchange
        exact .keep rfl rfl (by simp)
    | _ =>
      simp only [effect] at hchange
      first
        | (cases hchange <;> exact .keep rfl rfl (by simp))
        | (split at hchange <;> cases hchange <;> exact .keep rfl rfl (by simp))
  | setTaskCount l' taskCount hinput =>
    cases hchange
    exact .keep rfl rfl (by simp)
  | _ => cases hchange

theorem Performs.poolChange_apply (h : Performs g s w op e) (rest : List Op) (l : ℕ) :
    PoolChange g (s.locals l) l op ((s.apply w rest e).locals l) := by
  by_cases hchange : ∃ y, e.change = some (l, y)
  · obtain ⟨y, hy⟩ := hchange
    have heq : (s.apply w rest e).locals l = y := by simp [State.apply, hy]
    rw [heq]
    exact h.poolChange hy
  · have heq : (s.apply w rest e).locals l = s.locals l := by
      rcases locals_apply s w rest e l with ⟨y, hy, -⟩ | heq
      · exact absurd ⟨y, hy⟩ hchange
      · exact heq
    rw [heq]
    refine .keep rfl rfl fun p => ⟨?_, ?_⟩
    · rintro rfl
      cases h
      exact hchange ⟨_, rfl⟩
    · rintro rfl
      cases h
      exact hchange ⟨_, rfl⟩

theorem coming_pos_of_mem (hop : op ∈ (s.workers w).program) (hpos : 0 < op.brings g l p) :
    0 < coming g s l p := Nat.add_pos_left (inPrograms_pos hop hpos) _

theorem Inv.coming_apply (hinv : Inv g lm s) (h : Shape config g)
    (hl : g.kindOf l = some (.scatterGatherProcess proc workerCount count))
    (hrunning : (s.workers w).activity = .running t) (hcall : s.system.calls (some w) = .idle)
    (hprogram : (s.workers w).program = op :: rest) (heffect : Performs g s w op e) (p : ℕ) :
    coming g (s.apply w rest e) l p + (if op = .countDown l p then 1 else 0) = coming g s l p := by
  have hmem : op ∈ (s.workers w).program := mem_program hprogram
  have htokens := hinv.tokens_apply hrunning hcall hprogram heffect (Op.brings g l p)
    (Command.brings g l p)
  have hbalance := @Inv.brings_balance n config g s w t op e l p proc workerCount count lm hinv h hl
    hrunning hmem heffect
  unfold coming
  omega

theorem Inv.moving_apply (hinv : Inv g lm s) (hrunning : (s.workers w).activity = .running t)
    (hcall : s.system.calls (some w) = .idle) (hprogram : (s.workers w).program = op :: rest)
    (heffect : Performs g s w op e) (x : ℕ × ℕ) :
    moving (s.apply w rest e) x + marked Op.moves x op =
      moving s x + (e.next.map (marked Op.moves x)).sum := by
  have htokens := hinv.tokens_apply hrunning hcall hprogram heffect (marked Op.moves x) fun _ => 0
  have hcreated : (e.action.created.map fun _ => 0).sum = 0 := by simp
  rw [hcreated] at htokens
  exact htokens

theorem PoolInv.apply (hpool : PoolInv g s l count) (hinv : Inv g lm s) (h : Shape config g)
    (hl : g.kindOf l = some (.scatterGatherProcess proc workerCount count))
    (hrunning : (s.workers w).activity = .running t) (hcall : s.system.calls (some w) = .idle)
    (hprogram : (s.workers w).program = op :: rest) (heffect : Performs g s w op e) :
    PoolInv g (s.apply w rest e) l count := by
  have hmem : op ∈ (s.workers w).program := mem_program hprogram
  have hcoming := hinv.coming_apply h hl hrunning hcall hprogram heffect
  have hmoving := hinv.moving_apply hrunning hcall hprogram heffect
  have hsame : ∀ p, op ≠ .countDown l p → coming g (s.apply w rest e) l p = coming g s l p := by
    intro p hop
    have hp := hcoming p
    rwa [if_neg hop, Nat.add_zero] at hp
  have hkept : ∀ p, op ≠ .createPartitionRun l p → moving s (l, p) ≤ moving (s.apply w rest e) (l, p) := by
    intro p hop
    have hp := hmoving (l, p)
    have hzero : marked Op.moves (l, p) op = 0 := marked_of_ne fun heq => by
      cases op with
      | createPartitionRun l' p' =>
        cases heq
        exact hop rfl
      | _ => cases heq
    omega
  have hlater : ∀ p, op ≠ .countDown l p → op ≠ .createPartitionRun l p →
      0 < coming g s l p ∨ 0 < moving s (l, p) →
      0 < coming g (s.apply w rest e) l p ∨ 0 < moving (s.apply w rest e) (l, p) := by
    intro p hcount hmove hpos
    rw [hsame p hcount]
    exact hpos.imp_right fun hpos => Nat.lt_of_lt_of_le hpos (hkept p hmove)
  cases heffect.poolChange_apply rest l with
  | keep hrows hcounters hop =>
    refine ⟨by rw [hrows, hpool.length], fun p hp => ?_, fun p row hrow hsome => ?_⟩
    · rw [hcounters, hsame p (hop p).1]
      exact hpool.counters p hp
    · rw [hrows] at hrow
      exact hlater p (hop p).1 (hop p).2 (hpool.rows p row hrow hsome)
  | store hport hplace hrows hcounters =>
    rename_i port p' o
    refine ⟨by rw [hrows, List.length_modify, hpool.length], fun p hp => ?_,
      fun p row hrow hsome => ?_⟩
    · rw [hcounters, hsame p (by simp)]
      exact hpool.counters p hp
    · rw [hrows, List.getElem?_modify] at hrow
      by_cases hp : p' = p
      · left
        rw [hsame p (by simp)]
        refine coming_pos_of_mem hmem ?_
        have harrival : arrival g l port = 1 := if_pos ⟨hport, hplace⟩
        simp only [Op.brings, hp, if_true, arrivals, harrival]
        omega
      · have hold : (s.locals l).partitionedPool[p]? = some row := by simpa [hp] using hrow
        exact hlater p (by simp) (by simp) (hpool.rows p row hold hsome)
  | countDown hrows hcounters =>
    rename_i p'
    refine ⟨by rw [hrows, hpool.length], fun p hp => ?_, fun p row hrow hsome => ?_⟩
    · rw [hcounters, List.getElem?_modify, hpool.counters p hp]
      have hp' := hcoming p
      by_cases heq : p' = p
      · rw [if_pos (by rw [heq])] at hp'
        simp only [Option.map_eq_map, Option.map_some, heq, if_true, Option.some.injEq]
        omega
      · rw [hsame p (by simpa using heq)]
        simp [heq]
    · rw [hrows] at hrow
      by_cases heq : p' = p
      · -- the last fragment has been counted, or more are to come
        subst heq
        have hp' := hcoming p'
        rw [if_pos rfl] at hp'
        have hlt : p' < count := by
          rw [← hpool.length]
          exact (List.getElem?_eq_some_iff.mp hrow).1
        have hcounter := hpool.counters p' hlt
        rcases Nat.eq_zero_or_pos (coming g (s.apply w rest e) l p') with hzero | hpos
        · right
          have hmove := hmoving (l, p')
          have hnext : e.next = [.createPartitionRun l p'] := by
            cases heffect
            have hdown : ((s.locals l).waitingCounters.modify p' (· - 1))[p']? = some 0 := by
              rw [List.getElem?_modify, hcounter]
              simp only [Option.map_eq_map, Option.map_some, if_true, Option.some.injEq]
              omega
            simp [effect, hdown]
          have hone : (e.next.map (marked Op.moves (l, p'))).sum = 1 := by
            rw [hnext, List.map_singleton, List.sum_singleton]
            exact marked_of_eq rfl
          have hnone : marked Op.moves (l, p') (.countDown l p') = 0 := marked_of_ne (by simp [Op.moves])
          omega
        · exact Or.inl hpos
      · exact hlater p (by simpa using heq) (by simp) (hpool.rows p row hrow hsome)
  | move hrows hcounters =>
    rename_i p'
    refine ⟨by rw [hrows, List.length_set, hpool.length], fun p hp => ?_,
      fun p row hrow hsome => ?_⟩
    · rw [hcounters, hsame p (by simp)]
      exact hpool.counters p hp
    · rw [hrows, List.getElem?_set] at hrow
      by_cases heq : p' = p
      · obtain ⟨o, ho⟩ := hsome
        rw [if_pos heq] at hrow
        split at hrow
        · cases hrow
          cases ho
        · cases hrow
      · rw [if_neg heq] at hrow
        exact hlater p (by simp) (by simpa using heq) (hpool.rows p row hrow hsome)

theorem run_poolInv (h : Shape config g) (hrun : Run g lm s)
    (hl : g.kindOf l = some (.scatterGatherProcess proc workerCount count)) :
    PoolInv g s l count := by
  refine @run_induction n g lm s h.waits (fun s => PoolInv g s l count) ?_ ?_ ?_ hrun
  · intro draws
    have hlocal : (State.start g (Plan.setUp g lm draws) : State n).locals l =
        Local.create (.scatterGatherProcess proc workerCount count) := by
      simp [State.start, hl]
    refine ⟨?_, fun p hp => ?_, fun p row hrow hsome => ?_⟩
    · simp [hlocal, Local.create]
    · rw [hlocal, coming_start h hl hp]
      simp [Local.create, hp]
    · obtain ⟨o, ho⟩ := hsome
      rw [hlocal] at hrow
      have hmem := List.mem_of_getElem? hrow
      simp only [Local.create, List.mem_replicate] at hmem
      rw [hmem.2, List.mem_replicate] at ho
      cases ho.2
  · intro s w t op rest e _ hinv hpool hrunning hcall hprogram heffect
    exact hpool.apply hinv h hl hrunning hcall hprogram heffect
  · intro s s' _ hpool hbetween
    have hcoming : ∀ p, coming g s' l p = coming g s l p := fun p =>
      hbetween.tokens _ _ fun _ _ => rfl
    have hmoving : ∀ x, moving s' x = moving s x := fun x => hbetween.tokens _ _ fun _ _ => rfl
    refine ⟨by rw [hbetween.locals, hpool.length], fun p hp => ?_, fun p row hrow hsome => ?_⟩
    · rw [hbetween.locals, hcoming]
      exact hpool.counters p hp
    · rw [hbetween.locals] at hrow
      rw [hcoming, hmoving]
      exact hpool.rows p row hrow hsome

end Pool

end M3bp.Engine
