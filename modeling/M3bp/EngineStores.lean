import M3bp.EngineFinish
import M3bp.EngineGraph

/-!
Three of the containers in which logical tasks keep references: the inputs of a
gather, the partitioned buffers of a shuffle and the broadcast inputs of a
process. Each is emptied by one physical task of the logical task, and it is
filled only by tasks that this one waits for. While a container holds something, the
operation that empties it is still to come.
-/
namespace M3bp.Engine

open SchedulerCalls Transition

variable {n : ℕ}

inductive Store
  | inputs
  | partitionedBuffers
  | broadcastInputs
  deriving DecidableEq, Repr

def Local.stored (x : Local) : Store → List Object
  | .inputs => x.inputs
  | .partitionedBuffers => x.partitionedBuffers
  | .broadcastInputs => x.broadcastInputs.filterMap id

/-- The container that a command empties in the end. -/
def Command.clears : Command → Option (ℕ × Store)
  | gather l => some (l, .inputs)
  | shuffleBarrier l => some (l, .partitionedBuffers)
  | globalFinalize l => some (l, .broadcastInputs)
  | _ => none

/-- The container that an operation empties or leads to the emptying of. -/
def Op.clears : Op → Option (ℕ × Store)
  | prepare _ c => c.clears
  | runGather l _ | clearInputs l => some (l, .inputs)
  | clearPartitionedBuffers l => some (l, .partitionedBuffers)
  | globalFinalize l | clearBroadcastInputs l => some (l, .broadcastInputs)
  | _ => none

/-- What is still to come that empties a container. -/
def clearing (s : State n) (x : ℕ × Store) : ℕ :=
  s.tokens (marked Op.clears x) (marked Command.clears x)

/-- The operations that put something into a container. -/
def Op.fills (g : LogicalGraph) (l : ℕ) : Op → Store → Prop
  | deliver x _ _, .inputs => x.1 = l ∧ g.kindOf l = some .gather
  | deliver x _ _, .broadcastInputs =>
    x.1 = l ∧ waitPlace g x = some .entry ∧ ∃ kind, g.kindOf l = some kind ∧
      kind.isIntermediate = false
  | partitionFragment l' _, .partitionedBuffers => l' = l
  | _, _ => False

section Operations

variable {g : LogicalGraph} {s : State n} {w : Fin n} {op : Op} {e : Effect}

theorem receiveProcessFragment_stored {proc : Processor} {kind : TaskKind} {x : PortKey} {p : ℕ}
    {o : Object} {nonBroadcast : Effect} (hkind : g.kindOf x.1 = some kind)
    (hproc : processor? kind = some proc)
    (hother : ∀ l y, nonBroadcast.change = some (l, y) → ∀ store,
      y.stored store = (s.locals l).stored store)
    {l : ℕ} {y : Local}
    (hchange : (receiveProcessFragment s proc x o nonBroadcast).change = some (l, y))
    (store : Store) :
    y.stored store = (s.locals l).stored store ∨ (Op.deliver x p o).fills g l store := by
  unfold receiveProcessFragment at hchange
  dsimp only at hchange
  split at hchange
  · next hport =>
    obtain ⟨rfl, rfl⟩ := Prod.mk.inj (Option.some.inj hchange)
    cases store with
    | inputs => exact Or.inl rfl
    | partitionedBuffers => exact Or.inl rfl
    | broadcastInputs =>
      refine Or.inr ⟨rfl, ?_, kind, hkind, ?_⟩
      · cases kind <;> cases hproc <;> simp [waitPlace, hkind, hport]
      · cases kind <;> first
          | rfl
          | cases hproc
  · exact Or.inl (hother l y hchange store)

/-- What an operation does to the containers of the logical task it changes. -/
theorem Performs.stored (h : Performs g s w op e) {l : ℕ} {y : Local}
    (hchange : e.change = some (l, y)) (store : Store) :
    y.stored store = (s.locals l).stored store ∨ y.stored store = [] ∨ op.fills g l store := by
  cases h with
  | step op choice hoption =>
    cases op with
    | deliver x p o =>
      simp only [effect, receiveFragment] at hchange
      split at hchange
      · next hkind =>
        exact (receiveProcessFragment_stored hkind rfl (by simp) hchange store).imp_right Or.inr
      · next hkind =>
        exact (receiveProcessFragment_stored hkind rfl (by simp) hchange store).imp_right Or.inr
      · next hkind =>
        refine (receiveProcessFragment_stored hkind rfl ?_ hchange store).imp_right Or.inr
        rintro l y hchange store
        obtain ⟨rfl, rfl⟩ := Prod.mk.inj (Option.some.inj hchange)
        cases store <;> rfl
      · cases hchange
      · next hkind =>
        obtain ⟨rfl, rfl⟩ := Prod.mk.inj (Option.some.inj hchange)
        cases store with
        | inputs => exact Or.inr (Or.inr ⟨rfl, hkind⟩)
        | partitionedBuffers => exact Or.inl rfl
        | broadcastInputs => exact Or.inl rfl
      · cases hchange
      · cases hchange
    | partitionFragment l' o =>
      obtain ⟨rfl, rfl⟩ := Prod.mk.inj (Option.some.inj hchange)
      cases store with
      | inputs => exact Or.inl rfl
      | partitionedBuffers => exact Or.inr (Or.inr rfl)
      | broadcastInputs => exact Or.inl rfl
    | clearInputs l' | clearPartitionedBuffers l' | clearBroadcastInputs l' =>
      obtain ⟨rfl, rfl⟩ := Prod.mk.inj (Option.some.inj hchange)
      cases store with
      | inputs => simp [Local.stored]
      | partitionedBuffers => simp [Local.stored]
      | broadcastInputs => simp [Local.stored]
    | link t c deps =>
      left
      cases deps with
      | cons d deps => cases hchange
      | nil =>
        simp only [effect, commitTask] at hchange
        split at hchange
        · obtain ⟨rfl, rfl⟩ := Prod.mk.inj (Option.some.inj hchange)
          cases store <;> rfl
        · cases hchange
    | _ =>
      left
      simp only [effect] at hchange
      first
        | (cases hchange <;> cases store <;> rfl)
        | (split at hchange <;> cases hchange <;> cases store <;> rfl)
  | setTaskCount l' count hinput =>
    obtain ⟨rfl, rfl⟩ := Prod.mk.inj (Option.some.inj hchange)
    left
    cases store <;> rfl
  | _ => cases hchange

/-- The emptying of a container is only dropped by the operation that empties it,
and by a terminal task that finds its processor not initialised. -/
theorem Performs.clears (h : Performs g s w op e) (x : ℕ × Store)
    (hshuffle : ∀ t l, op = .prepare t (.shuffleBarrier l) → ∃ count, g.kindOf l = some (.shuffle count)) :
    marked Op.clears x op ≤ (e.next.map (marked Op.clears x)).sum ∨
      (∃ y, e.change = some (x.1, y) ∧ y.stored x.2 = []) ∨
      ∃ l, op = .globalFinalize l ∧ (s.locals l).globalInitialized = false := by
  by_cases hclears : op.clears = some x
  · cases h with
    | step op choice hoption =>
      cases op with
      | prepare t c =>
        left
        cases c with
        | gather l => simp_all [marked, Op.clears, Command.clears, effect, body]
        | shuffleBarrier l =>
          obtain ⟨count, hkind⟩ := hshuffle t l rfl
          simp_all [marked, Op.clears, Command.clears, effect, body]
        | globalFinalize l => simp_all [marked, Op.clears, Command.clears, effect, body]
        | _ => cases hclears
      | runGather l inputs =>
        left
        simp_all [marked, Op.clears, effect]
      | globalFinalize l =>
        by_cases hflag : (s.locals l).globalInitialized = true
        · left
          simp_all [marked, Op.clears, effect]
        · exact Or.inr (Or.inr ⟨l, rfl, by simpa using hflag⟩)
      | clearInputs l | clearPartitionedBuffers l | clearBroadcastInputs l =>
        right; left
        cases hclears
        exact ⟨_, rfl, rfl⟩
      | _ => cases hclears
    | _ => cases hclears
  · left
    rw [marked_of_ne hclears]
    exact Nat.zero_le _

end Operations

/-! Whether a processor is initialised when its terminal task runs. -/

def Command.initializes : Command → Option ℕ
  | globalInitialize l => some l
  | _ => none

/-- The logical task that an operation is about to mark as initialised. -/
def Op.initializes : Op → Option ℕ
  | prepare _ c => c.initializes
  | globalInitialize l | markGlobalInitialized l => some l
  | _ => none

def Command.finalizes : Command → Option ℕ
  | globalFinalize l => some l
  | _ => none

/-- The logical task that an operation is about to mark as finalised. -/
def Op.finalizes : Op → Option ℕ
  | prepare _ c => c.finalizes
  | globalFinalize l => some l
  | _ => none

def initializing (s : State n) (l : ℕ) : ℕ :=
  s.tokens (marked Op.initializes l) (marked Command.initializes l)

def finalizing (s : State n) (l : ℕ) : ℕ :=
  s.tokens (marked Op.finalizes l) (marked Command.finalizes l)

section Flag

variable {g : LogicalGraph} {lm : LocalityManager} {s : State n} {w : Fin n} {t : TaskId} {op : Op}
  {rest : List Op} {e : Effect} {l : ℕ}

theorem Performs.flag (h : Performs g s w op e) {y : Local} (hchange : e.change = some (l, y)) :
    y.globalInitialized = (s.locals l).globalInitialized ∨
      op = .markGlobalInitialized l ∧ y.globalInitialized = true ∨ op = .globalFinalize l := by
  cases h with
  | step op choice hoption =>
    cases op with
    | deliver x p o =>
      left
      simp only [effect, receiveFragment, receiveProcessFragment] at hchange
      split at hchange <;> first
        | (cases hchange <;> rfl)
        | (split at hchange <;> cases hchange <;> rfl)
    | link t c deps =>
      left
      cases deps with
      | cons d deps => cases hchange
      | nil =>
        simp only [effect, commitTask] at hchange
        split at hchange
        · cases hchange
          rfl
        · cases hchange
    | markGlobalInitialized l' =>
      cases hchange
      exact Or.inr (Or.inl ⟨rfl, rfl⟩)
    | globalFinalize l' =>
      simp only [effect] at hchange
      split at hchange <;> cases hchange
      exact Or.inr (Or.inr rfl)
    | _ =>
      left
      simp only [effect] at hchange
      first
        | (cases hchange <;> rfl)
        | (split at hchange <;> cases hchange <;> rfl)
  | setTaskCount l' count hinput =>
    cases hchange
    exact Or.inl rfl
  | _ => cases hchange

theorem Performs.initializes (h : Performs g s w op e) :
    marked Op.initializes l op ≤ (e.next.map (marked Op.initializes l)).sum ∨
      op = .markGlobalInitialized l ∧
        e.change = some (l, { s.locals l with globalInitialized := true }) ∨
      op = .globalInitialize l ∧ (s.locals l).globalInitialized = true ∧ e.change = none := by
  by_cases hinit : op.initializes = some l
  · cases h with
    | step op choice hoption =>
      cases op with
      | prepare t c =>
        left
        cases c with
        | globalInitialize l' =>
          obtain rfl : l' = l := Option.some.inj hinit
          simp [effect, body, marked, Op.initializes, Command.initializes]
        | _ => cases hinit
      | globalInitialize l' =>
        obtain rfl : l' = l := Option.some.inj hinit
        by_cases hflag : (s.locals l').globalInitialized = true
        · right; right
          simp [effect, hflag]
        · left
          simp [effect, hflag, marked, Op.initializes]
      | markGlobalInitialized l' =>
        obtain rfl : l' = l := Option.some.inj hinit
        exact Or.inr (Or.inl ⟨rfl, rfl⟩)
      | _ => cases hinit
    | _ => cases hinit
  · left
    rw [marked_of_ne hinit]
    exact Nat.zero_le _

theorem finalizes_commitFragment (g : LogicalGraph) (x : PortKey) (p : ℕ) (o : Object) :
    ∀ op ∈ commitFragment g x p o, op.finalizes = none := by
  intro op hop
  obtain ⟨y, -, rfl⟩ := List.mem_map.mp hop
  rfl

/-- Only the preparation of a terminal task leads to its finalisation. -/
theorem Performs.finalizes (h : Performs g s w op e) :
    (∀ op' ∈ e.next, op'.finalizes = none) ∨
      ∃ t l, op = .prepare t (.globalFinalize l) ∧ e.next = [.globalFinalize l] := by
  cases h with
  | step op choice hoption =>
    cases op with
    | prepare t c =>
      cases c with
      | globalFinalize l => exact Or.inr ⟨t, l, rfl, rfl⟩
      | shuffleBarrier l =>
        left
        simp only [effect, body]
        split <;> simp +contextual [or_imp, Op.finalizes]
      | _ =>
        left
        simp [effect, body, Op.finalizes]
    | deliver x p o =>
      left
      simp only [effect, receiveFragment, receiveProcessFragment]
      split <;> (try split) <;> simp [Op.finalizes]
    | sortRecords l p => exact Or.inl (finalizes_commitFragment g _ p _)
    | sortValues l p => exact Or.inl (finalizes_commitFragment g _ p _)
    | runGather l inputs =>
      left
      intro op' hop'
      rcases List.mem_append.mp hop' with hop' | hop'
      · exact finalizes_commitFragment g _ 0 _ op' hop'
      · rw [List.mem_singleton.mp hop']
        rfl
    | link t c deps =>
      left
      cases deps with
      | cons d deps => simp [effect, Op.finalizes]
      | nil =>
        simp only [effect, commitTask]
        split <;> simp +contextual [Op.finalizes]
    | _ =>
      left
      simp only [effect]
      (try split) <;> simp +contextual [Op.finalizes]
  | flush l callback port recordCount o hport hbuffer =>
    left
    intro op' hop'
    rcases List.mem_append.mp hop' with hop' | hop'
    · split at hop'
      · exact finalizes_commitFragment g _ 0 o op' hop'
      · simp at hop'
    · rw [List.mem_singleton.mp hop']
      rfl
  | _ =>
    left
    simp [Op.finalizes]

theorem Dynamic.finalizes {c : Command} (h : Dynamic g c) : c.finalizes = none := by
  obtain ⟨kind, -, hcreated⟩ := h
  cases c <;> first
    | rfl
    | cases hcreated

/-- The terminal task of a processor is prepared once. -/
theorem Inv.finalizing_apply (h : Inv g lm s) (hrunning : (s.workers w).activity = .running t)
    (hcall : s.system.calls (some w) = .idle)
    (hprogram : (s.workers w).program = op :: rest) (heffect : Performs g s w op e) (l : ℕ) :
    finalizing (s.apply w rest e) l ≤ finalizing s l ∧
      (op = .globalFinalize l → finalizing (s.apply w rest e) l < finalizing s l) := by
  have htokens := h.tokens_apply hrunning hcall hprogram heffect (marked Op.finalizes l)
    (marked Command.finalizes l)
  have hcreated : (e.action.created.map (marked Command.finalizes l)).sum = 0 :=
    sum_marked_eq_zero fun c hc => by
      rw [(h.dynamic_created hrunning hprogram heffect c hc).finalizes]
      simp
  rw [hcreated] at htokens
  unfold finalizing
  rcases heffect.finalizes with hnone | ⟨t', l', rfl, hnext⟩
  · have hnext : (e.next.map (marked Op.finalizes l)).sum = 0 :=
      sum_marked_eq_zero fun op' hop' => by
        rw [hnone op' hop']
        simp
    rw [hnext] at htokens
    refine ⟨by omega, ?_⟩
    rintro rfl
    have hone : marked Op.finalizes l (.globalFinalize l) = 1 := marked_of_eq rfl
    omega
  · have hsame : marked Op.finalizes l (.globalFinalize l') =
        marked Op.finalizes l (.prepare t' (.globalFinalize l')) := rfl
    rw [hnext, List.map_singleton, List.sum_singleton, hsame] at htokens
    exact ⟨by omega, fun hop => by cases hop⟩

/-- What the terminal task of a processor finds. -/
structure FlagInv (s : State n) (l : ℕ) : Prop where
  once : finalizing s l ≤ 1
  flag : (s.locals l).globalInitialized = true ∨ 0 < initializing s l ∨ finalizing s l = 0

theorem flagInv_start (hwaits : Waits g) (draws : TaskId → WorkerId) (l : ℕ) :
    FlagInv (State.start g (Plan.setUp g lm draws) : State n) l := by
  have h : Inv g lm (State.start g (Plan.setUp g lm draws) : State n) :=
    start_inv hwaits.endpoints draws
  have hfixed : ∀ {u : TaskId} {c : Command},
      (State.start g (Plan.setUp g lm draws) : State n).commands[u]? = some c →
      c.finalizes = some l → ∃ kind, g.kindOf l = some kind ∧ kind.isIntermediate = false ∧
        c = .globalFinalize l ∧ u = ((State.start g (Plan.setUp g lm draws) : State n).ids l).terminal := by
    intro u c hc hfinalizes
    cases c with
    | globalFinalize l' =>
      obtain rfl : l' = l := Option.some.inj hfinalizes
      obtain ⟨kind, place, hkind, hcommand, hid⟩ := h.static.fixed hc fun kind => by
        cases kind <;> rfl
      obtain ⟨hprocess, rfl⟩ := place_of_globalFinalize hcommand
      exact ⟨kind, hkind, hprocess, rfl, hid⟩
    | _ => cases hfinalizes
  have huntaken : ∀ u, .taken u ∉ (State.start g (Plan.setUp g lm draws) : State n).system.log :=
    (setUp_spec lm draws hwaits.endpoints).calm.untaken
  refine ⟨?_, ?_⟩
  · rw [finalizing, tokens_start]
    refine inCommands_le_of_unique ((State.start g (Plan.setUp g lm draws) : State n).ids l).terminal
      fun u c hc hpos => ?_
    obtain ⟨-, -, -, -, hid⟩ := hfixed hc (key_of_marked_pos hpos)
    exact ⟨hid, marked_le_one⟩
  · rcases Nat.eq_zero_or_pos (finalizing (State.start g (Plan.setUp g lm draws) : State n) l) with
      hzero | hpos
    · exact Or.inr (Or.inr hzero)
    · right; left
      rcases exists_of_tokens_pos hpos with ⟨w, op, hop, -⟩ | ⟨u, c, hc, -, hpos'⟩
      · cases hop
      · obtain ⟨kind, hkind, hprocess, -, -⟩ := hfixed hc (key_of_marked_pos hpos')
        have hentry := (h.static.laid l kind hkind).command .entry
        refine tokens_pos_of_untaken _ hentry (huntaken _) ?_
        have hinit : (commandAt kind l .entry).initializes = some l := by
          cases kind <;> first
            | rfl
            | cases hprocess
        rw [marked_of_eq hinit]
        exact Nat.one_pos

theorem FlagInv.apply (hflag : FlagInv s l) (h : Inv g lm s)
    (hrunning : (s.workers w).activity = .running t) (hcall : s.system.calls (some w) = .idle)
    (hprogram : (s.workers w).program = op :: rest) (heffect : Performs g s w op e) :
    FlagInv (s.apply w rest e) l := by
  obtain ⟨hle, hlt⟩ := h.finalizing_apply hrunning hcall hprogram heffect l
  have honce := hflag.once
  refine ⟨hle.trans honce, ?_⟩
  by_cases hop : op = .globalFinalize l
  · have hlt' := hlt hop
    omega
  have hkept : (s.locals l).globalInitialized = true →
      ((s.apply w rest e).locals l).globalInitialized = true := by
    intro htrue
    rcases locals_apply s w rest e l with ⟨y, hchange, heq⟩ | heq
    · rw [heq]
      rcases heffect.flag hchange with hsame | ⟨-, hnew⟩ | hfinalize
      · rw [hsame, htrue]
      · exact hnew
      · exact absurd hfinalize hop
    · rw [heq, htrue]
  rcases hflag.flag with htrue | hpos | hzero
  · exact Or.inl (hkept htrue)
  · rcases heffect.initializes (l := l) with hnext | ⟨-, hchange⟩ | ⟨-, htrue, -⟩
    · have htokens := h.tokens_apply hrunning hcall hprogram heffect (marked Op.initializes l)
        (marked Command.initializes l)
      unfold initializing at hpos ⊢
      omega
    · left
      simp [State.apply, hchange]
    · exact Or.inl (hkept htrue)
  · omega

theorem run_flagInv (hwaits : Waits g) (hrun : Run g lm s) (l : ℕ) : FlagInv s l := by
  refine @run_induction n g lm s hwaits (fun s => FlagInv s l)
    (fun draws => flagInv_start hwaits draws l) ?_ ?_ hrun
  · intro s w t op rest e _ h hflag hrunning hcall hprogram heffect
    exact hflag.apply h hrunning hcall hprogram heffect
  · intro s s' _ hflag hbetween
    have hfin : finalizing s' l = finalizing s l := hbetween.tokens _ _ fun _ _ => rfl
    have hinit : initializing s' l = initializing s l := hbetween.tokens _ _ fun _ _ => rfl
    refine ⟨by rw [hfin]; exact hflag.once, ?_⟩
    rw [hbetween.locals, hfin, hinit]
    exact hflag.flag

/-- The dependencies of a process lead from its entry task to its terminal task. -/
theorem Inv.before_terminal_of_process (h : Inv g lm s) {kind : TaskKind}
    (hkind : g.kindOf l = some kind) (hprocess : kind.isIntermediate = false) :
    Before s.system.log (s.ids l).entry (s.ids l).terminal := by
  have hlaid := h.static.laid l kind hkind
  have hdistinct := process_distinct hprocess l
  exact Relation.TransGen.head (hlaid.dependency_barrier hdistinct.1)
    (.single (hlaid.dependency_terminal hdistinct.2))

/-- A terminal task that runs finds its processor initialised. -/
theorem initialized_of_globalFinalize (hwaits : Waits g) (hrun : Run g lm s)
    (hrunning : (s.workers w).activity = .running t)
    (hop : .globalFinalize l ∈ (s.workers w).program) :
    (s.locals l).globalInitialized = true := by
  have h := run_invariant hwaits hrun
  have hinv := run_inv h.run
  have hpos : 0 < finalizing s l := by
    have hone : marked Op.finalizes l (.globalFinalize l) = 1 := marked_of_eq rfl
    exact Nat.add_pos_left (inPrograms_pos hop (by omega)) _
  rcases (run_flagInv hwaits hrun l).flag with htrue | hinit | hzero
  · exact htrue
  · exfalso
    -- the terminal task runs, so the entry task is over
    obtain ⟨c, hc, hfit⟩ := h.running_fits hrunning hop
    obtain rfl : c = .globalFinalize l := hfit
    obtain ⟨kind, place, hkind, hcommand, hid⟩ := h.static.fixed hc fun kind => by
      cases kind <;> rfl
    obtain ⟨hprocess, rfl⟩ := place_of_globalFinalize hcommand
    have hover : .completed (s.ids l).entry ∈ s.system.log := by
      by_contra hlive
      refine hinv.unreleased_of_before (h.before_terminal_of_process hkind hprocess) hlive ?_
      have hreleased := hinv.log.taken_released t (h.running w t hrunning).1
      rw [hid] at hreleased
      exact hreleased
    have hentry : ∀ {u : TaskId} {c : Command}, s.commands[u]? = some c →
        c = .globalInitialize l → u = (s.ids l).entry := by
      rintro u c hu rfl
      obtain ⟨kind', place', -, hcommand', hid'⟩ := h.static.fixed hu fun kind => by
        cases kind <;> rfl
      obtain ⟨-, rfl⟩ := place_of_globalInitialize hcommand'
      exact hid'
    rcases exists_of_tokens_pos hinit with ⟨w', op', hop', hmark⟩ | ⟨u, c, hu, huntaken, hmark⟩
    · obtain ⟨u, hrunning'⟩ := h.running_of_mem hop'
      obtain ⟨c', hc', hfit'⟩ := h.running_fits hrunning' hop'
      have hcommand' : c' = .globalInitialize l := by
        have hkey := key_of_marked_pos hmark
        cases op' with
        | prepare t' c'' =>
          obtain ⟨-, rfl⟩ := hfit'
          cases c'' <;> cases hkey
          rfl
        | globalInitialize l' | markGlobalInitialized l' =>
          cases hkey
          exact hfit'
        | _ => cases hkey
      rw [hentry hc' hcommand'] at hrunning'
      exact (h.running w' _ hrunning').2.1 hover
    · have hkey := key_of_marked_pos hmark
      have hcommand' : c = .globalInitialize l := by
        cases c <;> cases hkey
        rfl
      rw [hentry hu hcommand'] at huntaken
      exact huntaken (hinv.log.completed_taken _ hover)
  · omega

end Flag

/-! While a container holds something, its emptying is still to come. -/

section Stores

variable {g : LogicalGraph} {lm : LocalityManager} {s : State n} {w : Fin n} {t : TaskId} {op : Op}
  {rest : List Op} {e : Effect}

/-- A container is filled while the task that empties it has not been taken. -/
theorem Inv.clearing_of_fills (h : Inv g lm s) (hrunning : (s.workers w).activity = .running t)
    (hop : op ∈ (s.workers w).program) {l : ℕ} {store : Store} (hfills : op.fills g l store) :
    0 < clearing s (l, store) := by
  have hinv := run_inv h.run
  have huntaken : ∀ {b : TaskId}, Before s.system.log t b → .taken b ∉ s.system.log :=
    fun hbefore htaken => h.unreleased hrunning hbefore (hinv.log.taken_released _ htaken)
  have hclears : ∀ {kind : TaskKind} (place : PhysicalSuccessor), g.kindOf l = some kind →
      (commandAt kind l place).clears = some (l, store) →
      Before s.system.log t ((s.ids l).get place) → 0 < clearing s (l, store) := by
    intro kind place hkind hcommand hbefore
    refine tokens_pos_of_untaken _ ((h.static.laid l kind hkind).command place)
      (huntaken hbefore) ?_
    rw [marked_of_eq hcommand]
    exact Nat.one_pos
  obtain ⟨c, hc, hfit⟩ := h.running_fits hrunning hop
  cases op with
  | deliver x p o =>
    cases store with
    | inputs =>
      obtain ⟨rfl, hkind⟩ := hfills
      exact hclears .entry hkind rfl (hfit .entry (by simp [waitPlace, hkind]))
    | partitionedBuffers => cases hfills
    | broadcastInputs =>
      obtain ⟨rfl, hplace, kind, hkind, hprocess⟩ := hfills
      refine hclears .terminal hkind ?_
        ((hfit .entry hplace).trans (h.before_terminal_of_process hkind hprocess))
      cases kind <;> first
        | rfl
        | cases hprocess
  | partitionFragment l' o =>
    cases store with
    | partitionedBuffers =>
      obtain rfl : l' = l := hfills
      obtain rfl : c = .shufflePartition l' o := hfit
      obtain ⟨kind, hkind, hcreated⟩ : ∃ kind, g.kindOf l' = some kind ∧
          (Command.shufflePartition l' o).createdBy kind = true := by
        rcases h.static.kinds t _ hc with ⟨kind, place, -, hcommand, -⟩ | hdynamic
        · cases kind <;> cases place <;> cases hcommand
        · exact hdynamic
      refine hclears .barrier hkind ?_
        (.single (h.linked_of_called hc (h.running_called hrunning) .barrier rfl))
      cases kind <;> cases hcreated
      rfl
    | _ => cases hfills
  | _ => cases store <;> cases hfills

theorem Inv.clearing_apply (h : Inv g lm s) (hwaits : Waits g) (hrun : Run g lm s)
    (hstores : ∀ x : ℕ × Store, (s.locals x.1).stored x.2 ≠ [] → 0 < clearing s x)
    (hrunning : (s.workers w).activity = .running t) (hcall : s.system.calls (some w) = .idle)
    (hprogram : (s.workers w).program = op :: rest) (heffect : Performs g s w op e)
    (x : ℕ × Store) (hne : ((s.apply w rest e).locals x.1).stored x.2 ≠ []) :
    0 < clearing (s.apply w rest e) x := by
  have hmem : op ∈ (s.workers w).program := mem_program hprogram
  have hbefore : 0 < clearing s x := by
    rcases locals_apply s w rest e x.1 with ⟨y, hchange, heq⟩ | heq
    · rw [heq] at hne
      rcases heffect.stored hchange x.2 with hsame | hempty | hfills
      · rw [hsame] at hne
        exact hstores x hne
      · exact absurd hempty hne
      · exact h.clearing_of_fills hrunning hmem hfills
    · rw [heq] at hne
      exact hstores x hne
  have htokens := h.tokens_apply hrunning hcall hprogram heffect (marked Op.clears x)
    (marked Command.clears x)
  have hnext := heffect.clears x fun t' l hop => by
    subst hop
    obtain ⟨c, hc, rfl, rfl⟩ := h.running_fits hrunning hmem
    exact (h.before_terminal_of_shuffleBarrier hc).1
  rcases hnext with hle | ⟨y, hchange, hempty⟩ | ⟨l, rfl, hflag⟩
  · unfold clearing at hbefore ⊢
    omega
  · have heq : (s.apply w rest e).locals x.1 = y := by
      simp [State.apply, hchange]
    rw [heq] at hne
    exact absurd hempty hne
  · rw [initialized_of_globalFinalize hwaits hrun hrunning hmem] at hflag
    cases hflag

theorem clearing_of_stored (hwaits : Waits g) (hrun : Run g lm s) (x : ℕ × Store)
    (hne : (s.locals x.1).stored x.2 ≠ []) : 0 < clearing s x := by
  refine @run_induction n g lm s hwaits
    (fun s => ∀ x : ℕ × Store, (s.locals x.1).stored x.2 ≠ [] → 0 < clearing s x)
    ?_ ?_ ?_ hrun x hne
  · rintro draws ⟨l, store⟩ hne'
    refine absurd ?_ hne'
    simp only [State.start]
    cases (g.kindOf l).getD .gather <;> cases store <;> simp [Local.create, Local.stored]
  · intro s w t op rest e hrun h hstores hrunning hcall hprogram heffect x
    exact h.clearing_apply hwaits hrun hstores hrunning hcall hprogram heffect x
  · intro s s' _ hstores hbetween x hne'
    have hsame : clearing s' x = clearing s x := hbetween.tokens _ _ fun _ _ => rfl
    rw [hbetween.locals] at hne'
    rw [hsame]
    exact hstores x hne'

/-- A finished run has emptied the three kinds of container. -/
theorem stored_of_finished (hwaits : Waits g) (hrun : Run g lm s)
    (hfinished : s.system.scheduler.isFinished = true) (l : ℕ) (store : Store) :
    (s.locals l).stored store = [] := by
  by_contra hne
  have hpos := clearing_of_stored hwaits hrun (l, store) hne
  rw [clearing, tokens_of_finished hwaits hrun hfinished] at hpos
  exact Nat.lt_irrefl 0 hpos

end Stores

end M3bp.Engine
