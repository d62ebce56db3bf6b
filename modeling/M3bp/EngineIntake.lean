import M3bp.EngineContents

/-!
What a shuffle and a gather take in. Deliveries and commands are traced to the operations that
make them. A shuffle hands its sorts all the records that it has taken in, since its barrier
waits for everything that it partitions, and a gather takes its inputs in at once.
-/
namespace M3bp.Engine

open SchedulerCalls Transition

variable {n : ℕ} {R : Type}

/-- The operations that are followed by a delivery of object `o` of partition `p` to port `x`. -/
inductive Delivers (g : LogicalGraph) (s : State n) : Op → PortKey → ℕ → Object → Prop
  | flush {l port : ℕ} {callback : Callback} {x : PortKey} {o : Object}
      (hport : port < outputPortCount g l) (hx : x ∈ g.successorsOf (l, port)) :
      Delivers g s (.inCallback l callback) x 0 o
  | sortRecords {l p : ℕ} {x : PortKey} (hx : x ∈ g.successorsOf (l, 0)) :
      Delivers g s (.sortRecords l p) x p s.nextObject
  | runGather {l : ℕ} {inputs : List Object} {x : PortKey} (hx : x ∈ g.successorsOf (l, 0)) :
      Delivers g s (.runGather l inputs) x 0 s.nextObject
  | sortValues {l p : ℕ} {x : PortKey} (hx : x ∈ g.successorsOf (l, 0)) :
      Delivers g s (.sortValues l p) x p s.nextObject

/-- The operations that are followed by the creation of a task. -/
inductive Spawns (g : LogicalGraph) (s : State n) : Op → Command → Prop
  | inputRun (l i : ℕ) : Spawns g s (.afterGlobalInitialize l) (.inputRun l i)
  | finalizer (l : ℕ) (worker : WorkerId) :
      Spawns g s (.createFinalizer l worker) (.threadLocalFinalize l worker)
  | oneToOneRun (x : PortKey) (p : ℕ) (o : Object) :
      Spawns g s (.deliver x p o) (.oneToOneRun x.1 o x.2)
  | shufflePartition (x : PortKey) (p : ℕ) (o : Object) :
      Spawns g s (.deliver x p o) (.shufflePartition x.1 o)
  | valueSort {x : PortKey} {comparator : ValueComparator}
      (hkind : g.kindOf x.1 = some (.valueSort comparator)) (p : ℕ) (o : Object) :
      Spawns g s (.deliver x p o) (.valueSort x.1 o p)
  | shuffleSort (l p : ℕ) :
      Spawns g s (.createSortTask l p) (.shuffleSort l p (s.locals l).partitionedBuffers)
  | scatterGatherRun (l p : ℕ) :
      Spawns g s (.createPartitionRun l p)
        (.scatterGatherRun l (((s.locals l).partitionedPool[p]?).getD []) p)

/-- The operations that neither pass on a fragment nor make a task. -/
def Op.IsPlain : Op → Prop
  | call _ _ [] | inCallback _ _ | markGlobalInitialized _ | afterGlobalInitialize _
  | markThreadLocalInitialized _ | clearBroadcastInputs _ | clearInputs _ | countDown _ _
  | createPartitionRun _ _ | link _ _ _ | commit _ => True
  | _ => False

/-- What an operation leads to. -/
inductive Leads (g : LogicalGraph) (s : State n) (op : Op) : Op → Prop
  | body {t : TaskId} {c : Command} {op' : Op} (hop : op = .prepare t c)
      (hbody : op' ∈ body g s t c) : Leads g s op op'
  | deliver {x : PortKey} {p : ℕ} {o : Object} (hdelivers : Delivers g s op x p o) :
      Leads g s op (.deliver x p o)
  | spawn {c : Command} (hspawns : Spawns g s op c) : Leads g s op (.spawn c)
  | plain {op' : Op} (hplain : op'.IsPlain) : Leads g s op op'

/-- The command has been created, or its creation is to come next. -/
def Made (s : State n) (c : Command) : Prop :=
  c ∈ s.commands ∨ ∃ w, .spawn c ∈ (s.workers w).program

/-- The records that are consumed at a port. -/
def Note.takes (content : Object → Multiset R) (x : PortKey) : Note → Multiset R
  | consumed y o => if y = x then content o else 0
  | _ => 0

def State.takenIn (content : Object → Multiset R) (s : State n) (x : PortKey) : Multiset R :=
  (s.notes.map (Note.takes content x)).sum

/-- The records that an operation consumes. -/
def Op.takes (content : Object → Multiset R) (x : PortKey) : Op → Multiset R
  | call _ _ inputs => (inputs.map fun (y, o) => if y = x then content o else 0).sum
  | partitionFragment l o => if (l, 0) = x then content o else 0
  | runGather l inputs => if (l, 0) = x then contents content inputs else 0
  | _ => 0

section Operations

variable {g : LogicalGraph} {s : State n} {w : Fin n} {op : Op} {rest : List Op} {e : Effect}

theorem Performs.leads (h : Performs g s w op e) {op' : Op} (hmem : op' ∈ e.next) :
    Leads g s op op' := by
  cases h with
  | step op choice hoption =>
    cases op with
    | prepare t c => exact .body rfl hmem
    | deliver x p o =>
      simp only [effect, receiveFragment, receiveProcessFragment] at hmem
      split at hmem
      case h_2 =>
        split at hmem
        · cases hmem
        · rw [List.mem_singleton.mp hmem]
          exact .spawn (.oneToOneRun x p o)
      case h_3 =>
        split at hmem
        · cases hmem
        · rw [List.mem_singleton.mp hmem]
          exact .plain trivial
      case h_4 =>
        rw [List.mem_singleton.mp hmem]
        exact .spawn (.shufflePartition x p o)
      case h_6 hkind =>
        rw [List.mem_singleton.mp hmem]
        exact .spawn (.valueSort hkind p o)
      all_goals
        (try split at hmem) <;> cases hmem
    | afterGlobalInitialize l =>
      simp only [effect] at hmem
      split at hmem
      · obtain ⟨i, -, rfl⟩ := List.mem_map.mp hmem
        exact .spawn (.inputRun l i)
      · cases hmem
    | createFinalizer l worker =>
      simp only [effect] at hmem
      split at hmem
      · rw [List.mem_singleton.mp hmem]
        exact .spawn (.finalizer l worker)
      · cases hmem
    | createSortTask l p =>
      rw [List.mem_singleton.mp hmem]
      exact .spawn (.shuffleSort l p)
    | createPartitionRun l p =>
      rw [List.mem_singleton.mp hmem]
      exact .spawn (.scatterGatherRun l p)
    | sortRecords l p =>
      obtain ⟨x, hx, rfl⟩ := List.mem_map.mp hmem
      exact .deliver (.sortRecords hx)
    | sortValues l p =>
      obtain ⟨x, hx, rfl⟩ := List.mem_map.mp hmem
      exact .deliver (.sortValues hx)
    | runGather l inputs =>
      rcases List.mem_append.mp hmem with hmem | hmem
      · obtain ⟨x, hx, rfl⟩ := List.mem_map.mp hmem
        exact .deliver (.runGather hx)
      · rw [List.mem_singleton.mp hmem]
        exact .plain trivial
    | link t c deps =>
      cases deps with
      | cons d deps =>
        rw [List.mem_singleton.mp hmem]
        exact .plain trivial
      | nil =>
        simp only [effect, commitTask] at hmem
        split at hmem
        · obtain ⟨t', -, rfl⟩ := List.mem_map.mp hmem
          exact .plain trivial
        · rw [List.mem_singleton.mp hmem]
          exact .plain trivial
    | notifyCompletion l t =>
      obtain ⟨t', -, rfl⟩ := List.mem_map.mp hmem
      exact .plain trivial
    | globalInitialize l | globalFinalize l | threadLocalInitialize l | threadLocalFinalize l =>
      simp only [effect] at hmem
      split at hmem <;> simp only [List.mem_cons, List.not_mem_nil, or_false] at hmem
      rcases hmem with rfl | rfl | rfl <;> exact .plain trivial
    | countDown l p =>
      simp only [effect] at hmem
      split at hmem
      · rw [List.mem_singleton.mp hmem]
        exact .plain trivial
      · cases hmem
    | call l callback inputs | spawn c =>
      rw [List.mem_singleton.mp hmem]
      exact .plain trivial
    | _ => cases hmem
  | flush l callback port recordCount o hport hbuffer =>
    rcases List.mem_append.mp hmem with hmem | hmem
    · split at hmem
      · obtain ⟨x, hx, rfl⟩ := List.mem_map.mp hmem
        exact .deliver (.flush hport hx)
      · cases hmem
    · rw [List.mem_singleton.mp hmem]
      exact .plain trivial
  | _ =>
    rw [List.mem_singleton.mp hmem]
    exact .plain trivial

/-- The body of a command delivers nothing and creates no task. -/
theorem body_direct (g : LogicalGraph) (s : State n) (t : TaskId) (c : Command) :
    ∀ op ∈ body g s t c, (∀ x p o, op ≠ .deliver x p o) ∧ ∀ c', op ≠ .spawn c' := by
  cases c with
  | shuffleBarrier l =>
    simp only [body]
    split <;> simp +contextual [or_imp]
  | _ => simp +contextual [body]

theorem Performs.delivers (h : Performs g s w op e) {x : PortKey} {p : ℕ} {o : Object}
    (hmem : .deliver x p o ∈ e.next) : Delivers g s op x p o := by
  cases h.leads hmem with
  | body hop hbody => exact absurd rfl ((body_direct g s _ _ _ hbody).1 x p o)
  | deliver hdelivers => exact hdelivers
  | plain hplain => cases hplain

theorem Performs.spawns (h : Performs g s w op e) {c : Command} (hmem : .spawn c ∈ e.next) :
    Spawns g s op c := by
  cases h.leads hmem with
  | body hop hbody => exact absurd rfl ((body_direct g s _ _ _ hbody).2 c)
  | spawn hspawns => exact hspawns
  | plain hplain => cases hplain

theorem Performs.takes (h : Performs g s w op e) (content : Object → Multiset R) (x : PortKey) :
    (e.notes.map (Note.takes content x)).sum = op.takes content x := by
  cases h with
  | step op choice hoption =>
    cases op with
    | deliver x' p o =>
      simp only [effect, receiveFragment, receiveProcessFragment]
      split <;> (try split) <;> rfl
    | link t c deps =>
      cases deps with
      | cons d deps => rfl
      | nil =>
        simp only [effect, commitTask]
        split <;> rfl
    | call l callback inputs =>
      simp [effect, Op.takes, Note.takes, Function.comp_def]
    | partitionFragment l o => simp [effect, Op.takes, Note.takes]
    | runGather l inputs =>
      by_cases hx : (l, 0) = x
      · simp [effect, Op.takes, Note.takes, Function.comp_def, hx, contents]
      · simp [effect, Op.takes, Note.takes, Function.comp_def, hx]
    | _ =>
      simp only [effect]
      (try split) <;> rfl
  | flush l callback port recordCount o hport hbuffer =>
    by_cases hrecords : 0 < recordCount
    · simp [hrecords, Op.takes, Note.takes]
    · simp [hrecords, Op.takes]
  | _ => rfl

theorem takenIn_apply (h : Performs g s w op e) (rest : List Op) (content : Object → Multiset R)
    (x : PortKey) :
    (s.apply w rest e).takenIn content x = op.takes content x + s.takenIn content x := by
  have hnotes : (s.apply w rest e).notes = e.notes ++ s.notes := rfl
  rw [State.takenIn, hnotes, List.map_append, List.sum_append, h.takes content x]
  rfl

theorem Performs.created (h : Performs g s w op e) {c : Command} (hc : c ∈ e.action.created) :
    op = .spawn c := by
  rcases h.action with hnone | ⟨c', choice, rfl, -, rfl⟩ | ⟨t, c', d, deps, rfl, rfl⟩ | ⟨t, rfl, rfl⟩
  · rw [hnone] at hc
    cases hc
  · rw [List.mem_singleton.mp hc]
  · cases hc
  · cases hc

theorem mem_program_apply {w' : Fin n} {op' : Op} (hprogram : (s.workers w).program = op :: rest)
    (hop : op' ∈ ((s.apply w rest e).workers w').program) :
    op' ∈ (s.workers w').program ∨ op' ∈ e.next := by
  by_cases hw : w' = w
  · subst hw
    simp only [State.apply, Function.update_self, List.mem_append] at hop
    rcases hop with hop | hop
    · exact Or.inr hop
    · left
      rw [hprogram]
      exact List.mem_cons_of_mem _ hop
  · simp only [State.apply, Function.update_of_ne hw] at hop
    exact Or.inl hop

theorem made_apply (h : Performs g s w op e) (hprogram : (s.workers w).program = op :: rest)
    {c : Command} (hc : Made (s.apply w rest e) c) : Made s c ∨ Spawns g s op c := by
  rcases hc with hc | ⟨w', hop⟩
  · rcases List.mem_append.mp hc with hc | hc
    · exact Or.inl (Or.inl hc)
    · obtain rfl := h.created hc
      exact Or.inl (Or.inr ⟨w, mem_program hprogram⟩)
  · rcases mem_program_apply hprogram hop with hop | hop
    · exact Or.inl (Or.inr ⟨w', hop⟩)
    · exact Or.inr (h.spawns hop)

/-- Only a task that is taken brings an operation along. -/
theorem Between.mem_program {s' : State n} (h : Between s s') (hop : op ∈ (s'.workers w).program)
    (hno : ∀ t c, op ≠ .prepare t c) : ∃ w', op ∈ (s.workers w').program := by
  let f : Op → ℕ := fun op' => if op' = op then 1 else 0
  have htokens := h.tokens f (fun _ => 0) fun t c => if_neg (hno t c).symm
  have hone : f op = 1 := if_pos rfl
  have hpos : 0 < s.tokens f fun _ => 0 := by
    rw [← htokens]
    exact Nat.add_pos_left (inPrograms_pos hop (by omega)) _
  rcases exists_of_tokens_pos hpos with ⟨w', op', hop', hf⟩ | ⟨t, c, -, -, hzero⟩
  · have heq : op' = op := by
      by_contra hne
      simp [f, hne] at hf
    exact ⟨w', heq ▸ hop'⟩
  · cases hzero

theorem Between.made {s' : State n} (h : Between s s') {c : Command} (hc : Made s' c) : Made s c := by
  rcases hc with hc | ⟨w, hop⟩
  · exact Or.inl (h.commands ▸ hc)
  · exact Or.inr (h.mem_program hop fun _ _ => Op.noConfusion)

end Operations

/-! Where a callback's inputs are consumed. -/

/-- The inputs of a callback come in at the ports of a process. -/
def Addressed (c : Command) : Op → Prop
  | .call _ _ inputs => ∀ input ∈ inputs, input.1.1 = c.owner ∧ c.isProcessCommand = true
  | _ => True

section Addresses

variable {g : LogicalGraph} {lm : LocalityManager} {s : State n} {w : Fin n} {t : TaskId}
  {c : Command} {op : Op} {rest : List Op} {e : Effect}

theorem addressed_body (g : LogicalGraph) (s : State n) (t : TaskId) (c : Command) :
    ∀ op ∈ body g s t c, Addressed c op := by
  cases c with
  | shuffleBarrier l =>
    simp only [body]
    split <;> simp +contextual [or_imp, Addressed]
  | oneToOneRun l o port => simp +contextual [body, Addressed, Command.owner, Command.isProcessCommand]
  | scatterGatherRun l inputs p =>
    simp only [body, List.forall_mem_cons]
    refine ⟨trivial, fun input hinput => ?_, trivial, trivial, List.forall_mem_nil _⟩
    obtain ⟨⟨o?, port⟩, -, hinput⟩ := List.mem_filterMap.mp hinput
    obtain ⟨o, -, rfl⟩ := Option.map_eq_some_iff.mp hinput
    exact ⟨rfl, rfl⟩
  | _ => simp +contextual [body, Addressed]

theorem Performs.addressed (h : Performs g s w op e) {log : List Event} {commands : List Command}
    {ids : ℕ → Ids} (hfits : Fits g log commands ids t c op) :
    ∀ op' ∈ e.next, Addressed c op' := by
  intro op' hop'
  cases h.leads hop' with
  | @body t' c' _ hop hbody =>
    subst hop
    obtain ⟨-, rfl⟩ := hfits
    exact addressed_body g s t' c' op' hbody
  | deliver hdelivers => trivial
  | spawn hspawns => trivial
  | plain hplain =>
    cases op' with
    | call l callback inputs =>
      cases inputs with
      | nil => exact List.forall_mem_nil _
      | cons input inputs => cases hplain
    | _ => trivial

theorem run_addressed (hwaits : Waits g) (hrun : Run g lm s)
    (hrunning : (s.workers w).activity = .running t) (hc : s.commands[t]? = some c)
    (hop : op ∈ (s.workers w).program) : Addressed c op := by
  refine @run_operations n g lm s hwaits Addressed (fun _ _ => trivial) ?_ hrun w t c hrunning hc
    op hop
  intro s w t c op rest e hinv hrunning hc hprogram heffect _
  exact heffect.addressed (hinv.fits_of_mem hrunning hc (mem_program hprogram))

theorem Static.isIntermediate_of_isProcessCommand {log : List Event} {commands : List Command}
    {ids : ℕ → Ids} (h : Static g log commands ids) (hc : commands[t]? = some c)
    (hprocess : c.isProcessCommand = true) {kind : TaskKind} (hkind : g.kindOf c.owner = some kind) :
    kind.isIntermediate = false := by
  rcases h.kinds t c hc with ⟨kind', place, -, hcommand, -⟩ | ⟨kind', hkind', hcreated⟩
  · rw [hcommand] at hprocess
    cases kind' <;> cases place <;> cases hprocess
  · rw [hkind, Option.some.injEq] at hkind'
    subst hkind'
    cases c <;> cases kind <;> first
      | rfl
      | (cases hprocess; done)
      | cases hcreated

theorem Inv.kind_of_runGather (h : Inv g lm s) (hrunning : (s.workers w).activity = .running t)
    {l : ℕ} {inputs : List Object} (hop : .runGather l inputs ∈ (s.workers w).program) :
    g.kindOf l = some .gather := by
  obtain ⟨c, hc, hfit⟩ := h.running_fits hrunning hop
  obtain rfl : c = .gather l := hfit
  obtain ⟨kind, place, hkind, hcommand, -⟩ := h.static.fixed hc fun kind => by cases kind <;> rfl
  rw [kind_of_gather hcommand] at hkind
  exact hkind

/-- What a shuffle or a gather takes in is not the input of a callback. -/
theorem takes_eq_zero (content : Object → Multiset R) (hwaits : Waits g) (hrun : Run g lm s)
    (hrunning : (s.workers w).activity = .running t) (hop : op ∈ (s.workers w).program)
    {l : ℕ} {kind : TaskKind} (hkind : g.kindOf l = some kind) (hrelay : kind.isIntermediate = true)
    (hpartition : ∀ o, op ≠ .partitionFragment l o) (hgather : ∀ inputs, op ≠ .runGather l inputs) :
    op.takes content (l, 0) = 0 := by
  have hinv := run_invariant hwaits hrun
  cases op with
  | call l' callback inputs =>
    obtain ⟨-, -, -, c, hc, -⟩ := hinv.running w t hrunning
    have haddressed := run_addressed hwaits hrun hrunning hc hop
    refine List.sum_eq_zero fun m hm => ?_
    obtain ⟨⟨y, o⟩, hinput, rfl⟩ := List.mem_map.mp hm
    refine if_neg ?_
    rintro rfl
    obtain ⟨howner, hprocess⟩ := haddressed _ hinput
    have howner : l = c.owner := howner
    rw [howner] at hkind
    rw [hinv.static.isIntermediate_of_isProcessCommand hc hprocess hkind] at hrelay
    cases hrelay
  | partitionFragment l' o =>
    refine if_neg fun heq => hpartition o ?_
    rw [(Prod.mk.inj heq).1]
  | runGather l' inputs =>
    refine if_neg fun heq => hgather inputs ?_
    rw [(Prod.mk.inj heq).1]
  | _ => rfl

end Addresses

/-! The barrier of a shuffle empties its buffers once, after it has made the sorts. -/

/-- What follows the operations that make the sorts of a shuffle. -/
def SortsFirst : List Op → Prop
  | [] => True
  | op :: rest => (∀ l p, op = .createSortTask l p → .clearPartitionedBuffers l ∈ rest) ∧ SortsFirst rest

section Shuffles

variable {g : LogicalGraph} {lm : LocalityManager} {s s' : State n} {w : Fin n} {t : TaskId}
  {c : Command} {op : Op} {rest : List Op} {e : Effect} {u : ℕ}

theorem clearing_of_sortsFirst {program : List Op} {l p : ℕ} (h : SortsFirst program)
    (hop : .createSortTask l p ∈ program) : .clearPartitionedBuffers l ∈ program := by
  induction program with
  | nil => cases hop
  | cons op rest ih =>
    rcases List.mem_cons.mp hop with rfl | hop
    · exact List.mem_cons_of_mem _ (h.1 l p rfl)
    · exact List.mem_cons_of_mem _ (ih h.2 hop)

theorem sortsFirst_append {next : List Op} (h : SortsFirst rest)
    (hnext : ∀ op ∈ next, ∀ l p, op ≠ .createSortTask l p) : SortsFirst (next ++ rest) := by
  induction next with
  | nil => exact h
  | cons op next ih =>
    refine ⟨fun l p hop => absurd hop (hnext op List.mem_cons_self l p), ih fun op' hop' => ?_⟩
    exact hnext op' (List.mem_cons_of_mem _ hop')

theorem sortsFirst_body (g : LogicalGraph) (s : State n) (t : TaskId) (c : Command) (h : SortsFirst rest) :
    SortsFirst (body g s t c ++ rest) := by
  have hsorts : ∀ (l : ℕ) (ps : List ℕ),
      SortsFirst (ps.map (.createSortTask l) ++ .clearPartitionedBuffers l :: rest) := by
    intro l ps
    induction ps with
    | nil => exact ⟨fun l p hop => Op.noConfusion hop, h⟩
    | cons p ps ih =>
      refine ⟨fun l' p' hop => ?_, ih⟩
      cases hop
      simp
  cases c with
  | shuffleBarrier l =>
    simp only [body]
    split
    · rw [List.append_assoc]
      exact hsorts l _
    · exact h
  | _ => exact sortsFirst_append h (by simp +contextual [body])

theorem Performs.sortsFirst (h : Performs g s w op e) (hrest : SortsFirst rest) :
    SortsFirst (e.next ++ rest) := by
  by_cases hprepare : ∃ t c, op = .prepare t c
  · obtain ⟨t, c, rfl⟩ := hprepare
    cases h
    exact sortsFirst_body g s t c hrest
  · refine sortsFirst_append hrest fun op' hop' l p heq => ?_
    subst heq
    cases h.leads hop' with
    | body hop hbody => exact hprepare ⟨_, _, hop⟩
    | plain hplain => cases hplain

theorem run_sortsFirst (hwaits : Waits g) (hrun : Run g lm s) : Programs (fun _ => SortsFirst) s := by
  induction hrun with
  | start hinit =>
    obtain ⟨draws, rfl⟩ := hinit
    exact programs_start _ g _
  | @next s s' hrun hstep ih =>
    refine step_programs (run_invariant hwaits hrun) ?_ ?_ ih hstep
    · exact fun t c => ⟨fun l p hop => Op.noConfusion hop, trivial⟩
    · intro w t c op rest e _ _ _ heffect hsorts
      exact heffect.sortsFirst hsorts.2

/-- No operation adds to what is to empty a container. -/
theorem Performs.clears_le (h : Performs g s w op e) (x : ℕ × Store) :
    (e.next.map (marked Op.clears x)).sum ≤ marked Op.clears x op := by
  have hcommit : ∀ producer p o,
      ((commitFragment g producer p o).map (marked Op.clears x)).sum = 0 := by
    intro producer p o
    apply sum_marked_eq_zero
    intro op' hop'
    obtain ⟨y, -, rfl⟩ := List.mem_map.mp hop'
    simp [Op.clears]
  cases h with
  | step op choice hoption =>
    cases op with
    | prepare t c =>
      cases c with
      | shuffleBarrier l =>
        simp only [effect, body]
        split <;> simp [marked, Op.clears, Command.clears, Function.comp_def]
      | _ => simp [effect, body, marked, Op.clears, Command.clears, Function.comp_def]
    | deliver x' p o =>
      simp only [effect, receiveFragment, receiveProcessFragment]
      split <;> (try split) <;> simp [marked, Op.clears]
    | sortRecords l p => simp [effect, hcommit]
    | sortValues l p => simp [effect, hcommit]
    | runGather l inputs => simp [effect, hcommit, marked, Op.clears]
    | link t c deps =>
      cases deps with
      | cons d deps => simp [effect, marked, Op.clears]
      | nil =>
        simp only [effect, commitTask]
        split <;> simp [marked, Op.clears, Function.comp_def]
    | _ =>
      simp only [effect]
      (try split) <;> simp [marked, Op.clears, Function.comp_def]
  | flush l callback port recordCount o hport hbuffer =>
    by_cases hrecords : 0 < recordCount
    · simp [hrecords, hcommit, marked, Op.clears]
    · simp [hrecords, marked, Op.clears]
  | _ => simp [marked, Op.clears]

theorem clearing_start (hwaits : Waits g) (draws : TaskId → WorkerId) (u : ℕ) :
    clearing (State.start g (Plan.setUp g lm draws) : State n) (u, .partitionedBuffers) ≤ 1 := by
  have h : Inv g lm (State.start g (Plan.setUp g lm draws) : State n) :=
    start_inv hwaits.endpoints draws
  rw [clearing, tokens_start]
  apply inCommands_le_of_unique ((State.start g (Plan.setUp g lm draws) : State n).ids u).barrier
  intro t c hc hpos
  have hkey := key_of_marked_pos hpos
  cases c with
  | shuffleBarrier l =>
    obtain rfl : l = u := (Prod.mk.inj (Option.some.inj hkey)).1
    obtain ⟨kind, place, -, hcommand, hid⟩ := h.static.fixed hc fun kind => by cases kind <;> rfl
    obtain ⟨-, rfl⟩ := place_of_shuffleBarrier hcommand
    exact ⟨hid, marked_le_one⟩
  | _ => cases hkey

theorem Inv.clearing_le (h : Inv g lm s) (hrunning : (s.workers w).activity = .running t)
    (hcall : s.system.calls (some w) = .idle) (hprogram : (s.workers w).program = op :: rest)
    (heffect : Performs g s w op e) (u : ℕ) :
    clearing (s.apply w rest e) (u, .partitionedBuffers) +
      marked Op.clears (u, .partitionedBuffers) op ≤
        clearing s (u, .partitionedBuffers) +
          (e.next.map (marked Op.clears (u, .partitionedBuffers))).sum := by
  have htokens := h.tokens_apply hrunning hcall hprogram heffect
    (marked Op.clears (u, .partitionedBuffers)) (marked Command.clears (u, .partitionedBuffers))
  have hcreated : (e.action.created.map (marked Command.clears (u, .partitionedBuffers))).sum = 0 :=
    sum_marked_eq_zero fun c hc => by
      obtain ⟨kind, -, hdynamic⟩ := h.dynamic_created hrunning hprogram heffect c hc
      cases c <;> first
        | cases hdynamic
        | simp [Command.clears]
  unfold clearing
  omega

theorem run_clearing (hwaits : Waits g) (hrun : Run g lm s) (u : ℕ) :
    clearing s (u, .partitionedBuffers) ≤ 1 := by
  refine @run_induction n g lm s hwaits (fun s => clearing s (u, .partitionedBuffers) ≤ 1)
    (fun draws => clearing_start hwaits draws u) ?_ ?_ hrun
  · intro s w t op rest e _ h honce hrunning hcall hprogram heffect
    have hle := h.clearing_le hrunning hcall hprogram heffect u
    have hnext := heffect.clears_le (u, .partitionedBuffers)
    omega
  · intro s s' _ honce hbetween
    have hsame : clearing s' (u, .partitionedBuffers) = clearing s (u, .partitionedBuffers) :=
      hbetween.tokens _ _ fun _ _ => rfl
    rw [hsame]
    exact honce

/-- How the buffers of a shuffle change. -/
theorem Performs.partitionedBuffers (h : Performs g s w op e) (rest : List Op) (u : ℕ) :
    ((s.apply w rest e).locals u).partitionedBuffers = (s.locals u).partitionedBuffers ∨
      (∃ o, op = .partitionFragment u o ∧ ((s.apply w rest e).locals u).partitionedBuffers =
        (s.locals u).partitionedBuffers ++ [s.nextObject]) ∨
      op = .clearPartitionedBuffers u := by
  rcases locals_apply s w rest e u with ⟨y, hchange, heq⟩ | heq
  · rw [heq]
    cases h with
    | step op choice hoption =>
      cases op with
      | deliver x p o =>
        left
        simp only [effect, receiveFragment, receiveProcessFragment] at hchange
        split at hchange <;> (try split at hchange) <;> cases hchange <;> rfl
      | partitionFragment l o =>
        cases hchange
        exact Or.inr (Or.inl ⟨o, rfl, rfl⟩)
      | clearPartitionedBuffers l =>
        cases hchange
        exact Or.inr (Or.inr rfl)
      | link t c deps =>
        left
        cases deps with
        | cons d deps => cases hchange
        | nil =>
          simp only [effect, commitTask] at hchange
          split at hchange <;> cases hchange
          rfl
      | _ =>
        left
        simp only [effect] at hchange
        first
          | (cases hchange <;> rfl)
          | (split at hchange <;> cases hchange <;> rfl)
    | setTaskCount l count hinput =>
      cases hchange
      exact Or.inl rfl
    | _ => cases hchange
  · exact Or.inl (by rw [heq])

/-- What a shuffle has taken in is in its buffers until the barrier has handed them to the
sorts. -/
structure Partitioned (content : Object → Multiset R) (s : State n) (u : ℕ) : Prop where
  buffers : 0 < clearing s (u, .partitionedBuffers) →
    contents content (s.locals u).partitionedBuffers = s.takenIn content (u, 0)
  sources : ∀ p sources, Made s (.shuffleSort u p sources) →
    contents content sources = s.takenIn content (u, 0)
  released : ∀ p sources, Made s (.shuffleSort u p sources) →
    .taken (s.ids u).barrier ∈ s.system.log

variable {content : Object → Multiset R} {author : Object → Command} {count : ℕ}

theorem partitioned_start (draws : TaskId → WorkerId) (u : ℕ) :
    Partitioned content (State.start g (Plan.setUp g lm draws) : State n) u := by
  have hnone : ∀ p sources,
      ¬ Made (State.start g (Plan.setUp g lm draws) : State n) (.shuffleSort u p sources) := by
    rintro p sources (hc | ⟨w, hop⟩)
    · obtain ⟨kind, l, place, hcommand⟩ := commands_setUp g lm draws _ hc
      cases kind <;> cases place <;> cases hcommand
    · cases hop
  refine ⟨fun _ => ?_, fun p sources h => absurd h (hnone p sources),
    fun p sources h => absurd h (hnone p sources)⟩
  simp only [State.start]
  cases (g.kindOf u).getD .gather <;> rfl

/-- A shuffle partitions nothing any more when its barrier has been taken. -/
theorem Inv.untaken_of_partitionFragment (h : Inv g lm s)
    (hrunning : (s.workers w).activity = .running t) {o : Object}
    (hop : .partitionFragment u o ∈ (s.workers w).program) :
    .taken (s.ids u).barrier ∉ s.system.log := by
  obtain ⟨c, hc, hfit⟩ := h.running_fits hrunning hop
  obtain rfl : c = .shufflePartition u o := hfit
  have hbefore : Before s.system.log t (s.ids u).barrier :=
    .single (h.linked_of_called hc (h.running_called hrunning) .barrier rfl)
  exact fun htaken => h.unreleased hrunning hbefore ((run_inv h.run).log.taken_released _ htaken)

/-- The barrier of a shuffle has been taken when it makes the sorts. -/
theorem Inv.taken_of_createSortTask (h : Inv g lm s) {u p : ℕ}
    (hrunning : (s.workers w).activity = .running t)
    (hop : .createSortTask u p ∈ (s.workers w).program) :
    .taken (s.ids u).barrier ∈ s.system.log := by
  obtain ⟨c, hc, hfit⟩ := h.running_fits hrunning hop
  obtain rfl : c = .shuffleBarrier u := hfit
  obtain ⟨kind, place, -, hcommand, hid⟩ := h.static.fixed hc fun kind => by cases kind <;> rfl
  obtain ⟨-, rfl⟩ := place_of_shuffleBarrier hcommand
  have hbarrier : t = (s.ids u).barrier := hid
  rw [← hbarrier]
  exact (h.running w t hrunning).1

theorem Partitioned.apply (hu : Partitioned content s u) (hwaits : Waits g) (hrun : Run g lm s)
    (hkind : g.kindOf u = some (.shuffle count)) (hrunning : (s.workers w).activity = .running t)
    (hcall : s.system.calls (some w) = .idle) (hprogram : (s.workers w).program = op :: rest)
    (heffect : Performs g s w op e) (hc : s.commands[t]? = some c)
    (hfills : Fills content author s c op) : Partitioned content (s.apply w rest e) u := by
  have h := run_invariant hwaits hrun
  have hmem : op ∈ (s.workers w).program := mem_program hprogram
  have htaken : ∀ {t}, .taken t ∈ s.system.log → .taken t ∈ (s.apply w rest e).system.log := by
    intro t ht
    have hlog : (s.apply w rest e).system.log = e.action.events s.system ++ s.system.log :=
      (performed h.run hcall (h.action_valid hrunning hprogram heffect)).log
    rw [hlog]
    exact List.mem_append_right _ ht
  have hcleared := h.clearing_le hrunning hcall hprogram heffect u
  have hnext := heffect.clears_le (u, .partitionedBuffers)
  by_cases hpartition : ∃ o, op = .partitionFragment u o
  · obtain ⟨o, rfl⟩ := hpartition
    have huntaken := h.untaken_of_partitionFragment hrunning hmem
    have hnone : ∀ p sources, ¬ Made (s.apply w rest e) (.shuffleSort u p sources) := by
      intro p sources hmade
      rcases made_apply heffect hprogram hmade with hmade | hspawns
      · exact huntaken (hu.released p sources hmade)
      · cases hspawns
    refine ⟨fun _ => ?_, fun p sources hmade => absurd hmade (hnone p sources),
      fun p sources hmade => absurd hmade (hnone p sources)⟩
    have hfilling : Op.fills g u (.partitionFragment u o) .partitionedBuffers := rfl
    have hclearing : 0 < clearing s (u, .partitionedBuffers) :=
      h.clearing_of_fills hrunning hmem hfilling
    rw [takenIn_apply heffect, ← hu.buffers hclearing]
    cases heffect
    have hnew : content s.nextObject = content o := hfills.copies _ rfl
    simp [State.apply, effect, Op.takes, hnew, add_comm]
  · push Not at hpartition
    have hsame : (s.apply w rest e).takenIn content (u, 0) = s.takenIn content (u, 0) := by
      rw [takenIn_apply heffect, takes_eq_zero content hwaits hrun hrunning hmem hkind rfl hpartition,
        zero_add]
      rintro inputs rfl
      rw [h.kind_of_runGather hrunning hmem] at hkind
      cases hkind
    -- the barrier has not cleared the buffers when it makes the sorts
    have hmade : ∀ p sources, Made (s.apply w rest e) (.shuffleSort u p sources) →
        Made s (.shuffleSort u p sources) ∨
          sources = (s.locals u).partitionedBuffers ∧ op = .createSortTask u p := by
      intro p sources hmade
      refine (made_apply heffect hprogram hmade).imp_right fun hspawns => ?_
      cases hspawns
      exact ⟨rfl, rfl⟩
    refine ⟨fun hclearing => ?_, fun p sources hsort => ?_, fun p sources hsort => ?_⟩
    · rw [hsame]
      rcases heffect.partitionedBuffers rest u with hkept | ⟨o, rfl, -⟩ | rfl
      · rw [hkept]
        exact hu.buffers (by omega)
      · exact absurd rfl (hpartition o)
      · -- nothing is left to be cleared
        have honce := run_clearing hwaits hrun u
        have hone : marked Op.clears (u, .partitionedBuffers) (.clearPartitionedBuffers u) = 1 :=
          marked_of_eq rfl
        cases heffect
        simp only [effect, List.map_nil, List.sum_nil] at hcleared
        simp only [effect] at hclearing
        omega
    · rw [hsame]
      rcases hmade p sources hsort with hold | ⟨rfl, rfl⟩
      · exact hu.sources p sources hold
      · have hsorts := clearing_of_sortsFirst (run_sortsFirst hwaits hrun w t c hrunning hc) hmem
        have hone : marked Op.clears (u, .partitionedBuffers) (.clearPartitionedBuffers u) = 1 :=
          marked_of_eq rfl
        exact hu.buffers (Nat.add_pos_left (inPrograms_pos hsorts (by omega)) _)
    · apply htaken
      rcases hmade p sources hsort with hold | ⟨rfl, rfl⟩
      · exact hu.released p sources hold
      · exact h.taken_of_createSortTask hrunning hmem

/-- Each sort of a shuffle is given everything that the shuffle takes in. -/
theorem run_partitioned (hwaits : Waits g) (hkind : g.kindOf u = some (.shuffle count))
    (hrun : FilledRun g lm content author s) : Partitioned content s u := by
  refine filled_induction hwaits (P := fun s : State n => Partitioned content s u)
    (fun draws => partitioned_start draws u) ?_ ?_ hrun
  · intro s w t c op rest e hrun _ hu hrunning hcall hprogram heffect hc hfills
    exact hu.apply hwaits hrun hkind hrunning hcall hprogram heffect hc hfills
  · intro s s' _ hu hbetween
    have hsame : clearing s' (u, .partitionedBuffers) = clearing s (u, .partitionedBuffers) :=
      hbetween.tokens _ _ fun _ _ => rfl
    have htakenIn : s'.takenIn content (u, 0) = s.takenIn content (u, 0) := by
      rw [State.takenIn, hbetween.notes]
      rfl
    refine ⟨fun hclearing => ?_, fun p sources hmade => ?_, fun p sources hmade => ?_⟩
    · rw [hbetween.locals, htakenIn]
      exact hu.buffers (hsame ▸ hclearing)
    · rw [htakenIn]
      exact hu.sources p sources (hbetween.made hmade)
    · rw [hbetween.ids]
      exact hbetween.log (hu.released p sources (hbetween.made hmade))

end Shuffles

/-! A gather takes its inputs in once. -/

/-- The gather whose inputs an operation is going to take in. -/
def Op.collects? : Op → Option ℕ
  | prepare _ c => c.gathers
  | runGather l _ => some l
  | _ => none

/-- What is still to come that takes in the inputs of a gather. -/
def collecting (s : State n) (u : ℕ) : ℕ :=
  s.tokens (marked Op.collects? u) (marked Command.gathers u)

section Gathers

variable {g : LogicalGraph} {lm : LocalityManager} {s s' : State n} {w : Fin n} {t : TaskId}
  {c : Command} {op : Op} {rest : List Op} {e : Effect} {u : ℕ} {content : Object → Multiset R}

theorem collects?_body (g : LogicalGraph) (s : State n) (t : TaskId) (c : Command)
    (hc : ∀ l, c ≠ .gather l) : ∀ op ∈ body g s t c, op.collects? = none := by
  cases c with
  | gather l => exact absurd rfl (hc l)
  | shuffleBarrier l =>
    simp only [body]
    split <;> simp +contextual [or_imp, Op.collects?]
  | _ => simp +contextual [body, Op.collects?]

/-- No operation adds to what is to take the inputs in, and the operation that does so is not
followed by another one. -/
theorem Performs.collects?_le (h : Performs g s w op e) (u : ℕ) :
    (e.next.map (marked Op.collects? u)).sum ≤ marked Op.collects? u op ∧
      ∀ inputs, op = .runGather u inputs → (e.next.map (marked Op.collects? u)).sum = 0 := by
  by_cases hprepare : ∃ t l, op = .prepare t (.gather l)
  · obtain ⟨t, l, rfl⟩ := hprepare
    cases h
    exact ⟨by simp [effect, body, marked, Op.collects?, Command.gathers], by simp⟩
  · have hnone : (e.next.map (marked Op.collects? u)).sum = 0 := by
      refine sum_marked_eq_zero fun op' hop' => ?_
      suffices hop : op'.collects? = none by simp [hop]
      cases h.leads hop' with
      | @body t c _ hop hbody =>
        refine collects?_body g s t c ?_ op' hbody
        rintro l rfl
        exact hprepare ⟨t, l, hop⟩
      | deliver hdelivers => rfl
      | spawn hspawns => rfl
      | plain hplain => cases op' <;> first
        | rfl
        | cases hplain
    exact ⟨by omega, fun _ _ => hnone⟩

theorem Inv.collecting_apply (h : Inv g lm s) (hrunning : (s.workers w).activity = .running t)
    (hcall : s.system.calls (some w) = .idle) (hprogram : (s.workers w).program = op :: rest)
    (heffect : Performs g s w op e) (u : ℕ) :
    collecting (s.apply w rest e) u ≤ collecting s u ∧
      ∀ inputs, op = .runGather u inputs → collecting (s.apply w rest e) u + 1 ≤ collecting s u := by
  have htokens := h.tokens_apply hrunning hcall hprogram heffect (marked Op.collects? u)
    (marked Command.gathers u)
  have hcreated : (e.action.created.map (marked Command.gathers u)).sum = 0 :=
    sum_marked_eq_zero fun c hc => by
      obtain ⟨kind, -, hdynamic⟩ := h.dynamic_created hrunning hprogram heffect c hc
      cases c <;> first
        | cases hdynamic
        | simp [Command.gathers]
  obtain ⟨hle, hlast⟩ := heffect.collects?_le u
  unfold collecting
  refine ⟨by omega, fun inputs hop => ?_⟩
  have hnone := hlast inputs hop
  have hone : marked Op.collects? u op = 1 := marked_of_eq (by rw [hop]; rfl)
  omega

theorem collecting_start (hwaits : Waits g) (draws : TaskId → WorkerId) (u : ℕ) :
    collecting (State.start g (Plan.setUp g lm draws) : State n) u ≤ 1 := by
  have hle := @gathering_start n g lm hwaits draws u
  have hsame : collecting (State.start g (Plan.setUp g lm draws) : State n) u =
      gathering (State.start g (Plan.setUp g lm draws) : State n) u := by
    rw [collecting, gathering, tokens_start, tokens_start]
  omega

theorem takes_of_gather (content : Object → Multiset R) (hwaits : Waits g) (hrun : Run g lm s)
    (hkind : g.kindOf u = some .gather) (hrunning : (s.workers w).activity = .running t)
    (hmem : op ∈ (s.workers w).program) (hno : ∀ inputs, op ≠ .runGather u inputs) :
    op.takes content (u, 0) = 0 := by
  have h := run_invariant hwaits hrun
  refine takes_eq_zero content hwaits hrun hrunning hmem hkind rfl ?_ hno
  rintro o rfl
  obtain ⟨c, hc, hfit⟩ := h.running_fits hrunning hmem
  obtain rfl : c = .shufflePartition u o := hfit
  rcases h.static.kinds t _ hc with ⟨kind, place, -, hcommand, -⟩ | ⟨kind, hkind', hcreated⟩
  · cases kind <;> cases place <;> cases hcommand
  · have hgather : g.kindOf u = some kind := hkind'
    rw [hkind, Option.some.injEq] at hgather
    subst hgather
    cases hcreated

/-- Nothing has been taken in while the gather is still to come. -/
structure Collected (content : Object → Multiset R) (s : State n) (u : ℕ) : Prop where
  once : collecting s u ≤ 1
  nothing : 0 < collecting s u → s.takenIn content (u, 0) = 0

theorem Collected.apply (hu : Collected content s u) (hwaits : Waits g) (hrun : Run g lm s)
    (hkind : g.kindOf u = some .gather) (hrunning : (s.workers w).activity = .running t)
    (hcall : s.system.calls (some w) = .idle) (hprogram : (s.workers w).program = op :: rest)
    (heffect : Performs g s w op e) : Collected content (s.apply w rest e) u := by
  have h := run_invariant hwaits hrun
  have hmem : op ∈ (s.workers w).program := mem_program hprogram
  obtain ⟨hle, hlast⟩ := h.collecting_apply hrunning hcall hprogram heffect u
  have honce := hu.once
  refine ⟨by omega, fun hpos => ?_⟩
  rw [takenIn_apply heffect, hu.nothing (by omega), add_zero]
  refine takes_of_gather content hwaits hrun hkind hrunning hmem fun inputs hop => ?_
  have hnone := hlast inputs hop
  omega

theorem run_collected (hwaits : Waits g) (hkind : g.kindOf u = some .gather) (hrun : Run g lm s) :
    Collected content s u := by
  refine run_induction hwaits (P := fun s : State n => Collected content s u) ?_ ?_ ?_ hrun
  · exact fun draws => ⟨collecting_start hwaits draws u, fun _ => rfl⟩
  · intro s w t op rest e hrun _ hu hrunning hcall hprogram heffect
    exact hu.apply hwaits hrun hkind hrunning hcall hprogram heffect
  · intro s s' _ hu hbetween
    have hsame : collecting s' u = collecting s u := hbetween.tokens _ _ fun _ _ => rfl
    refine ⟨by rw [hsame]; exact hu.once, fun hpos => ?_⟩
    rw [State.takenIn, hbetween.notes]
    exact hu.nothing (hsame ▸ hpos)

/-- The object holds everything that the gather behind the port takes in. -/
def Holds (g : LogicalGraph) (content : Object → Multiset R) (s : State n) (x : PortKey)
    (o : Object) : Prop :=
  ∃ u, g.kindOf u = some .gather ∧ x ∈ g.successorsOf (u, 0) ∧ collecting s u = 0 ∧
    content o = s.takenIn content (u, 0)

theorem Holds.apply {x : PortKey} {o : Object} (hx : Holds g content s x o) (hwaits : Waits g)
    (hrun : Run g lm s) (hrunning : (s.workers w).activity = .running t)
    (hcall : s.system.calls (some w) = .idle) (hprogram : (s.workers w).program = op :: rest)
    (heffect : Performs g s w op e) : Holds g content (s.apply w rest e) x o := by
  have h := run_invariant hwaits hrun
  obtain ⟨u, hkind, hsuccessor, hnone, hcontent⟩ := hx
  obtain ⟨hle, hlast⟩ := h.collecting_apply hrunning hcall hprogram heffect u
  refine ⟨u, hkind, hsuccessor, by omega, ?_⟩
  rw [takenIn_apply heffect, hcontent, takes_of_gather content hwaits hrun hkind hrunning
    (mem_program hprogram), zero_add]
  intro inputs hop
  have hone := hlast inputs hop
  omega

theorem Between.holds (h : Between s s') {x : PortKey} {o : Object} (hx : Holds g content s x o) :
    Holds g content s' x o := by
  obtain ⟨u, hkind, hsuccessor, hnone, hcontent⟩ := hx
  have hsame : collecting s' u = collecting s u := h.tokens _ _ fun _ _ => rfl
  refine ⟨u, hkind, hsuccessor, hsame.trans hnone, ?_⟩
  rw [State.takenIn, h.notes]
  exact hcontent

end Gathers

end M3bp.Engine
