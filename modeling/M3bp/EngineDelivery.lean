import M3bp.EnginePool
import M3bp.EnginePrograms
import M3bp.EngineStores

/-!
Fragments come in time. A running task delivers along edges only, in front of a physical
task that waits for it, and a processor is initialised after its gathers, so that
it finds a fragment at every broadcast port.
-/
namespace M3bp.Engine

open SchedulerCalls Transition

variable {n : ℕ} {g : LogicalGraph} {lm : LocalityManager} {s : State n} {w : Fin n} {t : TaskId}
  {c : Command} {op : Op} {rest : List Op} {e : Effect}

/-- Deliveries follow edges, and only the entry task of a processor initialises it. -/
def Directed (g : LogicalGraph) (c : Command) : Op → Prop
  | .deliver x _ _ => ∃ e ∈ g.edges, e.consumer = x
  | .call l .globalInitialize _ | .inCallback l .globalInitialize => c = .globalInitialize l
  | _ => True

theorem directed_commitFragment (hdelivers : g.DeliversAlongEdges) (c : Command) (producer : PortKey)
    (p : ℕ) (o : Object) : ∀ op ∈ commitFragment g producer p o, Directed g c op := by
  intro op hop
  obtain ⟨x, hx, rfl⟩ := List.mem_map.mp hop
  obtain ⟨e, he, -, hconsumer⟩ := mem_successorsOf hdelivers hx
  exact ⟨e, he, hconsumer⟩

theorem directed_body (s : State n) (t : TaskId) (c c' : Command) :
    ∀ op ∈ body g s t c', Directed g c op := by
  cases c' with
  | shuffleBarrier l =>
    simp only [body]
    split <;> simp +contextual [or_imp, Directed]
  | _ => simp +contextual [body, Directed]

theorem Performs.directed (h : Performs g s w op e) (hdelivers : g.DeliversAlongEdges)
    {log : List Event} {commands : List Command} {ids : ℕ → Ids}
    (hfits : Fits g log commands ids t c op) (hop : Directed g c op) :
    ∀ op' ∈ e.next, Directed g c op' := by
  cases h with
  | step op choice hoption =>
    cases op with
    | prepare t' c' => exact directed_body s t' c c'
    | globalInitialize l =>
      simp only [effect]
      split
      · exact List.forall_mem_nil _
      · have hc : c = .globalInitialize l := hfits
        simpa [Directed] using hc
    | call l callback inputs =>
      intro op' hop'
      rw [List.mem_singleton.mp hop']
      cases callback <;> exact hop
    | sortRecords l p => exact directed_commitFragment hdelivers c _ p _
    | sortValues l p => exact directed_commitFragment hdelivers c _ p _
    | runGather l inputs =>
      intro op' hop'
      rcases List.mem_append.mp hop' with hop' | hop'
      · exact directed_commitFragment hdelivers c _ 0 _ op' hop'
      · rw [List.mem_singleton.mp hop']
        trivial
    | deliver x p o =>
      simp only [effect, receiveFragment, receiveProcessFragment]
      split <;> (try split) <;> simp [Directed]
    | link t' c' deps =>
      cases deps with
      | cons d deps => simp [effect, Directed]
      | nil =>
        simp only [effect, commitTask]
        split <;> simp +contextual [Directed]
    | _ =>
      simp only [effect]
      (try split) <;> simp +contextual [Directed]
  | flush l callback port recordCount o hport hbuffer =>
    intro op' hop'
    rcases List.mem_append.mp hop' with hop' | hop'
    · split at hop'
      · exact directed_commitFragment hdelivers c _ 0 o op' hop'
      · cases hop'
    · rw [List.mem_singleton.mp hop']
      exact hop
  | _ =>
    intro op' hop'
    rw [List.mem_singleton.mp hop']
    exact hop

theorem run_directed (hwaits : Waits g) (hrun : Run g lm s)
    (hrunning : (s.workers w).activity = .running t) (hc : s.commands[t]? = some c)
    (hop : op ∈ (s.workers w).program) : Directed g c op := by
  refine @run_operations n g lm s hwaits (Directed g) (fun _ _ => trivial) ?_ hrun w t c hrunning
    hc op hop
  intro s w t c op rest e hinv hrunning hc hprogram heffect hdirected
  exact heffect.directed hwaits.delivers (hinv.fits_of_mem hrunning hc (mem_program hprogram))
    hdirected

/-! The broadcast inputs of a processor. -/

/-- How often a command sends its fragment to the port. -/
def Command.announces (g : LogicalGraph) (x : PortKey) : Command → ℕ
  | gather u => (g.successorsOf (u, 0)).count x
  | _ => 0

/-- What an operation still sends to the port. -/
def Op.announces (g : LogicalGraph) (x : PortKey) : Op → ℕ
  | prepare _ c => c.announces g x
  | runGather u _ => (g.successorsOf (u, 0)).count x
  | deliver x' _ _ => if x' = x then 1 else 0
  | _ => 0

/-- What is still to come to a broadcast port. -/
def announced (g : LogicalGraph) (s : State n) (x : PortKey) : ℕ :=
  s.tokens (Op.announces g x) (Command.announces g x)

theorem announces_commitFragment (g : LogicalGraph) (x producer : PortKey) (p : ℕ) (o : Object) :
    ((commitFragment g producer p o).map (Op.announces g x)).sum =
      (g.successorsOf producer).count x := by
  rw [commitFragment, List.map_map]
  induction g.successorsOf producer with
  | nil => rfl
  | cons y xs ih =>
    rw [List.map_cons, List.sum_cons, ih, List.count_cons, Nat.add_comm]
    simp [Op.announces]

/-- A fragment is only no longer to come when it is delivered. -/
theorem Performs.announces (h : Performs g s w op e) (x : PortKey) :
    op.announces g x ≤ (e.next.map (Op.announces g x)).sum ∨ ∃ p o, op = .deliver x p o := by
  cases h with
  | step op choice hoption =>
    cases op with
    | prepare t c =>
      left
      cases c with
      | gather u => simp [effect, body, Op.announces, Command.announces]
      | _ => exact Nat.zero_le _
    | runGather u inputs =>
      left
      simp only [effect, List.map_append, List.sum_append, announces_commitFragment]
      exact Nat.le_add_right _ _
    | deliver x' p o =>
      by_cases hx : x' = x
      · exact Or.inr ⟨p, o, by rw [hx]⟩
      · left
        simp [Op.announces, hx]
    | _ => exact Or.inl (Nat.zero_le _)
  | _ => exact Or.inl (Nat.zero_le _)

/-- How the broadcast inputs change. -/
theorem Performs.broadcastInputs (h : Performs g s w op e) {l : ℕ} {y : Local}
    (hchange : e.change = some (l, y)) :
    y.broadcastInputs = (s.locals l).broadcastInputs ∨
      (∃ x p o, op = .deliver x p o ∧ x.1 = l ∧
        y.broadcastInputs = (s.locals l).broadcastInputs.set x.2 (some o)) ∨
      op = .clearBroadcastInputs l := by
  cases h with
  | step op choice hoption =>
    cases op with
    | deliver x p o =>
      simp only [effect, receiveFragment, receiveProcessFragment] at hchange
      split at hchange <;> (try split at hchange) <;> cases hchange <;> first
        | exact Or.inl rfl
        | exact Or.inr (Or.inl ⟨x, p, o, rfl, rfl, rfl⟩)
    | clearBroadcastInputs l' =>
      cases hchange
      exact Or.inr (Or.inr rfl)
    | link t c deps =>
      left
      cases deps with
      | cons d deps => cases hchange
      | nil =>
        simp only [effect, commitTask] at hchange
        split at hchange
        · cases hchange
          rfl
        · cases hchange
    | _ =>
      left
      simp only [effect] at hchange
      first
        | (cases hchange <;> rfl)
        | (split at hchange <;> cases hchange <;> rfl)
  | setTaskCount l' count hinput =>
    cases hchange
    exact Or.inl rfl
  | _ => cases hchange

/-- A broadcast port holds its fragment, or the fragment is still to come, until the
processor is over. -/
structure Announced (g : LogicalGraph) (s : State n) (x : PortKey) : Prop where
  room : .completed (s.ids x.1).entry ∈ s.system.log ∨ x.2 < (s.locals x.1).broadcastInputs.length
  stored : .completed (s.ids x.1).entry ∈ s.system.log ∨ 0 < announced g s x ∨
    ∃ o, (s.locals x.1).broadcastInputs[x.2]? = some (some o)

section Broadcast

variable {config : Configuration} {x : PortKey} {kind : TaskKind}

/-- A broadcast port is fed by a gather. -/
theorem Shape.broadcast_edge (h : Shape config g) (hkind : g.kindOf x.1 = some kind)
    (hport : HasPort kind x.2 .broadcast) {e : Edge} (he : e ∈ g.edges) (hconsumer : e.consumer = x) :
    g.kindOf e.producer.1 = some .gather ∧ e.producer.2 = 0 ∧ e.physicalSuccessor = .entry := by
  obtain ⟨kind₁, kind', hproducer, hkind', hjoins⟩ := h.joins e he
  rw [hconsumer] at hkind' hjoins
  rw [hkind, Option.some.injEq] at hkind'
  subst hkind'
  obtain ⟨proc, iport, hproc, hget, hmovement⟩ := hport
  have hone : ∀ {movement}, HasPort kind x.2 movement → movement = .broadcast := by
    rintro movement ⟨proc', iport', hproc', hget', rfl⟩
    rw [hproc, Option.some.injEq] at hproc'
    subst hproc'
    rw [hget, Option.some.injEq] at hget'
    rw [← hget', hmovement]
  generalize e.physicalSuccessor = succ at hjoins ⊢
  generalize x.2 = q at hjoins hone
  cases hjoins with
  | broadcast => exact ⟨hproducer, h.relays e he ⟨_, hproducer, rfl⟩, rfl⟩
  | oneToOne _ hport' => cases hone hport'
  | partitions hport' => cases hone hport'
  | sorted hport' => cases hone hport'
  | shuffle => cases hproc
  | gather => cases hproc
  | valueSort => cases hproc

theorem announced_start (h : Shape config g) (hkind : g.kindOf x.1 = some kind)
    (hport : HasPort kind x.2 .broadcast) (draws : TaskId → WorkerId) :
    Announced g (State.start g (Plan.setUp g lm draws) : State n) x := by
  have hinv : Inv g lm (State.start g (Plan.setUp g lm draws) : State n) :=
    start_inv h.waits.endpoints draws
  constructor
  · right
    obtain ⟨proc, iport, hproc, hget, -⟩ := hport
    have hlt := (List.getElem?_eq_some_iff.mp hget).1
    cases kind <;> cases hproc <;> simpa [State.start, hkind, Local.create] using hlt
  · right; left
    have hone := h.single x.1 kind x.2 .broadcast hkind hport (Or.inr rfl)
    obtain ⟨⟨producer, succ⟩, hmem⟩ := List.exists_mem_of_length_pos (by rw [hone]; exact Nat.one_pos)
    have he : (⟨producer, x, succ⟩ : Edge) ∈ g.edges := LogicalGraph.mem_incoming.mp hmem
    obtain ⟨hgather, hzero, -⟩ := h.broadcast_edge hkind hport he rfl
    have hsuccessor : x ∈ g.successorsOf (producer.1, 0) := by
      rw [h.delivers, List.mem_map]
      refine ⟨_, List.mem_filter.mpr ⟨he, ?_⟩, rfl⟩
      exact decide_eq_true (Prod.ext rfl hzero)
    refine tokens_pos_of_untaken _ ((hinv.static.laid _ _ hgather).command .entry) ?_
      (List.count_pos_iff.mpr hsuccessor)
    exact (setUp_spec lm draws h.waits.endpoints).calm.untaken _

/-- A delivery to a broadcast port stores the fragment. -/
theorem receiveFragment_broadcast (hkind : g.kindOf x.1 = some kind)
    (hport : HasPort kind x.2 .broadcast) (s : State n) (p : ℕ) (o : Object) :
    (receiveFragment g s x p o).change =
      some (x.1, { s.locals x.1 with
        broadcastInputs := (s.locals x.1).broadcastInputs.set x.2 (some o) }) := by
  obtain ⟨proc, iport, hproc, hget, hmovement⟩ := hport
  cases kind <;> cases hproc <;>
    simp [receiveFragment, receiveProcessFragment, hkind, hget, hmovement]

theorem Inv.completed_entry (h : Inv g lm s) (hrunning : (s.workers w).activity = .running t)
    {l : ℕ} (hop : .clearBroadcastInputs l ∈ (s.workers w).program) :
    .completed (s.ids l).entry ∈ s.system.log := by
  have hinv := run_inv h.run
  obtain ⟨c, hc, hfit⟩ := h.running_fits hrunning hop
  obtain rfl : c = .globalFinalize l := hfit
  obtain ⟨kind, place, hkind, hcommand, hid⟩ := h.static.fixed hc fun kind => by cases kind <;> rfl
  obtain ⟨hprocess, rfl⟩ := place_of_globalFinalize hcommand
  by_contra hlive
  apply hinv.unreleased_of_before (h.before_terminal_of_process hkind hprocess) hlive
  have hreleased := hinv.log.taken_released t (h.running w t hrunning).1
  rw [hid] at hreleased
  exact hreleased

theorem Announced.apply (ha : Announced g s x) (h : Inv g lm s) (hkind : g.kindOf x.1 = some kind)
    (hport : HasPort kind x.2 .broadcast) (hrunning : (s.workers w).activity = .running t)
    (hcall : s.system.calls (some w) = .idle) (hprogram : (s.workers w).program = op :: rest)
    (heffect : Performs g s w op e) : Announced g (s.apply w rest e) x := by
  have hmem : op ∈ (s.workers w).program := mem_program hprogram
  have hlog : (s.apply w rest e).system.log = e.action.events s.system ++ s.system.log :=
    (performed h.run hcall (h.action_valid hrunning hprogram heffect)).log
  have hkept : .completed (s.ids x.1).entry ∈ s.system.log →
      .completed ((s.apply w rest e).ids x.1).entry ∈ (s.apply w rest e).system.log := by
    intro hdone
    rw [hlog]
    exact List.mem_append_right _ hdone
  by_cases hclear : op = .clearBroadcastInputs x.1
  · subst hclear
    have hdone := hkept (h.completed_entry hrunning hmem)
    exact ⟨Or.inl hdone, Or.inl hdone⟩
  have hinputs : ((s.apply w rest e).locals x.1).broadcastInputs = (s.locals x.1).broadcastInputs ∨
      ∃ x' p o, op = .deliver x' p o ∧ x'.1 = x.1 ∧ ((s.apply w rest e).locals x.1).broadcastInputs =
        (s.locals x.1).broadcastInputs.set x'.2 (some o) := by
    rcases locals_apply s w rest e x.1 with ⟨y, hchange, heq⟩ | heq
    · rw [heq]
      rcases heffect.broadcastInputs hchange with hsame | hset | hclear'
      · exact Or.inl hsame
      · exact Or.inr hset
      · exact absurd hclear' hclear
    · rw [heq]
      exact Or.inl rfl
  have hlength : ((s.apply w rest e).locals x.1).broadcastInputs.length =
      (s.locals x.1).broadcastInputs.length := by
    rcases hinputs with hsame | ⟨x', p, o, -, -, hset⟩
    · rw [hsame]
    · rw [hset, List.length_set]
  constructor
  · rw [hlength]
    exact ha.room.imp_left hkept
  rcases ha.room with hdone | hroom
  · exact Or.inl (hkept hdone)
  have hstored : ∀ {o}, (s.locals x.1).broadcastInputs[x.2]? = some (some o) →
      ∃ o, ((s.apply w rest e).locals x.1).broadcastInputs[x.2]? = some (some o) := by
    intro o ho
    rcases hinputs with hsame | ⟨x', p, o', -, -, hset⟩
    · rw [hsame]
      exact ⟨o, ho⟩
    · rw [hset]
      by_cases hx : x'.2 = x.2
      · exact ⟨o', by rw [hx, List.getElem?_set_self hroom]⟩
      · exact ⟨o, by rw [List.getElem?_set_ne hx]; exact ho⟩
  have hcreated : (e.action.created.map (Command.announces g x)).sum = 0 := by
    apply List.sum_eq_zero
    intro m hm
    obtain ⟨c, hc, rfl⟩ := List.mem_map.mp hm
    obtain ⟨kind', -, hdynamic⟩ := h.dynamic_created hrunning hprogram heffect c hc
    cases c <;> first
      | rfl
      | cases hdynamic
  have htokens := h.tokens_apply hrunning hcall hprogram heffect (Op.announces g x)
    (Command.announces g x)
  rw [hcreated] at htokens
  rcases ha.stored with hdone | hcoming | ⟨o, ho⟩
  · exact Or.inl (hkept hdone)
  · right
    rcases heffect.announces x with hle | ⟨p, o, rfl⟩
    · left
      unfold announced at hcoming ⊢
      omega
    · right
      cases heffect
      refine ⟨o, ?_⟩
      simp [State.apply, effect, receiveFragment_broadcast hkind hport, hroom]
  · exact Or.inr (Or.inr (hstored ho))

theorem run_announced (h : Shape config g) (hkind : g.kindOf x.1 = some kind)
    (hport : HasPort kind x.2 .broadcast) (hrun : Run g lm s) : Announced g s x := by
  refine @run_induction n g lm s h.waits (fun s => Announced g s x)
    (announced_start h hkind hport) ?_ ?_ hrun
  · intro s w t op rest e _ hinv ha hrunning hcall hprogram heffect
    exact ha.apply hinv hkind hport hrunning hcall hprogram heffect
  · intro s s' _ ha hbetween
    have hsame : announced g s' x = announced g s x := hbetween.tokens _ _ fun _ _ => rfl
    constructor
    · rw [hbetween.ids, hbetween.locals]
      exact ha.room.imp_left fun hdone => hbetween.log hdone
    · rw [hbetween.ids, hbetween.locals, hsame]
      exact ha.stored.imp_left fun hdone => hbetween.log hdone

/-- When a processor is initialised, nothing is on its way to its broadcast ports. -/
theorem announced_eq_zero (h : Shape config g) (hkind : g.kindOf x.1 = some kind)
    (hport : HasPort kind x.2 .broadcast) (hinv : Inv g lm s)
    (hreleased : Released s.system.log (s.ids x.1).entry) : announced g s x = 0 := by
  have hsched := run_inv hinv.run
  have hplace : waitPlace g x = some .entry := by
    obtain ⟨proc, iport, hproc, hget, hmovement⟩ := hport
    rw [waitPlace_of_process hkind hproc, hget]
    simp [hmovement]
  -- a gather that still sends something has not completed, and the entry waits for it
  have hgather : ∀ {t u}, s.commands[t]? = some (.gather u) →
      0 < (g.successorsOf (u, 0)).count x → .completed t ∈ s.system.log := by
    intro t u hc hcount
    obtain ⟨e, he, hproducer, hconsumer⟩ := mem_successorsOf h.delivers (List.count_pos_iff.mp hcount)
    obtain ⟨kind', place, hkind', hcommand, hid⟩ := hinv.static.fixed hc fun kind => by
      cases kind <;> rfl
    obtain rfl := kind_of_gather hcommand
    have hterminal : t = (s.ids u).terminal := by
      rw [hid]
      exact (hinv.static.laid u _ hkind').merged place .terminal rfl
    have hdep := hinv.static.edges e he
    rw [hproducer, hconsumer, (h.broadcast_edge hkind hport he hconsumer).2.2] at hdep
    rw [hterminal]
    exact hsched.predecessor_completed hreleased hdep
  apply Nat.eq_zero_of_not_pos
  intro hpos
  rcases exists_of_tokens_pos hpos with ⟨w, op, hop, hannounces⟩ | ⟨t, c, hc, huntaken, hannounces⟩
  · obtain ⟨t, hrunning⟩ := hinv.running_of_mem hop
    have hlive := (hinv.running w t hrunning).2.1
    obtain ⟨c, hc, hfit⟩ := hinv.running_fits hrunning hop
    cases op with
    | deliver x' p o =>
      have hx : x' = x := by
        by_contra hne
        simp [Op.announces, hne] at hannounces
      subst hx
      exact hinv.unreleased hrunning (hfit .entry hplace) hreleased
    | runGather u inputs =>
      obtain rfl : c = .gather u := hfit
      exact hlive (hgather hc hannounces)
    | prepare t' c' =>
      obtain ⟨rfl, rfl⟩ := hfit
      cases c' with
      | gather u => exact hlive (hgather hc hannounces)
      | _ => cases hannounces
    | _ => cases hannounces
  · cases c with
    | gather u => exact huntaken (hsched.log.completed_taken t (hgather hc hannounces))
    | _ => cases hannounces

/-- A processor that is being initialised finds a fragment at each of its broadcast ports. -/
theorem broadcast_of_globalInitialize (h : Shape config g) (hrun : Run g lm s) {l q : ℕ}
    (hop : .inCallback l .globalInitialize ∈ (s.workers w).program ∨
      ∃ inputs, .call l .globalInitialize inputs ∈ (s.workers w).program)
    (hkind : g.kindOf l = some kind) (hport : HasPort kind q .broadcast) :
    ∃ o, (s.locals l).broadcastInputs[q]? = some (some o) := by
  have hinv := run_invariant h.waits hrun
  have hactive : ∃ t, (s.workers w).activity = .running t := by
    rcases hop with hop | ⟨inputs, hop⟩
    · exact hinv.running_of_mem hop
    · exact hinv.running_of_mem hop
  obtain ⟨t, hrunning⟩ := hactive
  obtain ⟨htaken, hlive, -, c, hc, -⟩ := hinv.running w t hrunning
  have hcommand : c = .globalInitialize l := by
    rcases hop with hop | ⟨inputs, hop⟩
    · exact run_directed h.waits hrun hrunning hc hop
    · exact run_directed h.waits hrun hrunning hc hop
  subst hcommand
  obtain ⟨kind', place, -, hplace, hid⟩ := hinv.static.fixed hc fun kind => by cases kind <;> rfl
  obtain ⟨-, rfl⟩ := place_of_globalInitialize hplace
  have hentry : t = (s.ids l).entry := hid
  have hreleased := (run_inv hinv.run).log.taken_released t htaken
  rw [hentry] at hreleased hlive
  have hnone := @announced_eq_zero n g lm s config (l, q) kind h hkind hport hinv hreleased
  rcases (run_announced (x := (l, q)) h hkind hport hrun).stored with hdone | hcoming | hstored
  · exact absurd hdone hlive
  · omega
  · exact hstored

end Broadcast

/-- Nothing is delivered, and no dependency is added, behind a task that has been released,
and all broadcast inputs are there when a processor is initialised. -/
structure Timely (g : LogicalGraph) (lm : LocalityManager) (s : State n) : Prop where
  deliveries : ∀ w x p o, .deliver x p o ∈ (s.workers w).program →
    ∃ place, waitPlace g x = some place ∧ ¬ Released s.system.log ((s.ids x.1).get place)
  dependencies : ∀ w t c d deps, .link t c (d :: deps) ∈ (s.workers w).program →
    ¬ Released s.system.log d.2
  calls : SchedulerCalls.Run lm s.system
  broadcasts : ∀ w l q kind, (.inCallback l .globalInitialize ∈ (s.workers w).program ∨
      ∃ inputs, .call l .globalInitialize inputs ∈ (s.workers w).program) →
    g.kindOf l = some kind → HasPort kind q .broadcast →
      ∃ o, (s.locals l).broadcastInputs[q]? = some (some o)

theorem run_timely {config : Configuration} (h : Shape config g) (hrun : Run g lm s) :
    Timely g lm s := by
  have hinv := run_invariant h.waits hrun
  refine ⟨?_, ?_, hinv.run, ?_⟩
  · intro w x p o hop
    obtain ⟨t, hrunning⟩ := hinv.running_of_mem hop
    obtain ⟨c, hc, hfit⟩ := hinv.running_fits hrunning hop
    obtain ⟨e, he, rfl⟩ := run_directed h.waits hrun hrunning hc hop
    have hplace := h.waits.places e he
    exact ⟨_, hplace, hinv.unreleased hrunning (hfit _ hplace)⟩
  · intro w t' c' d deps hop
    obtain ⟨t, hrunning⟩ := hinv.running_of_mem hop
    obtain ⟨c, -, -, -, hbefore, hdeps⟩ := hinv.running_fits hrunning hop
    have huncalled := (hinv.uncalled_of_owed (t := t') hop (by simp [Op.owesCommit])).1
    rcases mem_dependencies (hdeps List.mem_cons_self) with ⟨place, -, rfl⟩ | ⟨place, hplace, rfl⟩
    · exact (run_inv hinv.run).unreleased_of_uncalled huncalled
    · exact hinv.unreleased hrunning (hbefore place hplace)
  · intro w l q kind hop hkind hport
    exact broadcast_of_globalInitialize h hrun hop hkind hport

end M3bp.Engine
