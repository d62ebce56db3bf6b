import M3bp.EngineIntake

/-!
What comes in at the ports. At a broadcast port stands everything that its gather takes in. At
a scatter-gather port, in the row of a partition, stands what the sort of that partition has made
of all that its shuffle takes in, perhaps after a value sort.
-/
namespace M3bp.Engine

open SchedulerCalls Transition

variable {n : ℕ} {R : Type} {config : Configuration} {g : LogicalGraph} {lm : LocalityManager}
  {content : Object → Multiset R} {author : Object → Command} {s s' : State n} {w : Fin n} {t : TaskId}
  {c : Command} {op : Op} {rest : List Op} {e : Effect} {x : PortKey} {kind : TaskKind}

section Broadcast

/-- What is delivered to a broadcast port, and what is stored there. -/
structure Announces (g : LogicalGraph) (content : Object → Multiset R) (s : State n)
    (x : PortKey) : Prop where
  deliveries : ∀ w p o, .deliver x p o ∈ (s.workers w).program → Holds g content s x o
  stored : ∀ o, (s.locals x.1).broadcastInputs[x.2]? = some (some o) → Holds g content s x o

/-- Only a gather delivers to a broadcast port. -/
theorem Inv.gather_of_delivers (h : Inv g lm s) (hshape : Shape config g)
    (hkind : g.kindOf x.1 = some kind) (hport : HasPort kind x.2 .broadcast)
    (hrunning : (s.workers w).activity = .running t) (hop : op ∈ (s.workers w).program) {p : ℕ}
    {o : Object} (hdelivers : Delivers g s op x p o) :
    ∃ u inputs, op = .runGather u inputs ∧ x ∈ g.successorsOf (u, 0) ∧ o = s.nextObject := by
  have hgather : ∀ {l port}, x ∈ g.successorsOf (l, port) → g.kindOf l = some .gather := by
    intro l port hx
    obtain ⟨e, he, hproducer, hconsumer⟩ := mem_successorsOf hshape.delivers hx
    have hproducer' := (hshape.broadcast_edge hkind hport he hconsumer).1
    rwa [hproducer] at hproducer'
  cases hdelivers with
  | flush hport' hx =>
    rw [outputPortCount, hgather hx] at hport'
    cases hport'
  | runGather hx => exact ⟨_, _, rfl, hx, rfl⟩
  | sortRecords hx =>
    obtain ⟨c, hc, sources, rfl⟩ := h.running_fits hrunning hop
    obtain ⟨count, hshuffle⟩ := h.static.kind_of_shuffleSort hc
    rw [hgather hx] at hshuffle
    cases hshuffle
  | sortValues hx =>
    obtain ⟨c, hc, o, rfl⟩ := h.running_fits hrunning hop
    obtain ⟨comparator, hsort⟩ := h.static.kind_of_valueSort hc
    rw [hgather hx] at hsort
    cases hsort

theorem Announces.apply (hx : Announces g content s x) (hshape : Shape config g)
    (hrun : Run g lm s) (hkind : g.kindOf x.1 = some kind) (hport : HasPort kind x.2 .broadcast)
    (hrunning : (s.workers w).activity = .running t) (hcall : s.system.calls (some w) = .idle)
    (hprogram : (s.workers w).program = op :: rest) (heffect : Performs g s w op e)
    (hfills : Fills content author s c op) : Announces g content (s.apply w rest e) x := by
  have h := run_invariant hshape.waits hrun
  have hmem : op ∈ (s.workers w).program := mem_program hprogram
  have hkept : ∀ {o}, Holds g content s x o → Holds g content (s.apply w rest e) x o := fun ho =>
    ho.apply hshape.waits hrun hrunning hcall hprogram heffect
  refine ⟨fun w' p o hop => ?_, fun o ho => ?_⟩
  · rcases mem_program_apply hprogram hop with hop | hop
    · exact hkept (hx.deliveries w' p o hop)
    · -- the gather has taken everything in at once
      obtain ⟨u, inputs, rfl, hsuccessor, rfl⟩ :=
        h.gather_of_delivers hshape hkind hport hrunning hmem (heffect.delivers hop)
      have hgather := h.kind_of_runGather hrunning hmem
      have hcollected : Collected content s u := run_collected hshape.waits hgather hrun
      have hlast := (h.collecting_apply hrunning hcall hprogram heffect u).2 inputs rfl
      have honce := hcollected.once
      have hnew : content s.nextObject = contents content inputs :=
        hfills.copies _ rfl
      refine ⟨u, hgather, hsuccessor, by omega, ?_⟩
      rw [takenIn_apply heffect, hcollected.nothing (by omega), add_zero, hnew]
      exact (if_pos rfl).symm
  · rcases locals_apply s w rest e x.1 with ⟨y, hchange, heq⟩ | heq
    · rw [heq] at ho
      rcases heffect.broadcastInputs hchange with hsame | ⟨x', p, o', rfl, hx', hset⟩ | rfl
      · rw [hsame] at ho
        exact hkept (hx.stored o ho)
      · rw [hset, List.getElem?_set] at ho
        split at ho
        · next hport' =>
          obtain rfl : x' = x := Prod.ext hx' hport'
          split at ho
          · obtain rfl : o' = o := by simpa using ho
            exact hkept (hx.deliveries w p o' hmem)
          · cases ho
        · exact hkept (hx.stored o ho)
      · cases heffect
        cases hchange
        cases ho
    · rw [heq] at ho
      exact hkept (hx.stored o ho)

theorem run_announces (hshape : Shape config g) (hkind : g.kindOf x.1 = some kind)
    (hport : HasPort kind x.2 .broadcast) (hrun : FilledRun g lm content author s) :
    Announces g content s x := by
  refine filled_induction hshape.waits (P := fun s : State n => Announces g content s x) ?_ ?_ ?_ hrun
  · intro draws
    refine ⟨fun w p o hop => (by cases hop), fun o ho => ?_⟩
    simp only [State.start] at ho
    have hmem := List.mem_of_getElem? ho
    cases hk : (g.kindOf x.1).getD .gather <;> rw [hk] at hmem <;> simp [Local.create] at hmem
  · intro s w t c op rest e hrun _ hx hrunning hcall hprogram heffect _ hfills
    exact hx.apply hshape hrun hkind hport hrunning hcall hprogram heffect hfills
  · intro s s' _ hx hbetween
    refine ⟨fun w p o hop => ?_, fun o ho => ?_⟩
    · obtain ⟨w', hop'⟩ := hbetween.mem_program hop fun _ _ => Op.noConfusion
      exact hbetween.holds (hx.deliveries w' p o hop')
    · rw [hbetween.locals] at ho
      exact hbetween.holds (hx.stored o ho)

end Broadcast

section Partitions

open LogicalGraph (FedBy)

/-- The ports that partitions come in at. -/
def Sifts (g : LogicalGraph) (x : PortKey) : Prop :=
  (∃ comparator, g.kindOf x.1 = some (.valueSort comparator)) ∨
    ∃ kind, g.kindOf x.1 = some kind ∧ HasPort kind x.2 .scatterGather

/-- The object has been written by the sort of partition `p` of shuffle `u`, which has been given
`sources`, or by a value sort of what that has written. -/
def SortedFrom (author : Object → Command) (u p : ℕ) (sources : List Object) (o : Object) : Prop :=
  author o = .shuffleSort u p sources ∨
    ∃ v o', author o = .valueSort v o' p ∧ author o' = .shuffleSort u p sources

/-- The object comes from a sort of partition `p` of the shuffle behind the port. -/
def Picked (g : LogicalGraph) (author : Object → Command) (commands : List Command) (x : PortKey)
    (p : ℕ) (o : Object) : Prop :=
  ∃ u sources, .shuffleSort u p sources ∈ commands ∧
    ((∃ e ∈ g.edges, e.producer = (u, 0) ∧ e.consumer = x) ∧ author o = .shuffleSort u p sources ∨
      ∃ v comparator o', g.kindOf v = some (.valueSort comparator) ∧
        (∃ e ∈ g.edges, e.producer = (u, 0) ∧ e.consumer = (v, 0)) ∧
        (∃ e ∈ g.edges, e.producer = (v, 0) ∧ e.consumer = x) ∧
        author o = .valueSort v o' p ∧ author o' = .shuffleSort u p sources)

/-- What is on its way to the ports of partitions, and what waits there. -/
structure Sifted (g : LogicalGraph) (author : Object → Command) (s : State n) : Prop where
  deliveries : ∀ w x p o, .deliver x p o ∈ (s.workers w).program → Sifts g x →
    Picked g author s.commands x p o
  sorts : ∀ v o p, Made s (.valueSort v o p) → Picked g author s.commands (v, 0) p o
  runs : ∀ l inputs p, Made s (.scatterGatherRun l inputs p) → ∀ q o,
    inputs[q]? = some (some o) → Sifts g (l, q) → Picked g author s.commands (l, q) p o
  pools : ∀ l p row q o, (s.locals l).partitionedPool[p]? = some row → row[q]? = some (some o) →
    Sifts g (l, q) → Picked g author s.commands (l, q) p o

theorem Picked.mono {commands : List Command} {p : ℕ} {o : Object}
    (h : Picked g author commands x p o) (more : List Command) :
    Picked g author (commands ++ more) x p o := by
  obtain ⟨u, sources, hsort, hwritten⟩ := h
  exact ⟨u, sources, List.mem_append_left _ hsort, hwritten⟩

theorem Picked.sorted {commands : List Command} {p : ℕ} {o : Object}
    (h : Picked g author commands x p o) :
    ∃ u sources, g.FedBy u x ∧ .shuffleSort u p sources ∈ commands ∧
      SortedFrom author u p sources o := by
  obtain ⟨u, sources, hsort, ⟨hedge, hauthor⟩ | ⟨v, comparator, o', hv, hin, hout, hlast, hfirst⟩⟩ := h
  · exact ⟨u, sources, Or.inl hedge, hsort, Or.inl hauthor⟩
  · exact ⟨u, sources, Or.inr ⟨v, comparator, hv, hin, hout⟩, hsort, Or.inr ⟨v, o', hlast, hfirst⟩⟩

/-- The edges into the ports of partitions. -/
theorem Shape.sifts_edge (h : Shape config g) {e : Edge} (he : e ∈ g.edges)
    (hsifts : Sifts g e.consumer) :
    e.producer.2 = 0 ∧ ((∃ count, g.kindOf e.producer.1 = some (.shuffle count)) ∨
      (∃ comparator, g.kindOf e.producer.1 = some (.valueSort comparator)) ∧
        ∀ comparator, g.kindOf e.consumer.1 ≠ some (.valueSort comparator)) := by
  obtain ⟨kind, kind', hkind, hkind', hjoins⟩ := h.joins e he
  have hrelay := h.relays e he
  have hport : ∀ {movement}, HasPort kind' e.consumer.2 movement → movement = .scatterGather := by
    rintro movement ⟨proc, iport, hproc, hget, rfl⟩
    rcases hsifts with ⟨comparator, hsort⟩ | ⟨kind₁, hkind₁, proc₁, iport₁, hproc₁, hget₁, hmovement⟩
    · rw [hkind', Option.some.injEq] at hsort
      rw [hsort] at hproc
      cases hproc
    · rw [hkind', Option.some.injEq] at hkind₁
      subst hkind₁
      rw [hproc, Option.some.injEq] at hproc₁
      subst hproc₁
      rw [hget, Option.some.injEq] at hget₁
      rw [hget₁, hmovement]
  have hnot : ∀ {kind₁ : TaskKind}, kind' = kind₁ → processor? kind₁ = none →
      (∀ comparator, kind₁ ≠ .valueSort comparator) → False := by
    rintro kind₁ rfl hno hsorts
    rcases hsifts with ⟨comparator, hsort⟩ | ⟨kind₂, hkind₂, proc, iport, hproc, -⟩
    · rw [hkind', Option.some.injEq] at hsort
      exact hsorts comparator hsort
    · rw [hkind', Option.some.injEq] at hkind₂
      rw [← hkind₂, hno] at hproc
      cases hproc
  generalize e.physicalSuccessor = succ at hjoins
  generalize hq : e.consumer.2 = q at hjoins hport
  cases hjoins with
  | shuffle => exact (hnot rfl rfl (by simp)).elim
  | gather => exact (hnot rfl rfl (by simp)).elim
  | oneToOne _ hport' => cases hport hport'
  | broadcast hport' => cases hport hport'
  | valueSort => exact ⟨hrelay ⟨_, hkind, rfl⟩, Or.inl ⟨_, hkind⟩⟩
  | partitions hport' => exact ⟨hrelay ⟨_, hkind, rfl⟩, Or.inl ⟨_, hkind⟩⟩
  | sorted hport' =>
    refine ⟨hrelay ⟨_, hkind, rfl⟩, Or.inr ⟨⟨_, hkind⟩, fun comparator hsort => ?_⟩⟩
    rw [hkind', Option.some.injEq] at hsort
    obtain ⟨proc, iport, hproc, -⟩ := hport'
    rw [hsort] at hproc
    cases hproc

/-- A value sort is fed at its one port. -/
theorem Shape.port_of_valueSort (h : Shape config g) {e : Edge} (he : e ∈ g.edges)
    {comparator : ValueComparator} (hsort : g.kindOf e.consumer.1 = some (.valueSort comparator)) :
    e.consumer.2 = 0 := by
  obtain ⟨kind, kind', -, hkind', hjoins⟩ := h.joins e he
  rw [hsort, Option.some.injEq] at hkind'
  subst hkind'
  generalize e.physicalSuccessor = succ at hjoins
  generalize e.consumer.2 = q at hjoins
  cases hjoins with
  | valueSort => rfl
  | oneToOne _ hport | broadcast hport | partitions hport | sorted hport =>
    obtain ⟨proc, iport, hproc, -⟩ := hport
    cases hproc

/-- What is sent on to a port of partitions has been picked by a sort. -/
theorem Sifted.picked_of_delivers (hs : Sifted g author s) (h : Inv g lm s)
    (hshape : Shape config g) (hrunning : (s.workers w).activity = .running t)
    (hmem : op ∈ (s.workers w).program) (hc : s.commands[t]? = some c)
    (hfills : Fills content author s c op) {p : ℕ} {o : Object} (hdelivers : Delivers g s op x p o)
    (hsifts : Sifts g x) : Picked g author s.commands x p o := by
  have hedge : ∀ {l port}, x ∈ g.successorsOf (l, port) → ∃ e ∈ g.edges, e.producer = (l, port) ∧
      e.consumer = x := mem_successorsOf hshape.delivers
  have hcommand : c ∈ s.commands := List.mem_of_getElem? hc
  have hfits := h.fits_of_mem hrunning hc hmem
  cases hdelivers with
  | flush hport hx =>
    obtain ⟨e, he, hproducer, rfl⟩ := hedge hx
    obtain ⟨-, ⟨count, hkind⟩ | ⟨⟨comparator, hkind⟩, -⟩⟩ := hshape.sifts_edge he hsifts
    · rw [hproducer] at hkind
      rw [outputPortCount, hkind] at hport
      cases hport
    · rw [hproducer] at hkind
      rw [outputPortCount, hkind] at hport
      cases hport
  | runGather hx =>
    have hgather := h.kind_of_runGather hrunning hmem
    obtain ⟨e, he, hproducer, rfl⟩ := hedge hx
    obtain ⟨-, ⟨count, hkind⟩ | ⟨⟨comparator, hkind⟩, -⟩⟩ := hshape.sifts_edge he hsifts
    · rw [hproducer, hgather] at hkind
      cases hkind
    · rw [hproducer, hgather] at hkind
      cases hkind
  | sortRecords hx =>
    obtain ⟨sources, rfl⟩ := hfits
    exact ⟨_, sources, hcommand, Or.inl ⟨hedge hx, hfills.sorts rfl⟩⟩
  | sortValues hx =>
    obtain ⟨o, rfl⟩ := hfits
    obtain ⟨comparator, hsort⟩ := h.static.kind_of_valueSort hc
    obtain ⟨u, sources, hshuffle, ⟨hdirect, hauthor⟩ | ⟨v, comparator', o', hsort', -, hout, -⟩⟩ :=
      hs.sorts _ o _ (Or.inl hcommand)
    · exact ⟨u, sources, hshuffle,
        Or.inr ⟨_, comparator, o, hsort, hdirect, hedge hx, hfills.sorts rfl, hauthor⟩⟩
    · -- there is no value sort behind a value sort
      obtain ⟨e, he, hproducer, hconsumer⟩ := hout
      have hsifts' : Sifts g e.consumer := Or.inl ⟨comparator, by rw [hconsumer]; exact hsort⟩
      obtain ⟨-, ⟨count, hkind⟩ | ⟨-, hno⟩⟩ := hshape.sifts_edge he hsifts'
      · rw [hproducer, hsort'] at hkind
        cases hkind
      · exact absurd (by rw [hconsumer]; exact hsort) (hno comparator)

theorem Sifted.apply (hs : Sifted g author s) (hshape : Shape config g) (hrun : Run g lm s)
    (hrunning : (s.workers w).activity = .running t)
    (hprogram : (s.workers w).program = op :: rest) (heffect : Performs g s w op e)
    (hc : s.commands[t]? = some c) (hfills : Fills content author s c op) :
    Sifted g author (s.apply w rest e) := by
  have h := run_invariant hshape.waits hrun
  have hmem : op ∈ (s.workers w).program := mem_program hprogram
  have hkept : ∀ {x p o}, Picked g author s.commands x p o →
      Picked g author (s.apply w rest e).commands x p o := fun hpicked => hpicked.mono _
  refine ⟨fun w' x p o hop hsifts => ?_, fun v o p hmade => ?_,
    fun l inputs p hmade q o hinput hsifts => ?_, fun l p row q o hrow hentry hsifts => ?_⟩
  · rcases mem_program_apply hprogram hop with hop | hop
    · exact hkept (hs.deliveries w' x p o hop hsifts)
    · exact hkept (hs.picked_of_delivers h hshape hrunning hmem hc hfills (heffect.delivers hop) hsifts)
  · rcases made_apply heffect hprogram hmade with hmade | hspawns
    · exact hkept (hs.sorts v o p hmade)
    · cases hspawns with
      | @valueSort x comparator hkind _ _ =>
        obtain ⟨e', he', rfl⟩ := run_directed hshape.waits hrun hrunning hc hmem
        have hpicked := hkept (hs.deliveries w _ p o hmem (Or.inl ⟨comparator, hkind⟩))
        rwa [← Prod.mk.eta (p := e'.consumer), hshape.port_of_valueSort he' hkind] at hpicked
  · rcases made_apply heffect hprogram hmade with hmade | hspawns
    · exact hkept (hs.runs l inputs p hmade q o hinput hsifts)
    · cases hspawns
      cases hrow : (s.locals l).partitionedPool[p]? with
      | none =>
        rw [hrow] at hinput
        cases hinput
      | some row =>
        rw [hrow, Option.getD_some] at hinput
        exact hkept (hs.pools l p row q o hrow hinput hsifts)
  · have hold : (s.locals l).partitionedPool[p]? = some row →
        Picked g author (s.apply w rest e).commands (l, q) p o := fun hrow =>
      hkept (hs.pools l p row q o hrow hentry hsifts)
    cases heffect.poolChange_apply rest l with
    | keep hpool => exact hold (hpool ▸ hrow)
    | countDown hpool => exact hold (hpool ▸ hrow)
    | @store port p' o' _ hport hplace hpool =>
      rw [hpool, List.getElem?_modify] at hrow
      by_cases hp : p' = p
      · subst hp
        obtain ⟨row', hrow', hset⟩ := Option.map_eq_some_iff.mp hrow
        simp only [if_true] at hset
        rw [← hset, List.getElem?_set] at hentry
        split at hentry
        · next hq =>
          split at hentry
          · obtain rfl : o' = o := by simpa using hentry
            obtain rfl : port = (l, q) := Prod.ext hport hq
            exact hkept (hs.deliveries w _ p' o' hmem hsifts)
          · cases hentry
        · exact hkept (hs.pools l p' row' q o hrow' hentry hsifts)
      · exact hold (by simpa [hp] using hrow)
    | @move p' _ hpool =>
      rw [hpool, List.getElem?_set] at hrow
      split at hrow
      · split at hrow
        · cases hrow
          cases hentry
        · cases hrow
      · exact hold hrow

theorem run_sifted (hshape : Shape config g) (hrun : FilledRun g lm content author s) :
    Sifted g author s := by
  refine filled_induction hshape.waits (P := fun s : State n => Sifted g author s) ?_ ?_ ?_ hrun
  · intro draws
    have hnone : ∀ {c}, Made (State.start g (Plan.setUp g lm draws) : State n) c →
        ∃ kind l place, c = commandAt kind l place := by
      rintro c (hc | ⟨w, hop⟩)
      · exact commands_setUp g lm draws c hc
      · cases hop
    refine ⟨fun w x p o hop => (by cases hop), fun v o p hmade => ?_,
      fun l inputs p hmade => ?_, fun l p row q o hrow hentry => ?_⟩
    · obtain ⟨kind, l, place, hcommand⟩ := hnone hmade
      cases kind <;> cases place <;> cases hcommand
    · obtain ⟨kind, l, place, hcommand⟩ := hnone hmade
      cases kind <;> cases place <;> cases hcommand
    · simp only [State.start] at hrow
      have hmem := List.mem_of_getElem? hrow
      have hentry := List.mem_of_getElem? hentry
      cases hk : (g.kindOf l).getD .gather <;> rw [hk] at hmem <;>
        simp only [Local.create, List.not_mem_nil] at hmem
      rw [(List.mem_replicate.mp hmem).2] at hentry
      cases (List.mem_replicate.mp hentry).2
  · intro s w t c op rest e hrun _ hs hrunning _ hprogram heffect hc hfills
    exact hs.apply hshape hrun hrunning hprogram heffect hc hfills
  · intro s s' _ hs hbetween
    refine ⟨fun w x p o hop hsifts => ?_, fun v o p hmade => ?_, fun l inputs p hmade => ?_,
      fun l p row q o hrow => ?_⟩
    · obtain ⟨w', hop'⟩ := hbetween.mem_program hop fun _ _ => Op.noConfusion
      rw [hbetween.commands]
      exact hs.deliveries w' x p o hop' hsifts
    · rw [hbetween.commands]
      exact hs.sorts v o p (hbetween.made hmade)
    · rw [hbetween.commands]
      exact hs.runs l inputs p (hbetween.made hmade)
    · rw [hbetween.locals] at hrow
      rw [hbetween.commands]
      exact hs.pools l p row q o hrow

end Partitions

end M3bp.Engine
