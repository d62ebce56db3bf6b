import M3bp.EngineJoins
import M3bp.PartitionJoin

/-!
What the ports are given, in the terms of the flow graph. When the run is over, each run of a
partition has been given what a sort has made of all records that the sources of its ports have
emitted, a processor has found everything that the sources of its broadcast ports emit when it
was initialised, and at a one-to-one port all that the sources have emitted has been consumed.
-/
namespace M3bp.Engine

open Finset GraphBuilder LogicalGraph SchedulerCalls Transition
open PartitionJoin (joinProcessor)

variable {n : ℕ} {R : Type}

/-- The records of a flushed fragment that go to port `y` of the logical graph. -/
def Note.gives (g : LogicalGraph) (content : Object → Multiset R) (y : PortKey) : Note → Multiset R
  | flushed x o => edgesBetween g x y • content o
  | _ => 0

/-- The records of a flushed fragment that an input port of the flow graph is to be given. -/
def Note.emits (fg : FlowGraph) (content : Object → Multiset R) (x : PortKey) : Note → Multiset R
  | flushed source o => (sourcesOf fg.vertices x).count source • content o
  | _ => 0

/-- What the sources of an input port have emitted. -/
def State.emitted (fg : FlowGraph) (content : Object → Multiset R) (s : State n) (x : PortKey) :
    Multiset R := (s.notes.map (Note.emits fg content x)).sum

variable {config : Configuration} {g : LogicalGraph} {lm : LocalityManager}
  {content : Object → Multiset R} {author : Object → Command} {s s' : State n} {w : Fin n} {y : PortKey}

section Totals

theorem takes_eq_map (content : Object → Multiset R) (y : PortKey) (notes : List Note) :
    (notes.map (Note.takes content y)).sum =
      ((notes.map (Note.takes (fun o => ({o} : Multiset Object)) y)).sum.map content).sum := by
  induction notes with
  | nil => rfl
  | cons note notes ih =>
    rw [List.map_cons, List.map_cons, List.sum_cons, List.sum_cons, Multiset.map_add,
      Multiset.sum_add, ih]
    congr 1
    cases note with
    | consumed x o =>
      simp only [Note.takes]
      split <;> simp
    | _ => rfl

theorem gives_eq_map (g : LogicalGraph) (content : Object → Multiset R) (y : PortKey)
    (notes : List Note) :
    (notes.map (Note.gives g content y)).sum =
      ((notes.map (Note.gives g (fun o => ({o} : Multiset Object)) y)).sum.map content).sum := by
  induction notes with
  | nil => rfl
  | cons note notes ih =>
    rw [List.map_cons, List.map_cons, List.sum_cons, List.sum_cons, Multiset.map_add,
      Multiset.sum_add, ih]
    congr 1
    cases note with
    | flushed x o => simp [Note.gives, Multiset.map_nsmul, Multiset.sum_nsmul]
    | _ => rfl

theorem count_takes (y : PortKey) (o : Object) (notes : List Note) :
    (notes.map (Note.takes (fun o => ({o} : Multiset Object)) y)).sum.count o =
      (notes.map (Note.consumes (y, o))).sum := by
  induction notes with
  | nil => rfl
  | cons note notes ih =>
    rw [List.map_cons, List.map_cons, List.sum_cons, List.sum_cons, Multiset.count_add, ih]
    congr 1
    cases note with
    | consumed x o' =>
      by_cases hx : x = y
      · by_cases ho : o = o'
        · simp [Note.takes, Note.consumes, hx, ho]
        · simp [Note.takes, Note.consumes, hx, ho, Ne.symm ho]
      · simp [Note.takes, Note.consumes, hx]
    | _ => rfl

theorem count_gives (h : Shape config g) (o : Object) {notes : List Note}
    (hsources : ∀ x o, .flushed x o ∈ notes → x.2 < outputPortCount g x.1) :
    (notes.map (Note.gives g (fun o => ({o} : Multiset Object)) y)).sum.count o =
      (notes.map (Note.sends g (y, o))).sum := by
  induction notes with
  | nil => rfl
  | cons note notes ih =>
    rw [List.map_cons, List.map_cons, List.sum_cons, List.sum_cons, Multiset.count_add,
      ih fun x o' hmem => hsources x o' (List.mem_cons_of_mem _ hmem)]
    congr 1
    cases note with
    | flushed x o' =>
      have hport := hsources x o' List.mem_cons_self
      have hsent : ∀ y' ∈ g.successorsOf x, (consumerOf g y').map (·, o') = some (y', o') :=
        fun y' hy' => by rw [(h.consumerOf_eq hport hy').2, Option.map_some]
      rw [Note.gives, Note.sends, Multiset.count_nsmul, ← count_successorsOf h.delivers,
        List.count_eq_countP, Multiset.count_singleton]
      by_cases ho : o = o'
      · rw [if_pos ho, Nat.mul_one]
        refine List.countP_congr fun y' hy' => ?_
        simp [hsent y' hy', ho]
      · rw [if_neg ho, Nat.mul_zero]
        symm
        refine List.countP_eq_zero.mpr fun y' hy' => ?_
        simp [hsent y' hy', Ne.symm ho]
    | _ => rfl

/-- When the run is over, a port where fragments are consumed has taken in all that has been
flushed to it. -/
theorem takenIn_of_finished (h : Shape config g) (hy : consumerOf g y = some y) (hrun : Run g lm s)
    (hfinished : s.system.scheduler.isFinished = true) (content : Object → Multiset R) :
    s.takenIn content y = (s.notes.map (Note.gives g content y)).sum := by
  rw [State.takenIn, takes_eq_map, gives_eq_map]
  congr 2
  ext o
  have hledger := run_ledger (z := (y, o)) h hy hrun
  have hgathering : gathering s y.1 = 0 := tokens_of_finished h.waits hrun hfinished _ _
  have hnone : travelling g s (y, o) = 0 := by
    rw [travelling, tokens_of_finished h.waits hrun hfinished, waits]
    simp [hgathering]
  rw [count_takes, count_gives h o fun x o' hmem => run_flushed_process h.waits hrun hmem]
  omega

end Totals

section Paths

/-- The kinds of tasks that take in what several sources send. -/
def Pools (kind : TaskKind) : Prop := kind = .gather ∨ ∃ count, kind = .shuffle count

theorem Pools.isIntermediate {kind : TaskKind} (h : Pools kind) : kind.isIntermediate = true := by
  rcases h with rfl | ⟨count, rfl⟩
  · rfl
  · rfl

theorem pathCount_unique {source target : PortKey} {k k' : ℕ} (h : g.PathCount source target k)
    (h' : g.PathCount source target k') : k = k' := by
  obtain ⟨paths, hnodup, hmem, rfl⟩ := h
  obtain ⟨paths', hnodup', hmem', rfl⟩ := h'
  have hperm := (List.perm_ext_iff_of_nodup hnodup hnodup').mpr fun path =>
    (hmem path).trans (hmem' path).symm
  exact hperm.length_eq

theorem count_incoming (g : LogicalGraph) (x y : PortKey) :
    ((g.incoming y).map Prod.fst).count x = edgesBetween g x y := by
  rw [LogicalGraph.incoming, List.map_map, List.count, List.countP_map, List.countP_filter,
    edgesBetween]
  refine List.countP_congr fun e _ => ?_
  simp

/-- The edges into a shuffle or a gather, and into a one-to-one port, come from processors. -/
theorem Shape.pathCount_edges (h : Shape config g) {kind : TaskKind}
    (hkind : g.kindOf y.1 = some kind) (hdirect : Pools kind ∨ HasPort kind y.2 .oneToOne)
    (x : PortKey) : g.PathCount x y (edgesBetween g x y) := by
  rw [← count_incoming]
  refine pathCount_direct fun p hp => ?_
  obtain ⟨e, he, rfl, rfl⟩ := exists_edge_iff.mpr hp
  rintro ⟨kind₁, hkind₁, hyes⟩
  obtain ⟨kind₂, kind', hkind₂, hkind', hjoins⟩ := h.joins e he
  rw [hkind₁, Option.some.injEq] at hkind₂
  rw [hkind, Option.some.injEq] at hkind'
  subst hkind₂ hkind'
  have hport : ∀ {movement}, HasPort kind e.consumer.2 movement → movement = .oneToOne := by
    rintro movement ⟨proc, iport, hproc, hget, rfl⟩
    rcases hdirect with hpools | ⟨proc', iport', hproc', hget', hmovement⟩
    · rcases hpools with rfl | ⟨count, rfl⟩
      · cases hproc
      · cases hproc
    · rw [hproc, Option.some.injEq] at hproc'
      subst hproc'
      rw [hget, Option.some.injEq] at hget'
      rw [hget', hmovement]
  generalize e.physicalSuccessor = succ at hjoins
  generalize e.consumer.2 = q at hjoins hport hdirect
  cases hjoins with
  | shuffle hno | gather hno | oneToOne hno =>
    rw [hno] at hyes
    cases hyes
  | valueSort =>
    rcases hdirect with (hgather | ⟨count, hshuffle⟩) | ⟨proc, iport, hproc, -⟩
    · cases hgather
    · cases hshuffle
    · cases hproc
  | broadcast hport' | partitions hport' | sorted hport' => cases hport hport'

/-- A shuffle, a gather and a value sort are fed at their one port. -/
theorem Shape.incoming_intermediate (h : Shape config g) {u : ℕ} (hu : g.IsIntermediate u) {q : ℕ}
    (hq : q ≠ 0) : g.incoming (u, q) = [] := by
  obtain ⟨kind, hkind, hyes⟩ := hu
  refine List.eq_nil_iff_forall_not_mem.mpr ?_
  rintro ⟨producer, succ⟩ hin
  have he : (⟨producer, (u, q), succ⟩ : Edge) ∈ g.edges := mem_incoming.mp hin
  obtain ⟨kind₁, kind', -, hkind', hjoins⟩ := h.joins _ he
  obtain rfl : kind = kind' := Option.some.inj (hkind.symm.trans hkind')
  have hjoins : Joins kind₁ kind q succ := hjoins
  cases hjoins with
  | shuffle | gather | valueSort => exact hq rfl
  | oneToOne _ hport | broadcast hport | partitions hport | sorted hport =>
    rw [hport.isIntermediate] at hyes
    cases hyes

/-- The data paths to a port lead through the shuffle or the gather behind it. -/
theorem Shape.pathCount_fedBy (h : Shape config g) {u : ℕ} {kind : TaskKind}
    (hu : g.kindOf u = some kind) (hpools : Pools kind) (hfed : g.FedBy u y)
    (hone : (g.incoming y).length = 1) {x : PortKey} (hx : ¬ g.IsIntermediate x.1) :
    g.PathCount x y (edgesBetween g x (u, 0)) := by
  have hmiddle : g.IsIntermediate u := ⟨kind, hu, hpools.isIntermediate⟩
  have honly : ∀ {e : Edge} {y : PortKey}, (g.incoming y).length = 1 → e ∈ g.edges →
      e.consumer = y → g.incoming y = [(e.producer, e.physicalSuccessor)] := by
    rintro e y hone he rfl
    obtain ⟨a, ha⟩ := List.length_eq_one_iff.mp hone
    have hmem : (e.producer, e.physicalSuccessor) ∈ g.incoming e.consumer := mem_incoming.mpr he
    rw [ha] at hmem
    rw [ha, List.mem_singleton.mp hmem]
  have hthrough : ∀ {m k : ℕ} {y : PortKey}, g.IsIntermediate m → (g.incoming y).length = 1 →
      (∃ e ∈ g.edges, e.producer = (m, 0) ∧ e.consumer = y) → g.PathCount x (m, 0) k →
      g.PathCount x y k := by
    rintro m k y hm hone ⟨e, he, hproducer, hconsumer⟩ hpaths
    have hin := honly hone he hconsumer
    rw [hproducer] at hin
    refine pathCount_through hin hm (fun q hq => h.incoming_intermediate hm hq) ?_ hpaths
    rintro rfl
    exact hx hm
  have hedges := h.pathCount_edges (y := (u, 0)) hu (Or.inl hpools) x
  rcases hfed with hdirect | ⟨v, comparator, hv, hfirst, hlast⟩
  · exact hthrough hmiddle hone hdirect hedges
  · exact hthrough ⟨_, hv, rfl⟩ hone hlast
      (hthrough hmiddle (h.sorts v comparator hv) hfirst hedges)

end Paths

section Sided

/-! A run with one worker, in which one fragment goes to a scatter-gather port and to a broadcast
port. -/

def sided : FlowGraph :=
  FlowGraph.build
    [.addVertex "source" sourceProcessor, .addVertex "sink" joinProcessor, .addEdge (0, 0) (1, 0),
      .addEdge (0, 0) (1, 1)]

def sidedGraph : LogicalGraph :=
  let name := concatPortNames sided.vertices [(0, 0)]
  { tasks :=
      [{ kind := .inputProcess sourceProcessor 1, taskName := "source",
          successors := [[(2, 0), (3, 0)]] },
        { kind := .scatterGatherProcess joinProcessor 1 2, taskName := "sink", successors := [] },
        { kind := .shuffle 2, taskName := name ++ ".shuffle", successors := [[(1, 0)]] },
        { kind := .gather, taskName := name ++ ".gather", successors := [[(1, 1)]] }]
    edges :=
      [{ producer := (0, 0), consumer := (2, 0), physicalSuccessor := .barrier },
        { producer := (0, 0), consumer := (3, 0), physicalSuccessor := .entry },
        { producer := (2, 0), consumer := (1, 0), physicalSuccessor := .barrier },
        { producer := (3, 0), consumer := (1, 1), physicalSuccessor := .entry }] }

theorem slots_sided : inputSlots sided.vertices =
    [⟨(1, 0), "sink", ⟨"in", .scatterGather, none⟩, [(0, 0)]⟩,
      ⟨(1, 1), "sink", ⟨"side", .broadcast, none⟩, [(0, 0)]⟩] := rfl

theorem build_sided :
    buildLogicalGraph { maxConcurrency := 1, partitionCount := 2 } sided = .ok sidedGraph := by
  have hsort : normalizePortSet [(0, 0)] = [(0, 0)] := by simp [normalizePortSet]
  simp only [buildLogicalGraph, slots_sided, List.foldl_cons, List.foldl_nil,
    createIntermediateNode, createShuffleNode, createGatherNode, List.foldlM_cons,
    List.foldlM_nil, createPortEdges, hsort]
  rfl

theorem vertices_sided : sided.vertices =
    [Vertex.create "source" sourceProcessor,
      ((Vertex.create "sink" joinProcessor).addSource 0 (0, 0)).addSource 1 (0, 0)] := rfl

theorem acyclic_sided : Acyclic sided.Feeds := by
  refine Acyclic.of_rank id ?_
  rintro u v ⟨p, j, hmem⟩
  rw [vertices_sided] at hmem
  rcases v with _ | _ | v
  · simp [sourcesOf, Vertex.create, sourceProcessor] at hmem
  · rcases j with _ | _ | j
    · have hsource : (u, p) = ((0, 0) : PortKey) := by
        simpa [sourcesOf, Vertex.create, Vertex.addSource, joinProcessor] using hmem
      simp [(Prod.mk.inj hsource).1]
    · have hsource : (u, p) = ((0, 0) : PortKey) := by
        simpa [sourcesOf, Vertex.create, Vertex.addSource, joinProcessor] using hmem
      simp [(Prod.mk.inj hsource).1]
    · simp [sourcesOf, Vertex.create, Vertex.addSource, joinProcessor] at hmem
  · simp [sourcesOf] at hmem

theorem definedMovements_sided : sided.DefinedMovements := by
  rintro ⟨i, j⟩ iport hin
  rw [vertices_sided] at hin
  rcases i with _ | _ | i
  · simp [inputPort?, Vertex.create, sourceProcessor] at hin
  · rcases j with _ | _ | j
    · have hport : _ = iport := Option.some.inj hin
      rw [← hport]
      decide
    · have hport : _ = iport := Option.some.inj hin
      rw [← hport]
      decide
    · simp [inputPort?, Vertex.create, Vertex.addSource, joinProcessor] at hin
  · simp [inputPort?] at hin

def sidedWork (w : Fin n) (k : ℕ) : List (Move n) := List.replicate k (.work w)

/-- The sink is being initialised after these. -/
def sidedMoves (w : Fin n) : List (Move n) :=
  let work := sidedWork w
  List.flatten
    [[.steal w 0], work 16, [.steal w 0], work 4, [.steal w 0], work 6,
      [.allocate w 8, .flush w 0 1 0], work 14, [.steal w 0], work 5, [.steal w 0], work 10,
      [.take w], work 9, [.steal w 0], work 9, [.steal w 0], work 21, [.steal w 0], work 7,
      [.steal w 0], work 14, [.steal w 0], work 12, [.steal w 0], work 3]

def sidedRest (w : Fin n) : List (Move n) :=
  let work := sidedWork w
  List.flatten
    [work 8, [.steal w 0], work 4, [.steal w 0], work 14, [.steal w 0], work 9, [.steal w 0],
      work 10, [.take w], work 9, [.steal w 0], work 7]

/-- A run in which the source flushes the records that it is asked for. -/
theorem exists_sided (records : Multiset R) {moves : List (Move 1)} {p : State 1 → Prop} [DecidablePred p]
    (h : ((replay? sidedGraph .default 1 moves).any fun s =>
      .flushed (0, 0) 0 ∈ s.notes ∧ p s) = true) :
    ∃ (content : Object → Multiset R) (author : Object → Command) (s : State 1),
      FilledRun sidedGraph .default content author s ∧ .flushed (0, 0) 0 ∈ s.notes ∧
      (∀ x o, .flushed x o ∈ s.notes → content o = records) ∧ p s := by
  obtain ⟨s, hrun, hend⟩ := exists_of_replay? h
  rw [decide_eq_true_eq] at hend
  have hwaits := (shape_of_build build_sided acyclic_sided definedMovements_sided).waits
  obtain ⟨content, author, hfilled, -, hown⟩ := exists_filled hwaits (fun _ => records) hrun
  exact ⟨content, author, s, hfilled, hend.1, hown, hend.2⟩

theorem initializing_sided : ((replay? sidedGraph .default 1 (sidedMoves 0)).any fun s =>
    .flushed (0, 0) 0 ∈ s.notes ∧ .inCallback 1 .globalInitialize ∈ (s.workers 0).program) =
      true := by decide +kernel

theorem finished_sided : ((replay? sidedGraph .default 1 (sidedMoves 0 ++ sidedRest 0)).any fun s =>
    .flushed (0, 0) 0 ∈ s.notes ∧ s.system.scheduler.isFinished = true) = true := by
  decide +kernel

end Sided

section Ports

variable {fg : FlowGraph}

/-- Only processors flush, through the output ports that they have in the flow graph. -/
theorem outputPort_of_flushed (hmeaning : SameMeaning config fg g) {x : PortKey}
    (hx : x.2 < outputPortCount g x.1) :
    (∃ oport, outputPort? fg.vertices x = some oport) ∧ ¬ g.IsIntermediate x.1 := by
  have hprocess : ¬ g.IsIntermediate x.1 := by
    rintro ⟨kind, hkind, hyes⟩
    rw [outputPortCount, hkind] at hx
    cases kind <;> first
      | cases hx
      | cases hyes
  refine ⟨?_, hprocess⟩
  have hlt : x.1 < g.tasks.length := by
    by_contra hge
    have hnone : g.kindOf x.1 = none := by
      rw [kindOf, List.getElem?_eq_none (Nat.le_of_not_lt hge), Option.map_none]
    rw [outputPortCount, hnone] at hx
    cases hx
  have hvertex : x.1 < fg.vertices.length := by
    by_contra hge
    exact hprocess (hmeaning.intermediate x.1 (Nat.le_of_not_lt hge) hlt)
  have hv : fg.vertices[x.1]? = some fg.vertices[x.1] := List.getElem?_eq_getElem hvertex
  have hports : outputPortCount g x.1 = fg.vertices[x.1].processor.outputPorts.length := by
    rw [outputPortCount, (hmeaning.processes x.1 _ hv).1]
    unfold createProcessTask
    split_ifs <;> rfl
  rw [hports] at hx
  refine ⟨fg.vertices[x.1].processor.outputPorts[x.2], ?_⟩
  rw [outputPort?, hv, Option.bind_some]
  exact List.getElem?_eq_getElem hx

/-- The records flushed to the node behind an input port are those that its sources emit. -/
theorem gives_eq_emitted (h : Shape config g) (hmeaning : SameMeaning config fg g)
    (hrun : Run g lm s) {target : PortKey} {iport : InputPort}
    (hport : inputPort? fg.vertices target = some iport)
    (hpaths : ∀ x : PortKey, ¬ g.IsIntermediate x.1 → g.PathCount x target (edgesBetween g x y)) :
    (s.notes.map (Note.gives g content y)).sum = s.emitted fg content target := by
  refine congrArg List.sum (List.map_congr_left fun note hnote => ?_)
  cases note with
  | flushed x o =>
    obtain ⟨⟨oport, hout⟩, hprocess⟩ :=
      outputPort_of_flushed hmeaning (run_flushed_process h.waits hrun hnote)
    have hsame := pathCount_unique (hpaths x hprocess) (hmeaning.paths x target oport iport hout hport)
    rw [Note.gives, Note.emits, hsame]
  | _ => rfl

/-- When the run is over, the shuffle or gather behind a port has taken in what the sources of
the port have emitted. -/
theorem takenIn_fedBy (h : Shape config g) (hmeaning : SameMeaning config fg g) (hrun : Run g lm s)
    (hfinished : s.system.scheduler.isFinished = true) {u : ℕ} {kind : TaskKind}
    (hu : g.kindOf u = some kind) (hpools : Pools kind) {target : PortKey} {iport : InputPort}
    (hport : inputPort? fg.vertices target = some iport)
    (hmovement : iport.movement = .scatterGather ∨ iport.movement = .broadcast)
    (hfed : g.FedBy u target) : s.takenIn content (u, 0) = s.emitted fg content target := by
  have hconsumer : consumerOf g (u, 0) = some (u, 0) := by
    rcases hpools with rfl | ⟨count, rfl⟩
    · simp [consumerOf, hu]
    · simp [consumerOf, hu]
  rw [takenIn_of_finished h hconsumer hrun hfinished]
  exact gives_eq_emitted h hmeaning hrun hport fun x hx =>
    h.pathCount_fedBy hu hpools hfed (hmeaning.single target iport hport hmovement) hx

theorem kind_of_port (hmeaning : SameMeaning config fg g) {l q : ℕ} {iport : InputPort}
    (hport : inputPort? fg.vertices (l, q) = some iport) :
    ∃ v, fg.vertices[l]? = some v ∧ g.kindOf l = some (createProcessTask config v.processor) ∧
      HasPort (createProcessTask config v.processor) q iport.movement := by
  obtain ⟨v, hv⟩ := exists_vertex hport
  exact ⟨v, hv, (hmeaning.processes l v hv).1, hasPort_createProcessTask hv hport⟩

/-- The kind of a processor with a scatter-gather port. -/
theorem kind_of_scatterGather (hmeaning : SameMeaning config fg g) {l q : ℕ} {iport : InputPort}
    (hport : inputPort? fg.vertices (l, q) = some iport) (hmovement : iport.movement = .scatterGather) :
    ∃ proc, g.kindOf l =
      some (.scatterGatherProcess proc config.maxConcurrency config.partitionCount) := by
  obtain ⟨v, hv, hkind, -⟩ := kind_of_port hmeaning hport
  refine ⟨v.processor, ?_⟩
  have hmem : iport ∈ v.processor.inputPorts := by
    rw [inputPort?, hv, Option.bind_some] at hport
    exact List.mem_of_getElem? hport
  have hno : (v.processor.inputPorts.any fun p => p.movement = .oneToOne) = false := by
    by_contra hyes
    obtain ⟨p, hp, hone⟩ := List.any_eq_true.mp (Bool.of_not_eq_false hyes)
    exact v.processor.consistent ⟨⟨p, hp, of_decide_eq_true hone⟩, ⟨iport, hmem, hmovement⟩⟩
  have hyes : (v.processor.inputPorts.any fun p => p.movement = .scatterGather) = true :=
    List.any_eq_true.mpr ⟨iport, hmem, decide_eq_true hmovement⟩
  rw [hkind, createProcessTask, if_neg (by rw [hno]; exact Bool.false_ne_true), if_pos hyes]

/-- When the run is over, a partition of a processor has been run once. -/
theorem joined_of_finished (h : Shape config g) (hrun : Run g lm s)
    (hfinished : s.system.scheduler.isFinished = true) {proc : Processor}
    {l p workerCount count : ℕ}
    (hkind : g.kindOf l = some (.scatterGatherProcess proc workerCount count)) (hp : p < count) :
    ∃ t inputs, s.commands[t]? = some (.scatterGatherRun l inputs p) ∧
      .finished t ∈ s.system.log ∧
      ∀ t' inputs', s.commands[t']? = some (.scatterGatherRun l inputs' p) → t' = t := by
  have hsum : (s.commands.map (marked Command.joins (l, p))).sum = 1 := by
    have honce := run_joined h hrun hkind hp
    have hcoming : coming g s l p = 0 := tokens_of_finished h.waits hrun hfinished _ _
    have hmoving : moving s (l, p) = 0 := tokens_of_finished h.waits hrun hfinished _ _
    rw [joined, tokens_of_finished h.waits hrun hfinished, hmoving, if_pos hcoming] at honce
    exact honce
  obtain ⟨t, c, hc, hjoins⟩ : ∃ (t : TaskId) (c : Command), s.commands[t]? = some c ∧
      c.joins = some (l, p) := by
    by_contra hnone
    push Not at hnone
    have hzero : (s.commands.map (marked Command.joins (l, p))).sum = 0 :=
      sum_marked_eq_zero fun c hmem => by
        obtain ⟨t, ht, rfl⟩ := List.mem_iff_getElem.mp hmem
        exact hnone t _ (List.getElem?_eq_getElem ht)
    omega
  obtain ⟨inputs, rfl⟩ : ∃ inputs, c = .scatterGatherRun l inputs p := by
    cases c with
    | scatterGatherRun l' inputs p' =>
      cases hjoins
      exact ⟨inputs, rfl⟩
    | _ => cases hjoins
  refine ⟨t, inputs, hc, ?_, fun t' inputs' hc' => ?_⟩
  · exact executed_of_finished h.waits hrun hfinished (List.getElem?_eq_some_iff.mp hc).1
  · have hone : ∀ inputs, marked Command.joins (l, p) (.scatterGatherRun l inputs p) = 1 :=
      fun _ => marked_of_eq rfl
    exact Counting.eq_of_sum_le_one (k := marked Command.joins (l, p)) (by omega) hc' hc
      (by rw [hone]; exact Nat.one_pos) (by rw [hone]; exact Nat.one_pos)

/-- The buffer at a port comes from a sort of all that the sources of the port have emitted. -/
theorem sorted_of_finished (h : Shape config g) (hmeaning : SameMeaning config fg g)
    (hrun : FilledRun g lm content author s) (hfinished : s.system.scheduler.isFinished = true)
    {proc : Processor} {l p q workerCount count : ℕ} {iport : InputPort}
    {inputs : List (Option Object)}
    (hkind : g.kindOf l = some (.scatterGatherProcess proc workerCount count)) (hp : p < count)
    (hport : inputPort? fg.vertices (l, q) = some iport) (hmovement : iport.movement = .scatterGather)
    (hmade : Made s (.scatterGatherRun l inputs p)) :
    ∃ o u sources, inputs[q]? = some (some o) ∧ SortedFrom author u p sources o ∧
      contents content sources = s.emitted fg content (l, q) := by
  have hplain := hrun.run
  obtain ⟨v, -, hkind', hfits⟩ := kind_of_port hmeaning hport
  rw [hkind, Option.some.injEq] at hkind'
  rw [← hkind', hmovement] at hfits
  obtain ⟨o, ho⟩ := (run_stocked (y := (l, q)) h hplain hkind hfits hp).inputs inputs hmade
  obtain ⟨u, sources, hfed, hsort, hsorted⟩ :=
    ((run_sifted h hrun).runs l inputs p hmade q o ho (Or.inr ⟨_, hkind, hfits⟩)).sorted
  obtain ⟨t, ht, hget⟩ := List.mem_iff_getElem.mp hsort
  obtain ⟨count, hu⟩ := (run_invariant h.waits hplain).static.kind_of_shuffleSort
    (List.getElem?_eq_some_iff.mpr ⟨ht, hget⟩)
  refine ⟨o, u, sources, ho, hsorted, ?_⟩
  rw [(run_partitioned h.waits hu hrun).sources p sources (Or.inl hsort),
    takenIn_fedBy h hmeaning hplain hfinished hu (Or.inr ⟨count, rfl⟩) hport (Or.inl hmovement) hfed]

/-- When the run is over, each partition of a processor has been run once, and the buffer at each of
its scatter-gather ports has been sorted from what the sources of the port have emitted. -/
theorem partitions_joined (hacyclic : Acyclic fg.Feeds) (hmovements : fg.DefinedMovements)
    (hbuild : buildLogicalGraph config fg = .ok g) (hrun : FilledRun g lm content author s)
    (hfinished : s.system.scheduler.isFinished = true) {l p : ℕ}
    (hscatter : ∃ q iport, inputPort? fg.vertices (l, q) = some iport ∧
      iport.movement = .scatterGather) (hp : p < config.partitionCount) :
    ∃ t inputs, s.commands[t]? = some (.scatterGatherRun l inputs p) ∧
      .finished t ∈ s.system.log ∧
      (∀ t' inputs', s.commands[t']? = some (.scatterGatherRun l inputs' p) → t' = t) ∧
      ∀ q iport, inputPort? fg.vertices (l, q) = some iport → iport.movement = .scatterGather →
        ∃ o u sources, inputs[q]? = some (some o) ∧ SortedFrom author u p sources o ∧
          contents content sources = s.emitted fg content (l, q) := by
  have h := shape_of_build hbuild hacyclic hmovements
  obtain ⟨g', hg', hmeaning⟩ := sameMeaning config fg hacyclic hmovements
  obtain rfl : g = g' := Except.ok.inj (hbuild.symm.trans hg')
  obtain ⟨q₀, iport₀, hport₀, hmovement₀⟩ := hscatter
  obtain ⟨proc, hkind⟩ := kind_of_scatterGather hmeaning hport₀ hmovement₀
  obtain ⟨t, inputs, hc, hdone, hunique⟩ := joined_of_finished h hrun.run hfinished hkind hp
  refine ⟨t, inputs, hc, hdone, hunique, fun q iport hport hmovement => ?_⟩
  exact sorted_of_finished h hmeaning hrun hfinished hkind hp hport hmovement
    (Or.inl (List.mem_of_getElem? hc))

/-- What a broadcast port holds when its processor is initialised is all that its sources emit. -/
theorem broadcasts_complete (hacyclic : Acyclic fg.Feeds) (hmovements : fg.DefinedMovements)
    (hbuild : buildLogicalGraph config fg = .ok g) (hrun : FilledRun g lm content author s) {l q : ℕ}
    {iport : InputPort} (hport : inputPort? fg.vertices (l, q) = some iport)
    (hmovement : iport.movement = .broadcast)
    (hop : .inCallback l .globalInitialize ∈ (s.workers w).program ∨
      ∃ inputs, .call l .globalInitialize inputs ∈ (s.workers w).program) :
    ∃ o, (s.locals l).broadcastInputs[q]? = some (some o) ∧
      ∀ s', Reachable (fun s₀ => s₀ = s) (FilledStep g lm content author) s' →
        s'.system.scheduler.isFinished = true → content o = s'.emitted fg content (l, q) := by
  have h := shape_of_build hbuild hacyclic hmovements
  obtain ⟨g', hg', hmeaning⟩ := sameMeaning config fg hacyclic hmovements
  obtain rfl : g = g' := Except.ok.inj (hbuild.symm.trans hg')
  obtain ⟨v, -, hkind, hfits⟩ := kind_of_port hmeaning hport
  rw [hmovement] at hfits
  obtain ⟨o, ho⟩ := broadcast_of_globalInitialize h hrun.run hop hkind hfits
  refine ⟨o, ho, fun s' hlater hfinished => ?_⟩
  have hkept : FilledRun g lm content author s' ∧ Holds g content s' (l, q) o := by
    clear hfinished
    induction hlater with
    | start heq =>
      subst heq
      exact ⟨hrun, (run_announces (x := (l, q)) h hkind hfits hrun).stored o ho⟩
    | next _ hstep ih =>
      obtain ⟨hfilled, hholds⟩ := ih
      refine ⟨hfilled.next hstep, ?_⟩
      rcases (run_invariant h.waits hfilled.run).step_cases hstep.step with
        ⟨w, t, op, rest, e, hrunning, hcall, hprogram, heffect, rfl⟩ | hbetween
      · exact hholds.apply h.waits hfilled.run hrunning hcall hprogram heffect
      · exact hbetween.holds hholds
  obtain ⟨hfilled, u, hu, hsuccessor, -, hcontent⟩ := hkept
  have hfed : g.FedBy u (l, q) := Or.inl (mem_successorsOf h.delivers hsuccessor)
  rw [hcontent, takenIn_fedBy h hmeaning hfilled.run hfinished hu (Or.inl rfl) hport
    (Or.inr hmovement) hfed]

theorem broadcasts_complete_sided : ∃ (content : Object → Multiset ℕ) (author : Object → Command)
    (s : State 1), .flushed (0, 0) 0 ∈ s.notes ∧ content 0 = {0, 1} ∧
      ∃ o, (s.locals 1).broadcastInputs[1]? = some (some o) ∧
        ∀ s', Reachable (fun s₀ => s₀ = s) (FilledStep sidedGraph .default content author) s' →
          s'.system.scheduler.isFinished = true → content o = s'.emitted sided content (1, 1) := by
  obtain ⟨content, author, s, hrun, hflushed, hcontent, hop⟩ := exists_sided {0, 1} initializing_sided
  exact ⟨content, author, s, hflushed, hcontent _ _ hflushed, broadcasts_complete acyclic_sided definedMovements_sided
    build_sided hrun (l := 1) (q := 1) rfl rfl (Or.inl hop)⟩

/-- At a one-to-one port everything has been consumed that the sources have emitted. -/
theorem oneToOne_consumed (hacyclic : Acyclic fg.Feeds) (hmovements : fg.DefinedMovements)
    (hbuild : buildLogicalGraph config fg = .ok g) (hrun : Run g lm s)
    (hfinished : s.system.scheduler.isFinished = true) {target : PortKey} {iport : InputPort}
    (hport : inputPort? fg.vertices target = some iport) (hmovement : iport.movement = .oneToOne)
    (content : Object → Multiset R) : s.takenIn content target = s.emitted fg content target := by
  have h := shape_of_build hbuild hacyclic hmovements
  obtain ⟨g', hg', hmeaning⟩ := sameMeaning config fg hacyclic hmovements
  obtain rfl : g = g' := Except.ok.inj (hbuild.symm.trans hg')
  obtain ⟨v, hv, hkind, hfits⟩ := kind_of_port hmeaning (l := target.1) (q := target.2) hport
  rw [hmovement] at hfits
  have hget : v.processor.inputPorts[target.2]? = some iport := by
    rwa [inputPort?, hv, Option.bind_some] at hport
  have hconsumer : consumerOf g target = some target := by
    have hyes : (v.processor.inputPorts.any fun p => p.movement = .oneToOne) = true :=
      List.any_eq_true.mpr ⟨iport, List.mem_of_getElem? hget, decide_eq_true hmovement⟩
    rw [createProcessTask, if_pos hyes] at hkind
    simp [consumerOf, hkind, hget, hmovement]
  rw [takenIn_of_finished h hconsumer hrun hfinished]
  exact gives_eq_emitted h hmeaning hrun hport fun x _ => h.pathCount_edges hkind (Or.inr hfits) x

theorem oneToOne_consumed_pipe : ∃ s : State 1, s.objectSizes = [8] ∧
    s.takenIn (fun o => ({o} : Multiset Object)) (1, 0) =
      s.emitted pipe (fun o => ({o} : Multiset Object)) (1, 0) := by
  obtain ⟨s, hrun, hfinished, hsizes⟩ := exists_run_pipe
  exact ⟨s, hsizes, oneToOne_consumed acyclic_pipe definedMovements_pipe build_pipe hrun hfinished
    rfl rfl fun o => {o}⟩

end Ports

end M3bp.Engine
