import M3bp.EngineEmitted
import M3bp.Gather
import M3bp.GroupedRecords

/-!
What the buffers show in their bytes. The sort of a shuffle is `sort_records` on the buffers that
its barrier has handed to it, wherever they lie, and a value sort copies what it has written.
With that, each partition of a processor is run on the records of the partition that have been
emitted, grouped by their keys where no key reads like another one with zeros behind it.
-/
namespace M3bp.Engine

open Shuffle (Arrival Arrivals SortedPartition memoryAfter keyPartition partitionRecords recordAt)

variable {content : Object → Multiset Record} {author : Object → Command}

theorem contents_of_fragments {R A : Type} {content : Object → Multiset R} {objects : List Object}
    {fragments : List A} {records : A → List R}
    (h : List.Forall₂ (fun o f => content o = records f) objects fragments) :
    contents content objects = .ofList (fragments.flatMap records) := by
  induction h with
  | nil => rfl
  | @cons o f objects fragments ho _ ih =>
    have hcons : contents content (o :: objects) = content o + contents content objects := by
      simp [contents]
    rw [hcons, ho, ih, Multiset.coe_add, List.flatMap_cons]

/-- The buffers lie where `partition_fragment` has put the fragments. -/
def Arrived (content : Object → Multiset Record) (sources : List Object) (arrivals : List Arrival) :
    Prop :=
  List.Forall₂ (fun o a => content o = .ofList a.fragment.records) sources arrivals

/-- What the commands that sort can leave in the bytes of an object. -/
inductive Outcome (P : ℕ) (content : Object → Multiset Record) (author : Object → Command) :
    Object → GroupedFragment → Prop
  | sortRecords {o : Object} {u p : ℕ} {sources : List Object} {arrivals : Arrivals P}
      {mem₀ : ByteMemory} {dst : GroupedBuffer} {out : SortedPartition}
      (hauthor : author o = .shuffleSort u p sources)
      (harrived : Arrived content sources arrivals.list)
      (hout : Shuffle.sortRecords (memoryAfter P arrivals.list mem₀) P
        (arrivals.list.map Arrival.base) p dst = some out) :
      Outcome P content author o
        { layout := Shuffle.layoutFor (memoryAfter P arrivals.list mem₀) out.sorted
          buffer := out.buffer }
  | sortValues {o o' : Object} {v p : ℕ} {order : ValueOrder} {input copy : GroupedFragment}
      {dst : GroupedBuffer} (hauthor : author o = .valueSort v o' p)
      (hinput : Outcome P content author o' input)
      (hcopy : ValueSort.run order input dst = some copy) : Outcome P content author o copy

/-- What stands at a port of partitions: the object comes from a sort that goes through `records`,
and shows these grouped by their keys. -/
structure HandsOver (P : ℕ) (content : Object → Multiset Record) (author : Object → Command)
    (p : ℕ) (o : Object) (records : Multiset Record) : Prop where
  gathered : ∃ u sources, SortedFrom author u p sources o ∧
    ∀ (arrivals : Arrivals P) (mem₀ : ByteMemory), Arrived content sources arrivals.list →
      (∃ b, Outcome P content author o b) ∧
      ∃ pointers, Shuffle.collectPointers (memoryAfter P arrivals.list mem₀) P p
          (arrivals.list.map Arrival.base) = some pointers ∧
        records = .ofList (pointers.map (recordAt (memoryAfter P arrivals.list mem₀)))
  collected : (∀ r ∈ records, ∀ r' ∈ records, ¬ ZeroExtends r.key r'.key) →
    ∀ b, Outcome P content author o b → b.buffer.Collects records

theorem records_runGather (sources : List ValueFragment) (dst : ValueBuffer) :
    (Gather.runGather sources dst).records = sources.flatMap fun src => src.records := by
  have hempty : Gather.Holds [] { dst with recordCount := 0 } := ⟨rfl, fun h => absurd rfl h, rfl⟩
  have hfilled := hempty.foldl sources
  rw [List.nil_append] at hfilled
  rw [← hfilled.records, Gather.runGather, ← Gather.totalRecordCount, Gather.totalRecordCount_eq,
    ← hfilled.count]

/-- A gather copies the records of its inputs. The lengths of the keys are lost, so that a record
is its bytes here. -/
theorem copies_runGather (received : List Gather.Received) (dst : ValueBuffer) {l : ℕ}
    {objects : List Object} {content : Object → Multiset (List UInt8)}
    (hinputs : List.Forall₂ (fun o f => content o = f.values.records) objects received) :
    (Op.runGather l objects).copies content =
      some (.ofList (Gather.runGather (received.map Gather.Received.values) dst).records) := by
  have hcontents : contents content objects =
      .ofList (received.flatMap fun f => f.values.records) := contents_of_fragments hinputs
  rw [records_runGather, List.flatMap_map]
  simp only [Op.copies, hcontents]

section Outcomes

variable {P p u : ℕ} {sources : List Object} {o : Object}

/-- The records that a sort goes through. -/
theorem Arrived.records {arrivals : Arrivals P} (h : Arrived content sources arrivals.list) (p : ℕ) :
    (contents content sources).filter (fun r => keyPartition P r.key = p) =
      .ofList (partitionRecords P arrivals.list p) := by
  rw [contents_of_fragments h, Multiset.filter_coe]
  rfl

/-- The buffers can be sorted, for a value comparator too. -/
theorem exists_outcome (hP : 0 < P) (hP' : P < 2 ^ 32) (hp : p < P)
    (hsorted : SortedFrom author u p sources o) {arrivals : Arrivals P}
    (harrived : Arrived content sources arrivals.list) (mem₀ : ByteMemory) :
    ∃ b, Outcome P content author o b := by
  obtain ⟨pointers, out, hcollect, hout, -, -⟩ :=
    Shuffle.sortRecords_spec hP hP' arrivals mem₀ hp Shuffle.emptyBuffer
  obtain ⟨out', hout', hbuffer, -, hhead⟩ :=
    ValueSort.sortRecords_sorted Shuffle.emptyBuffer hcollect
  obtain rfl : out = out' := Option.some.inj (hout.symm.trans hout')
  rcases hsorted with hauthor | ⟨v, o', hauthor, hauthor'⟩
  · exact ⟨_, .sortRecords hauthor harrived hout⟩
  · obtain ⟨copy, hcopy, -⟩ :=
      ValueSort.reordersValues ValueSort.keepOrder hhead Shuffle.emptyBuffer Shuffle.emptyBuffer
    rw [← hbuffer] at hcopy
    exact ⟨copy, .sortValues hauthor (.sortRecords hauthor' harrived hout) hcopy⟩

/-- Whatever a sort leaves shows the records of its partition. -/
theorem collects_of_outcome (hP : 0 < P) (hP' : P < 2 ^ 32) (hp : p < P)
    (hsorted : SortedFrom author u p sources o) {records : Multiset Record}
    (hrecords : records = (contents content sources).filter fun r => keyPartition P r.key = p)
    (hdistinct : ∀ r ∈ records, ∀ r' ∈ records, ¬ ZeroExtends r.key r'.key)
    {b : GroupedFragment} (hb : Outcome P content author o b) : b.buffer.Collects records := by
  rcases hsorted with hauthor | ⟨v, o', hauthor, hauthor'⟩
  · cases hb with
    | sortRecords hsame harrived hout =>
      cases hauthor.symm.trans hsame
      rw [harrived.records] at hrecords
      subst hrecords
      exact ⟨_, Shuffle.shows_sortRecords hP hP' _ _ hp hout hdistinct⟩
    | sortValues hsame => cases hauthor.symm.trans hsame
  · cases hb with
    | sortRecords hsame => cases hauthor.symm.trans hsame
    | sortValues hsame hinput hcopy =>
      cases hauthor.symm.trans hsame
      cases hinput with
      | sortValues hsame' => cases hauthor'.symm.trans hsame'
      | @sortRecords _ _ _ _ arrivals mem₀ dst out hsame' harrived hout =>
        cases hauthor'.symm.trans hsame'
        rw [harrived.records] at hrecords
        subst hrecords
        have hshows := Shuffle.shows_sortRecords hP hP' _ _ hp hout hdistinct
        obtain ⟨pointers, -, hcollect, -⟩ := Shuffle.sortRecords_spec hP hP' arrivals mem₀ hp dst
        obtain ⟨out', hout', hbuffer, -, hhead⟩ := ValueSort.sortRecords_sorted dst hcollect
        obtain rfl : out = out' := Option.some.inj (hout.symm.trans hout')
        rw [hbuffer] at hshows hcopy
        exact Shuffle.collects_valueSort _ hhead hcopy hshows

theorem handsOver (hP : 0 < P) (hP' : P < 2 ^ 32) (hp : p < P)
    (hsorted : SortedFrom author u p sources o) :
    HandsOver P content author p o
      ((contents content sources).filter fun r => keyPartition P r.key = p) := by
  refine ⟨⟨u, sources, hsorted, fun arrivals mem₀ harrived => ?_⟩, fun hdistinct b hb => ?_⟩
  · obtain ⟨pointers, -, hcollect, -, hrecords, -⟩ :=
      Shuffle.sortRecords_spec hP hP' arrivals mem₀ hp Shuffle.emptyBuffer
    refine ⟨exists_outcome hP hP' hp hsorted harrived mem₀, pointers, hcollect, ?_⟩
    rw [harrived.records, hrecords]
  · exact collects_of_outcome hP hP' hp hsorted rfl hdistinct hb

end Outcomes

/-- When the run is over, each partition of a processor has been run once, at each scatter-gather
port on what its sources have emitted of the partition. -/
theorem partitions_collected {n : ℕ} {config : Configuration} {fg : FlowGraph} {g : LogicalGraph}
    {lm : LocalityManager} {s : State n} (hP : 0 < config.partitionCount)
    (hP' : config.partitionCount < 2 ^ 32) (hacyclic : Acyclic fg.Feeds)
    (hmovements : fg.DefinedMovements) (hbuild : GraphBuilder.buildLogicalGraph config fg = .ok g)
    (hrun : FilledRun g lm content author s) (hfinished : s.system.scheduler.isFinished = true)
    {l p : ℕ} (hscatter : ∃ q iport, inputPort? fg.vertices (l, q) = some iport ∧
      iport.movement = .scatterGather) (hp : p < config.partitionCount) :
    ∃ t inputs, s.commands[t]? = some (.scatterGatherRun l inputs p) ∧
      .finished t ∈ s.system.log ∧
      (∀ t' inputs', s.commands[t']? = some (.scatterGatherRun l inputs' p) → t' = t) ∧
      ∀ q iport, inputPort? fg.vertices (l, q) = some iport → iport.movement = .scatterGather →
        ∃ o, inputs[q]? = some (some o) ∧
          HandsOver config.partitionCount content author p o
            ((s.emitted fg content (l, q)).filter fun r =>
              keyPartition config.partitionCount r.key = p) := by
  obtain ⟨t, inputs, hc, hdone, hunique, hports⟩ :=
    partitions_joined hacyclic hmovements hbuild hrun hfinished hscatter hp
  refine ⟨t, inputs, hc, hdone, hunique, fun q iport hport hmovement => ?_⟩
  obtain ⟨o, u, sources, ho, hsorted, hsources⟩ := hports q iport hport hmovement
  refine ⟨o, ho, ?_⟩
  rw [← hsources]
  exact handsOver hP hP' hp hsorted

theorem mem_emitted {n : ℕ} {R : Type} {content : Object → Multiset R} {fg : FlowGraph} {s : State n}
    {x : PortKey} {r : R} (hr : r ∈ s.emitted fg content x) :
    ∃ source o, .flushed source o ∈ s.notes ∧ r ∈ content o := by
  obtain ⟨records, hrecords, hmem⟩ : ∃ records ∈ s.notes.map (Note.emits fg content x), r ∈ records := by
    rw [State.emitted] at hr
    generalize s.notes.map (Note.emits fg content x) = all at hr
    induction all with
    | nil => cases hr
    | cons records all ih =>
      rw [List.sum_cons, Multiset.mem_add] at hr
      rcases hr with hr | hr
      · exact ⟨records, List.mem_cons_self, hr⟩
      · obtain ⟨records', hmem, hr'⟩ := ih hr
        exact ⟨records', List.mem_cons_of_mem _ hmem, hr'⟩
  obtain ⟨note, hnote, rfl⟩ := List.mem_map.mp hrecords
  cases note with
  | flushed source o => exact ⟨source, o, hnote, Multiset.mem_of_mem_nsmul hmem⟩
  | _ => cases hmem

/-- The second of the two partitions, where the records have the keys "a" and "b". -/
theorem partitions_collected_sided : ∃ (content : Object → Multiset Record)
    (author : Object → Command) (s : State 1), .flushed (0, 0) 0 ∈ s.notes ∧
      content 0 = {⟨[97], [1]⟩, ⟨[98], [2]⟩} ∧
      ∃ t inputs o, s.commands[t]? = some (.scatterGatherRun 1 inputs 1) ∧
        .finished t ∈ s.system.log ∧ inputs[0]? = some (some o) ∧
        ∀ b, Outcome 2 content author o b →
          b.buffer.Collects ((s.emitted sided content (1, 0)).filter fun r => keyPartition 2 r.key = 1) := by
  obtain ⟨content, author, s, hrun, hflushed, hcontent, hfinished⟩ :=
    exists_sided ({⟨[97], [1]⟩, ⟨[98], [2]⟩} : Multiset Record) finished_sided
  obtain ⟨t, inputs, hc, hdone, -, hports⟩ := partitions_collected (by decide) (by decide)
    acyclic_sided definedMovements_sided build_sided hrun hfinished (l := 1) (p := 1)
    ⟨0, _, rfl, rfl⟩ (by decide)
  obtain ⟨o, ho, hgiven⟩ := hports 0 _ rfl rfl
  have hkeys : ∀ r ∈ (s.emitted sided content (1, 0)).filter fun r => keyPartition 2 r.key = 1,
      r.key = [97] ∨ r.key = [98] := by
    intro r hr
    obtain ⟨source, o, hnote, hmem⟩ := mem_emitted (Multiset.mem_filter.mp hr).1
    rw [hcontent source o hnote, Multiset.insert_eq_cons, Multiset.mem_cons,
      Multiset.mem_singleton] at hmem
    rcases hmem with rfl | rfl
    · exact Or.inl rfl
    · exact Or.inr rfl
  refine ⟨content, author, s, hflushed, hcontent _ _ hflushed, t, inputs, o, hc, hdone, ho,
    hgiven.collected fun r hr r' hr' => ?_⟩
  rcases hkeys r hr with hkey | hkey <;> rcases hkeys r' hr' with hkey' | hkey' <;>
    rw [hkey, hkey'] <;> decide

end M3bp.Engine
