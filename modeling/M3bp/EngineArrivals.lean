import M3bp.Counting
import M3bp.EngineGraph
import Mathlib.Algebra.BigOperators.Fin

/-!
How many fragments of one partition come to a scatter-gather process: each of its
scatter-gather ports gets one, from a shuffle or from the value sort behind it.
-/
namespace M3bp.Engine

open Finset GraphBuilder

def isShuffle : TaskKind → Bool
  | .shuffle _ => true
  | _ => false

def isValueSort : TaskKind → Bool
  | .valueSort _ => true
  | _ => false

theorem kind_of_isShuffle {g : LogicalGraph} {s : ℕ} (h : (g.kindOf s).any isShuffle = true) :
    ∃ count, g.kindOf s = some (.shuffle count) := by
  cases hkind : g.kindOf s with
  | none =>
    rw [hkind] at h
    cases h
  | some kind =>
    rw [hkind] at h
    cases kind <;> first
      | exact ⟨_, rfl⟩
      | cases h

theorem kind_of_isValueSort {g : LogicalGraph} {s : ℕ} (h : (g.kindOf s).any isValueSort = true) :
    ∃ comparator, g.kindOf s = some (.valueSort comparator) := by
  cases hkind : g.kindOf s with
  | none =>
    rw [hkind] at h
    cases h
  | some kind =>
    rw [hkind] at h
    cases kind <;> first
      | exact ⟨_, rfl⟩
      | cases h

/-- Whether a port belongs to `l` and is no broadcast port. -/
def arrival (g : LogicalGraph) (l : ℕ) (x : PortKey) : ℕ :=
  if x.1 = l ∧ waitPlace g x = some .barrier then 1 else 0

/-- What arrives at `l` of a fragment that the value sort `v` has sorted. -/
def passed (g : LogicalGraph) (l v : ℕ) : ℕ := ((g.successorsOf (v, 0)).map (arrival g l)).sum

/-- What arrives at `l` of a fragment that is delivered to a port. -/
def arrivals (g : LogicalGraph) (l : ℕ) (x : PortKey) : ℕ :=
  arrival g l x + if (g.kindOf x.1).any isValueSort then passed g l x.1 else 0

/-- What arrives at `l` of one partition of the shuffle `s`. -/
def scattered (g : LogicalGraph) (l s : ℕ) : ℕ :=
  ((g.successorsOf (s, 0)).map (arrivals g l)).sum

/-- A sum over the edges. -/
def edgeSum (g : LogicalGraph) (F : Edge → ℕ) : ℕ := (g.edges.map F).sum

section Sums

variable {g : LogicalGraph} {F G : Edge → ℕ}

theorem edgeSum_eq (g : LogicalGraph) (F : Edge → ℕ) :
    edgeSum g F = ∑ i : Fin g.edges.length, F (g.edges.get i) := by
  simp only [edgeSum, List.get_eq_getElem, Fin.sum_univ_fun_getElem]

theorem edgeSum_congr (h : ∀ e ∈ g.edges, F e = G e) : edgeSum g F = edgeSum g G := by
  rw [edgeSum, edgeSum, List.map_congr_left h]

theorem edgeSum_add (g : LogicalGraph) (F G : Edge → ℕ) :
    edgeSum g (fun e => F e + G e) = edgeSum g F + edgeSum g G := by
  simp only [edgeSum_eq, Finset.sum_add_distrib]

theorem sum_edgeSum {ι : Type} (indices : Finset ι) (F : ι → Edge → ℕ) :
    ∑ i ∈ indices, edgeSum g (F i) = edgeSum g fun e => ∑ i ∈ indices, F i e := by
  simp only [edgeSum_eq]
  exact Finset.sum_comm

theorem edgeSum_comm (F : Edge → Edge → ℕ) :
    edgeSum g (fun e => edgeSum g (F e)) = edgeSum g fun e' => edgeSum g fun e => F e e' := by
  simp only [edgeSum_eq]
  exact Finset.sum_comm

theorem edgeSum_consumer (g : LogicalGraph) (x : PortKey) (m : ℕ) :
    edgeSum g (fun e => if e.consumer = x then m else 0) = (g.incoming x).length * m := by
  rw [edgeSum, LogicalGraph.incoming, List.length_map]
  induction g.edges with
  | nil => simp
  | cons e edges ih =>
    by_cases he : e.consumer = x
    · simp [he, ih, Nat.add_mul, Nat.add_comm]
    · simp [he, ih]

theorem sum_successorsOf (hdelivers : g.DeliversAlongEdges) (x : PortKey) (F : PortKey → ℕ) :
    ((g.successorsOf x).map F).sum =
      edgeSum g fun e => if e.producer = x then F e.consumer else 0 := by
  rw [hdelivers, edgeSum]
  induction g.edges with
  | nil => rfl
  | cons e edges ih =>
    by_cases he : e.producer = x
    · simpa [he] using ih
    · simpa [he] using ih

end Sums

section Arrivals

variable {config : Configuration} {g : LogicalGraph} {l : ℕ} {proc : Processor}
  {workerCount count : ℕ}

theorem scatterGather_of_createProcessTask {proc' : Processor}
    (h : .scatterGatherProcess proc workerCount count = createProcessTask config proc') :
    proc = proc' ∧ count = config.partitionCount ∧
      ∀ iport ∈ proc.inputPorts, iport.movement ≠ .oneToOne := by
  unfold createProcessTask at h
  split at h
  · cases h
  · next hno =>
    split at h
    · cases h
      refine ⟨rfl, rfl, fun iport hiport hmovement => hno ?_⟩
      exact List.any_eq_true.mpr ⟨iport, hiport, by simpa using hmovement⟩
    · cases h

/-- The ports of a scatter-gather process. -/
theorem Shape.scatterGather (h : Shape config g)
    (hkind : g.kindOf l = some (.scatterGatherProcess proc workerCount count)) :
    count = config.partitionCount ∧ ∀ iport ∈ proc.inputPorts,
      iport.movement = .scatterGather ∨ iport.movement = .broadcast := by
  rcases h.kinds l _ hkind with heq | heq | ⟨comparator, heq⟩ | ⟨proc', heq, hdefined⟩
  · cases heq
  · cases heq
  · cases heq
  · obtain ⟨rfl, hcount, hno⟩ := scatterGather_of_createProcessTask heq
    refine ⟨hcount, fun iport hiport => ?_⟩
    have hone := hno iport hiport
    have hundefined := hdefined iport hiport
    cases hmovement : iport.movement with
    | scatterGather => exact Or.inl rfl
    | broadcast => exact Or.inr rfl
    | oneToOne => exact absurd hmovement hone
    | undefined => exact absurd hmovement hundefined

variable (h : Shape config g)
  (hkind : g.kindOf l = some (.scatterGatherProcess proc workerCount count))

include h hkind

/-- An edge that something arrives along comes from a shuffle or a value sort. -/
theorem arrival_edge {e : Edge} (he : e ∈ g.edges) (harrival : arrival g l e.consumer ≠ 0) :
    e.consumer.1 = l ∧ HasPort (.scatterGatherProcess proc workerCount count) e.consumer.2
        .scatterGather ∧
      ((g.kindOf e.producer.1).any isShuffle = true ∧
          (g.kindOf e.producer.1).any isValueSort = false ∨
        (g.kindOf e.producer.1).any isShuffle = false ∧
          (g.kindOf e.producer.1).any isValueSort = true) := by
  obtain ⟨rfl, hplace⟩ : e.consumer.1 = l ∧ waitPlace g e.consumer = some .barrier := by
    by_contra hno
    exact harrival (if_neg hno)
  obtain ⟨kind, kind', hproducer, hconsumer, hjoins⟩ := h.joins e he
  rw [h.waits.places e he, Option.some.injEq] at hplace
  rw [hkind, Option.some.injEq] at hconsumer
  subst hconsumer
  rw [hplace] at hjoins
  generalize e.consumer.2 = q at hjoins ⊢
  cases hjoins with
  | oneToOne _ hport =>
    obtain ⟨proc', iport, hproc, hget, hmovement⟩ := hport
    cases hproc
    rcases (h.scatterGather hkind).2 iport (List.mem_of_getElem? hget) with hm | hm <;>
      (rw [hmovement] at hm; cases hm)
  | partitions hport => exact ⟨rfl, hport, Or.inl (by simp [hproducer, isShuffle, isValueSort])⟩
  | sorted hport => exact ⟨rfl, hport, Or.inr (by simp [hproducer, isShuffle, isValueSort])⟩

/-- Each scatter-gather port is the end of one edge. -/
theorem edgeSum_arrival : edgeSum g (fun e => arrival g l e.consumer) =
    proc.inputPorts.countP fun iport => iport.movement = .scatterGather := by
  have hports : ∀ e ∈ g.edges, arrival g l e.consumer =
      ∑ q ∈ range proc.inputPorts.length, if e.consumer = (l, q) then
        (proc.inputPorts[q]?).elim 0 fun iport => if iport.movement = .scatterGather then 1 else 0
      else 0 := by
    intro e he
    by_cases harrival : arrival g l e.consumer = 0
    · rw [harrival]
      refine (Finset.sum_eq_zero fun q hq => ?_).symm
      split
      · next hconsumer =>
        have hget := List.getElem?_eq_getElem (mem_range.mp hq)
        rw [hget, Option.elim_some, if_neg]
        intro hmovement
        rw [arrival, hconsumer] at harrival
        simp [waitPlace, hkind, hget, hmovement] at harrival
      · rfl
    · obtain ⟨hl, ⟨proc', iport, hproc, hget, hmovement⟩, -⟩ := arrival_edge h hkind he harrival
      cases hproc
      have hq : e.consumer.2 ∈ range proc.inputPorts.length :=
        mem_range.mpr (List.getElem?_eq_some_iff.mp hget).1
      rw [Finset.sum_eq_single_of_mem e.consumer.2 hq]
      · have hconsumer : e.consumer = (l, e.consumer.2) := Prod.ext hl rfl
        rw [if_pos hconsumer, hget, Option.elim_some, if_pos hmovement]
        unfold arrival at harrival ⊢
        split at harrival
        · next harrives => rw [if_pos harrives]
        · exact absurd rfl harrival
      · intro q _ hne
        rw [if_neg]
        rintro heq
        exact hne (by rw [heq])
  have hone : ∀ q ∈ range proc.inputPorts.length,
      (g.incoming (l, q)).length * (proc.inputPorts[q]?).elim 0
        (fun iport => if iport.movement = .scatterGather then 1 else 0) =
      (proc.inputPorts[q]?).elim 0 fun iport => if iport.movement = .scatterGather then 1 else 0 := by
    intro q hq
    have hlt : q < proc.inputPorts.length := mem_range.mp hq
    have hget := List.getElem?_eq_getElem hlt
    rw [hget, Option.elim_some]
    by_cases hmovement : proc.inputPorts[q].movement = .scatterGather
    · rw [h.single l _ q .scatterGather hkind ⟨proc, _, rfl, hget, hmovement⟩ (Or.inl rfl),
        Nat.one_mul]
    · rw [if_neg hmovement, Nat.mul_zero]
  rw [edgeSum_congr hports, ← sum_edgeSum]
  simp only [edgeSum_consumer]
  rw [Finset.sum_congr rfl hone, Counting.sum_range_getElem?, Counting.sum_map_ite]

omit hkind in
/-- What is delivered to value sorts, seen from the edges behind them. -/
theorem edgeSum_passed (l : ℕ) : edgeSum g (fun e => if (g.kindOf e.producer.1).any isShuffle then
      if (g.kindOf e.consumer.1).any isValueSort then passed g l e.consumer.1 else 0 else 0) =
    edgeSum g fun e => if (g.kindOf e.producer.1).any isValueSort then arrival g l e.consumer
      else 0 := by
  have hrelay : ∀ e ∈ g.edges, (g.kindOf e.producer.1).any isValueSort = true →
      e.producer.2 = 0 := by
    intro e he hsort
    obtain ⟨comparator, hkind⟩ := kind_of_isValueSort hsort
    exact h.relays e he ⟨_, hkind, rfl⟩
  have hinto : ∀ e ∈ g.edges, (g.kindOf e.consumer.1).any isValueSort = true →
      e.consumer.2 = 0 ∧ (g.kindOf e.producer.1).any isShuffle = true := by
    intro e he hsort
    obtain ⟨kind, kind', hproducer, hconsumer, hjoins⟩ := h.joins e he
    rw [hconsumer, Option.any_some] at hsort
    rw [hproducer, Option.any_some]
    generalize e.consumer.2 = q at hjoins ⊢
    generalize e.physicalSuccessor = succ at hjoins
    cases hjoins with
    | valueSort => exact ⟨rfl, rfl⟩
    | shuffle => cases hsort
    | gather => cases hsort
    | oneToOne _ hport | broadcast hport | partitions hport | sorted hport =>
      have hprocess := hport.isIntermediate
      cases kind' <;> first
        | (cases hprocess; done)
        | cases hsort
  have hswap : ∀ e ∈ g.edges, (if (g.kindOf e.producer.1).any isShuffle then
        if (g.kindOf e.consumer.1).any isValueSort then passed g l e.consumer.1 else 0 else 0) =
      edgeSum g fun e' => if e.consumer = (e'.producer.1, 0) then
        if (g.kindOf e'.producer.1).any isValueSort then arrival g l e'.consumer else 0 else 0 := by
    intro e he
    by_cases hsort : (g.kindOf e.consumer.1).any isValueSort = true
    · obtain ⟨hzero, hshuffle⟩ := hinto e he hsort
      rw [if_pos hshuffle, if_pos hsort, passed, sum_successorsOf h.delivers]
      refine edgeSum_congr fun e' he' => ?_
      by_cases hproducer : e'.producer = (e.consumer.1, 0)
      · have hconsumer : e.consumer = (e'.producer.1, 0) := by
          rw [hproducer]
          exact Prod.ext rfl hzero
        rw [if_pos hproducer, if_pos hconsumer, hproducer, if_pos hsort]
      · rw [if_neg hproducer]
        split
        · next hconsumer =>
          have hsort' : (g.kindOf e'.producer.1).any isValueSort = true := by
            rw [hconsumer] at hsort
            exact hsort
          refine absurd (Prod.ext ?_ (hrelay e' he' hsort')) hproducer
          rw [hconsumer]
        · rfl
    · have hnone : ∀ e' ∈ g.edges, (if e.consumer = (e'.producer.1, 0) then
          if (g.kindOf e'.producer.1).any isValueSort then arrival g l e'.consumer else 0
          else 0) = 0 := by
        intro e' _
        split
        · next hconsumer =>
          rw [hconsumer] at hsort
          rw [if_neg hsort]
        · rfl
      rw [edgeSum_congr hnone]
      simp [hsort, edgeSum]
  have hone : ∀ e' ∈ g.edges, (g.incoming (e'.producer.1, 0)).length *
      (if (g.kindOf e'.producer.1).any isValueSort then arrival g l e'.consumer else 0) =
      if (g.kindOf e'.producer.1).any isValueSort then arrival g l e'.consumer else 0 := by
    intro e' _
    by_cases hsort : (g.kindOf e'.producer.1).any isValueSort = true
    · obtain ⟨comparator, hkind⟩ := kind_of_isValueSort hsort
      rw [h.sorts _ comparator hkind, Nat.one_mul]
    · rw [if_neg hsort, Nat.mul_zero]
  rw [edgeSum_congr hswap, edgeSum_comm]
  simp only [edgeSum_consumer]
  exact edgeSum_congr hone

/-- All shuffles together bring one fragment of each partition to each port. -/
theorem sum_scattered : ∑ s ∈ range g.tasks.length,
      (if (g.kindOf s).any isShuffle then scattered g l s else 0) =
    proc.inputPorts.countP fun iport => iport.movement = .scatterGather := by
  have hterm : ∀ s, (if (g.kindOf s).any isShuffle then scattered g l s else 0) =
      edgeSum g fun e => if e.producer = (s, 0) then
        if (g.kindOf s).any isShuffle then arrivals g l e.consumer else 0 else 0 := by
    intro s
    by_cases hshuffle : (g.kindOf s).any isShuffle = true
    · simp only [hshuffle, if_true]
      rw [scattered, sum_successorsOf h.delivers]
    · simp [hshuffle, edgeSum]
  have hedge : ∀ e ∈ g.edges, (∑ s ∈ range g.tasks.length, if e.producer = (s, 0) then
        if (g.kindOf s).any isShuffle then arrivals g l e.consumer else 0 else 0) =
      (if (g.kindOf e.producer.1).any isShuffle then arrival g l e.consumer else 0) +
        if (g.kindOf e.producer.1).any isShuffle then
          if (g.kindOf e.consumer.1).any isValueSort then passed g l e.consumer.1 else 0 else 0 := by
    intro e he
    rw [Finset.sum_eq_single_of_mem e.producer.1 (mem_range.mpr (h.endpoints e he).1)]
    · by_cases hshuffle : (g.kindOf e.producer.1).any isShuffle = true
      · obtain ⟨count, hkind'⟩ := kind_of_isShuffle hshuffle
        have hzero : e.producer.2 = 0 := h.relays e he ⟨_, hkind', rfl⟩
        have hproducer : e.producer = (e.producer.1, 0) := Prod.ext rfl hzero
        rw [if_pos hproducer, if_pos hshuffle, if_pos hshuffle, if_pos hshuffle, arrivals]
      · simp [hshuffle]
    · intro s _ hne
      rw [if_neg]
      rintro heq
      exact hne (by rw [heq])
  have hsplit : ∀ e ∈ g.edges,
      (if (g.kindOf e.producer.1).any isShuffle then arrival g l e.consumer else 0) +
        (if (g.kindOf e.producer.1).any isValueSort then arrival g l e.consumer else 0) =
      arrival g l e.consumer := by
    intro e he
    by_cases harrival : arrival g l e.consumer = 0
    · simp [harrival]
    · rcases (arrival_edge h hkind he harrival).2.2 with ⟨hyes, hno⟩ | ⟨hno, hyes⟩
      · simp [hyes, hno]
      · simp [hyes, hno]
  calc ∑ s ∈ range g.tasks.length, (if (g.kindOf s).any isShuffle then scattered g l s else 0)
      = edgeSum g fun e => ∑ s ∈ range g.tasks.length, if e.producer = (s, 0) then
          if (g.kindOf s).any isShuffle then arrivals g l e.consumer else 0 else 0 := by
        rw [← sum_edgeSum]
        exact Finset.sum_congr rfl fun s _ => hterm s
    _ = edgeSum g fun e =>
          (if (g.kindOf e.producer.1).any isShuffle then arrival g l e.consumer else 0) +
            if (g.kindOf e.producer.1).any isValueSort then arrival g l e.consumer else 0 := by
        rw [edgeSum_congr hedge, edgeSum_add, edgeSum_passed h, ← edgeSum_add]
    _ = edgeSum g fun e => arrival g l e.consumer := edgeSum_congr hsplit
    _ = proc.inputPorts.countP fun iport => iport.movement = .scatterGather :=
        edgeSum_arrival h hkind

end Arrivals

end M3bp.Engine
