import M3bp.RadixViews
import M3bp.ValueSortView

/-!
Which words of the fragments made by the engine depend on what was in the
allocated memory before. `append_serialized_buffer` is the only place that writes
the first offset of a gathered fragment, so that nobody writes it when there is
nothing to gather. A sort compares what lies behind a key when another key that it cannot
be told from goes on.
-/
namespace M3bp

/-- A fragment without keys as a processor writes it. -/
structure ValueFragment extends ValueBuffer where
  offsets_mono : ∀ i < recordCount, valuesOffsets i ≤ valuesOffsets (i + 1)

namespace Gather

/-- The offsets that `append_serialized_buffer` writes behind entry `baseCount`. -/
def appendOffsets (baseCount : ℕ) (srcOffsets : ℕ → ℕ) (srcCount : ℕ) (dstOffsets : ℕ → ℕ) : ℕ → ℕ :=
  (List.range srcCount).foldl
    (fun offsets i => Function.update offsets (baseCount + (i + 1))
      (offsets baseCount + srcOffsets (i + 1) - srcOffsets 0))
    (Function.update dstOffsets 0 0)

def appendSerializedBuffer (dst : ValueBuffer) (src : ValueFragment) : ValueBuffer :=
  let baseCount := dst.recordCount
  let srcCount := src.recordCount
  let offsets := appendOffsets baseCount src.valuesOffsets srcCount dst.valuesOffsets
  let size := src.valuesOffsets srcCount - src.valuesOffsets 0
  { recordCount := baseCount + srcCount
    valuesData := dst.valuesData.write (offsets baseCount) (src.valuesData.read (src.valuesOffsets 0) size)
    valuesOffsets := offsets }

/-- `run_gather`, into the freshly allocated `dst`. -/
def runGather (sources : List ValueFragment) (dst : ValueBuffer) : ValueBuffer :=
  let totalRecordCount := (sources.map fun src => src.recordCount).sum
  let filled := sources.foldl appendSerializedBuffer { dst with recordCount := 0 }
  { filled with recordCount := totalRecordCount }

/-- Two destinations with the same records so far, the first offset aside. -/
structure Alike (d d' : ValueBuffer) : Prop where
  recordCount : d.recordCount = d'.recordCount
  offsets : ∀ i, 0 < i → i ≤ d.recordCount → d.valuesOffsets i = d'.valuesOffsets i

theorem appendOffsets_congr {base n : ℕ} {src o o' : ℕ → ℕ}
    (h : ∀ i, 0 < i → i ≤ base → o i = o' i) :
    ∀ i ≤ base + n, appendOffsets base src n o i = appendOffsets base src n o' i := by
  induction n with
  | zero =>
    intro i hi
    rcases Nat.eq_zero_or_pos i with rfl | hpos
    · simp [appendOffsets]
    · simpa [appendOffsets, Function.update_of_ne hpos.ne'] using h i hpos hi
  | succ n ih =>
    intro i hi
    simp only [appendOffsets, List.range_succ, List.foldl_append, List.foldl_cons,
      List.foldl_nil] at ih ⊢
    rcases Nat.eq_or_lt_of_le hi with rfl | hlt
    · rw [Function.update_self, Function.update_self, ih base (Nat.le_add_right _ _)]
    · have hne : i ≠ base + (n + 1) := by omega
      rw [Function.update_of_ne hne, Function.update_of_ne hne]
      exact ih i (by omega)

theorem Alike.append {d d' : ValueBuffer} (h : Alike d d') (src : ValueFragment) :
    Alike (appendSerializedBuffer d src) (appendSerializedBuffer d' src) ∧
      (appendSerializedBuffer d src).valuesOffsets 0 = (appendSerializedBuffer d' src).valuesOffsets 0 := by
  have hoffsets := @appendOffsets_congr d.recordCount src.recordCount src.valuesOffsets
    d.valuesOffsets d'.valuesOffsets h.offsets
  have hcount := h.recordCount
  refine ⟨⟨?_, fun i _ hi => ?_⟩, ?_⟩
  · simp only [appendSerializedBuffer, hcount]
  · simp only [appendSerializedBuffer, ← hcount] at hi ⊢
    exact hoffsets i hi
  · simp only [appendSerializedBuffer, ← hcount]
    exact hoffsets 0 (Nat.zero_le _)

theorem Alike.foldl {d d' : ValueBuffer} (h : Alike d d')
    (hzero : d.valuesOffsets 0 = d'.valuesOffsets 0) (sources : List ValueFragment) :
    Alike (sources.foldl appendSerializedBuffer d) (sources.foldl appendSerializedBuffer d') ∧
      (sources.foldl appendSerializedBuffer d).valuesOffsets 0 =
        (sources.foldl appendSerializedBuffer d').valuesOffsets 0 := by
  induction sources generalizing d d' with
  | nil => exact ⟨h, hzero⟩
  | cons src sources ih =>
    obtain ⟨hnext, hnext'⟩ := h.append src
    exact ih hnext hnext'

theorem recordCount_foldl (sources : List ValueFragment) (d : ValueBuffer) :
    (sources.foldl appendSerializedBuffer d).recordCount =
      d.recordCount + (sources.map fun src => src.recordCount).sum := by
  induction sources generalizing d with
  | nil => rfl
  | cons src sources ih =>
    rw [List.foldl_cons, ih, List.map_cons, List.sum_cons]
    simp only [appendSerializedBuffer]
    omega

/-- One fragment is enough. -/
theorem sameTables_runGather (src : ValueFragment) (sources : List ValueFragment)
    (dst dst' : ValueBuffer) :
    (InputBuffer.bind (.values (runGather (src :: sources) dst))).SameTables
      (.bind (.values (runGather (src :: sources) dst'))) := by
  have hstart : Alike { dst with recordCount := 0 } { dst' with recordCount := 0 } := by
    refine ⟨rfl, fun i hpos hi => ?_⟩
    have hi' : i ≤ 0 := hi
    omega
  obtain ⟨hfirst, hfirst'⟩ := hstart.append src
  obtain ⟨hall, hzero⟩ := hfirst.foldl hfirst' sources
  have hcount := recordCount_foldl (src :: sources) { dst with recordCount := 0 }
  have hoffsets : ∀ i ≤ ((src :: sources).map fun s => s.recordCount).sum,
      (runGather (src :: sources) dst).valuesOffsets i =
        (runGather (src :: sources) dst').valuesOffsets i := by
    intro i hi
    rcases Nat.eq_zero_or_pos i with rfl | hpos
    · exact hzero
    · refine hall.offsets i hpos ?_
      rw [List.foldl_cons] at hcount
      rw [hcount]
      exact hi.trans (Nat.le_add_left _ _)
  exact ⟨rfl, hoffsets _ le_rfl, rfl, hoffsets, fun _ _ => rfl⟩

end Gather

open MarkedSort (groupsOf flatten_groupsOf)
open Shuffle

/-- What is in the memory that the tasks allocate. `memory` is the one in which the buffers of the
shuffle get their places. -/
structure Allocated where
  memory : ByteMemory
  values : ValueBuffer
  grouped : GroupedBuffer
  copy : GroupedBuffer

/-- Memory in which every offset reads as `n`. -/
def filledWith (n : ℕ) : Allocated :=
  { memory := fun _ => 0
    values := { recordCount := 0, valuesData := fun _ => 0, valuesOffsets := fun _ => n }
    grouped := emptyBuffer
    copy := emptyBuffer }

/-- The partition that a sort task works on, with the fragments that arrived. -/
structure PartitionInput where
  partitionCount : ℕ
  arrivals : Arrivals partitionCount
  partition : ℕ
  partition_lt : partition < partitionCount
  count_lt : partitionCount < 2 ^ 32

namespace PartitionInput

def records (input : PartitionInput) : List Record :=
  partitionRecords input.partitionCount input.arrivals.list input.partition

/-- The memory when all fragments have been partitioned. -/
def mem (input : PartitionInput) (a : Allocated) : ByteMemory :=
  memoryAfter input.partitionCount input.arrivals.list a.memory

def sort (input : PartitionInput) (a : Allocated) : Option SortedPartition :=
  sortRecords (input.mem a) input.partitionCount (input.arrivals.list.map Arrival.base)
    input.partition a.grouped

end PartitionInput

/-- The tasks of the engine that make fragments for a processor. -/
inductive Producer
  | gather (sources : List ValueFragment)
  | sortRecords (input : PartitionInput)
  | valueSort (input : PartitionInput) (order : ValueOrder)

namespace Producer

/-- What the processor sees in the end. -/
def view (a : Allocated) : Producer → Option InputBuffer
  | gather sources => some (.bind (.values (Gather.runGather sources a.values)))
  | sortRecords input => do
    let out ← input.sort a
    some (.bind (.grouped out.buffer))
  | valueSort input order => do
    let out ← input.sort a
    let copy ← ValueSort.run order
      { layout := layoutFor (input.mem a) out.sorted, buffer := out.buffer } a.copy
    some (.bind (.grouped copy.buffer))

/-- Two runs that differ in the contents of allocated memory present the same counts, sizes and
tables. -/
def Initialized (t : Producer) : Prop :=
  ∀ a a', ∃ view view', t.view a = some view ∧ t.view a' = some view' ∧ view.SameTables view'

/-- There is something to gather, and no key goes on behind the window in which a key ends that it
cannot be told from up to there. -/
def Determined : Producer → Prop
  | gather sources => sources ≠ []
  | sortRecords input | valueSort input _ =>
    ∀ r ∈ input.records, ∀ r' ∈ input.records, ¬ Outruns r'.key r.key

end Producer

namespace InputBuffer.SameTables

/-- Copies with sorted values of fragments with the same tables. -/
theorem reorder {groups groups' : List (List (List UInt8))} {view view' copy copy' : InputBuffer}
    (h : view.SameTables view') (hcopy : ValueSort.ReordersValues groups view copy)
    (hcopy' : ValueSort.ReordersValues groups' view' copy')
    (hsize : copy.valueBufferSize = copy'.valueBufferSize) : copy.SameTables copy' := by
  have hcount := hcopy.recordCount
  refine ⟨?_, ?_, hsize, fun i hi => ?_, fun i hi => ?_⟩
  · rw [hcount, hcopy'.recordCount, h.recordCount]
  · rw [hcopy.keyBufferSize, hcopy'.keyBufferSize, h.keyBufferSize]
  · rw [hcount] at hi
    rw [hcopy.keyOffsetTable i hi, h.keyOffsetTable i hi,
      hcopy'.keyOffsetTable i (hi.trans_eq h.recordCount)]
  · rw [hcount] at hi
    rw [hcopy.valueOffsetTable i hi, h.valueOffsetTable i hi,
      hcopy'.valueOffsetTable i (hi.trans_eq h.recordCount)]

end InputBuffer.SameTables

section Records

variable {mem mem' : ByteMemory} {sorted : List (ℕ × Bool)} {group : List ℕ} {ptr : ℕ}

theorem keyAt_congr (h : recordAt mem' ptr = recordAt mem ptr) :
    KeyBlock.keyAt mem' ptr = KeyBlock.keyAt mem ptr := by
  rw [← recordAt_key, h, recordAt_key]

theorem valueAt_congr (h : recordAt mem' ptr = recordAt mem ptr) :
    valueAt mem' ptr = valueAt mem ptr := by
  rw [← recordAt_value, h, recordAt_value]

theorem headKey_congr (h : ∀ ptr ∈ group, recordAt mem' ptr = recordAt mem ptr) :
    headKey mem' group = headKey mem group := by
  cases group with
  | nil => simp only [headKey, List.head?_nil, Option.map_none]
  | cons ptr group =>
    simp only [headKey, List.head?_cons, Option.map_some, keyAt_congr (h ptr List.mem_cons_self)]

theorem groupBytes_congr (h : ∀ ptr ∈ group, recordAt mem' ptr = recordAt mem ptr) :
    groupBytes mem' group = groupBytes mem group :=
  List.flatMap_congr fun ptr hptr => valueAt_congr (h ptr hptr)

/-- The first pass adds up the lengths of the keys and the values. -/
theorem add_congr {r : ℕ × Bool} (h : recordAt mem' r.1 = recordAt mem r.1) (z : Sizes) :
    z.add mem' r = z.add mem r := by
  have hkey := congrArg List.length (keyAt_congr h)
  have hvalue := congrArg List.length (valueAt_congr h)
  simp only [KeyBlock.keyAt, valueAt, ByteMemory.length_read] at hkey hvalue
  rw [hkey] at hvalue
  simp only [Sizes.add, hkey, hvalue]

theorem sizingPass_congr (h : ∀ r ∈ sorted, recordAt mem' r.1 = recordAt mem r.1) :
    sizingPass mem' sorted = sizingPass mem sorted := by
  unfold sizingPass
  generalize ({ groupCount := 0, totalKeySize := 0, totalValueSize := 0 } : Sizes) = z
  induction sorted generalizing z with
  | nil => rw [List.foldl_nil, List.foldl_nil]
  | cons r sorted ih =>
    rw [List.forall_mem_cons] at h
    rw [List.foldl_cons, List.foldl_cons, add_congr h.1, ih h.2]

end Records

/-- Memories that hold the same records behind the pointers are written out alike. -/
theorem sameTables_writeGroups {mem mem' : ByteMemory} {sorted : List (ℕ × Bool)}
    (hrecords : ∀ r ∈ sorted, recordAt mem' r.1 = recordAt mem r.1)
    (hhead : ∀ r ∈ sorted.head?, r.2 = false) (dst dst' : GroupedBuffer) :
    (InputBuffer.bind (.grouped (writeGroups mem sorted dst))).SameTables
      (.bind (.grouped (writeGroups mem' sorted dst'))) := by
  obtain ⟨hcount, hkeys, hvalues⟩ := @writeGroups_ends mem _ hhead dst
  obtain ⟨hcount', hkeys', hvalues'⟩ := @writeGroups_ends mem' _ hhead dst'
  have hwritten := @Written.foldl mem _ _ hhead (written_start sorted dst)
  have hwritten' := @Written.foldl mem' _ _ hhead (written_start sorted dst')
  have hstep := @InStep.foldl mem _ sorted _ (inStep_start sorted dst)
  have hstep' := @InStep.foldl mem' _ sorted _ (inStep_start sorted dst')
  rw [List.nil_append] at hstep hstep'
  have hsizes := sizingPass_congr hrecords
  have hgroups : ∀ group ∈ groupsOf sorted, ∀ ptr ∈ group, recordAt mem' ptr = recordAt mem ptr := by
    intro group hgroup ptr hptr
    have hmem : ptr ∈ sorted.map Prod.fst := by
      rw [← flatten_groupsOf]
      exact List.mem_flatten.mpr ⟨group, hgroup, hptr⟩
    obtain ⟨r, hr, rfl⟩ := List.mem_map.mp hmem
    exact hrecords r hr
  have hheads : (groupsOf sorted).map (headKey mem') = (groupsOf sorted).map (headKey mem) :=
    List.map_congr_left fun group hgroup => headKey_congr (hgroups group hgroup)
  have hbytes : (groupsOf sorted).map (groupBytes mem') = (groupsOf sorted).map (groupBytes mem) :=
    List.map_congr_left fun group hgroup => groupBytes_congr (hgroups group hgroup)
  have hcount'' := hstep'.groups
  rw [hsizes] at hcount' hkeys' hvalues' hcount''
  rw [hheads, hbytes] at hwritten'
  refine ⟨hcount.trans hcount'.symm, ?_, hvalues.trans hvalues'.symm, fun g hg => ?_, fun g hg => ?_⟩
  · simp only [InputBuffer.keyBufferSize, InputBuffer.bind, hcount, hcount', hkeys, hkeys']
  · have hg' : g ≤ (sizingPass mem sorted).groupCount := hg.trans_eq hcount
    exact (hwritten.keysOffsets g (hg'.trans_eq hstep.groups.symm)).trans
      (hwritten'.keysOffsets g (hg'.trans_eq hcount''.symm)).symm
  · have hg' : g ≤ (sizingPass mem sorted).groupCount := hg.trans_eq hcount
    exact (hwritten.groupOffsets g (hg'.trans_eq hstep.groups.symm)).trans
      (hwritten'.groupOffsets g (hg'.trans_eq hcount''.symm)).symm

/-- With no such key, the sort of a partition is the same in all memories. -/
theorem PartitionInput.exists_sorted (input : PartitionInput)
    (hno : ∀ r ∈ input.records, ∀ r' ∈ input.records, ¬ Outruns r'.key r.key) :
    ∃ sorted : List (ℕ × Bool), (∀ r ∈ sorted.head?, r.2 = false) ∧
      (∀ a, input.sort a = some
        { sorted := sorted, buffer := writeGroups (input.mem a) sorted a.grouped }) ∧
      ∀ a a', ∀ r ∈ sorted, recordAt (input.mem a') r.1 = recordAt (input.mem a) r.1 := by
  have hpos : 0 < input.partitionCount := Nat.zero_lt_of_lt input.partition_lt
  obtain ⟨pointers, hpointers⟩ :=
    exists_collectPointers hpos input.count_lt input.arrivals input.partition_lt
  have hcollect : ∀ a, collectPointers (input.mem a) input.partitionCount input.partition
      (input.arrivals.list.map Arrival.base) = some pointers := fun a => (hpointers a.memory).1
  have hrecords : ∀ a a', ∀ ptr ∈ pointers, recordAt (input.mem a') ptr = recordAt (input.mem a) ptr :=
    fun a a' => List.map_inj_left.mp ((hpointers a'.memory).2.trans (hpointers a.memory).2.symm)
  let a₀ : Allocated := filledWith 0
  have hkeys : ∀ ptr ∈ pointers, recordAt (input.mem a₀) ptr ∈ input.records := fun ptr hptr => by
    rw [records, ← (hpointers a₀.memory).2]
    exact List.mem_map_of_mem hptr
  obtain ⟨out, marks, hsort, hsorted⟩ := sortPointers_spec (input.mem a₀) pointers
  have hsame : ∀ a, sortPointers (input.mem a) pointers = some (out.zip marks) := fun a => by
    rw [← hsort]
    refine sortPointers_congr (fun ptr hptr => keyAt_congr (hrecords a₀ a ptr hptr)) fun x hx y hy => ?_
    have hkeys := hno _ (hkeys x hx) _ (hkeys y hy)
    rw [recordAt_key, recordAt_key] at hkeys
    exact hkeys
  refine ⟨out.zip marks, hsorted.head_unmarked, fun a => ?_, fun a a' r hr => hrecords a a' r.1 ?_⟩
  · simp [PartitionInput.sort, sortRecords, hcollect a, hsame a]
  · have hlength : out.length = marks.length := by
      rw [hsorted.marks_eq, MarkedSort.length_leftMarks]
    have hmem := List.mem_map_of_mem (f := Prod.fst) hr
    rw [List.map_fst_zip hlength.le] at hmem
    exact hsorted.perm.mem_iff.mp hmem

/-- With nothing to gather, the size is whatever the allocated memory holds. -/
theorem not_initialized_gather : ¬ (Producer.gather []).Initialized := by
  intro h
  obtain ⟨view, view', hview, hview', hsame⟩ := h (filledWith 0) (filledWith 7)
  have hsize := hsame.keyBufferSize
  rw [← Option.some.inj hview, ← Option.some.inj hview'] at hsize
  exact absurd hsize (by decide)

/-- Where a task is determined its views do not depend on what was in the memory; a gather that is
not is never initialised. -/
theorem initialized_of_determined (t : Producer) :
    (t.Determined → t.Initialized) ∧
      ∀ sources, t = .gather sources → t.Initialized → t.Determined := by
  constructor
  · intro hdetermined a a'
    cases t with
    | gather sources =>
      cases sources with
      | nil => exact absurd rfl hdetermined
      | cons src sources => exact ⟨_, _, rfl, rfl, Gather.sameTables_runGather src sources _ _⟩
    | sortRecords input =>
      obtain ⟨sorted, hhead, hsort, hrecords⟩ := input.exists_sorted hdetermined
      exact ⟨_, _, by simp only [Producer.view, hsort, Option.bind_eq_bind, Option.bind_some]; rfl,
        by simp only [Producer.view, hsort, Option.bind_eq_bind, Option.bind_some]; rfl,
        sameTables_writeGroups (hrecords a a') hhead _ _⟩
    | valueSort input order =>
      obtain ⟨sorted, hhead, hsort, hrecords⟩ := input.exists_sorted hdetermined
      obtain ⟨copy, hrun, hview, hzero, -⟩ :=
        @ValueSort.reordersValues (input.mem a) _ order hhead a.grouped a.copy
      obtain ⟨copy', hrun', hview', hzero', -⟩ :=
        @ValueSort.reordersValues (input.mem a') _ order hhead a'.grouped a'.copy
      refine ⟨.bind (.grouped copy.buffer), .bind (.grouped copy'.buffer), ?_, ?_,
        (sameTables_writeGroups (hrecords a a') hhead _ _).reorder hview hview'
          (hzero.trans hzero'.symm)⟩
      · simp only [Producer.view, hsort, Option.bind_eq_bind, Option.bind_some, hrun]
      · simp only [Producer.view, hsort, Option.bind_eq_bind, Option.bind_some, hrun']
  · rintro sources rfl h rfl
    exact not_initialized_gather h

/-- The keys "a" and "a\0", which cannot be told from each other up to their ends. -/
def zeroTailInput : PartitionInput :=
  { partitionCount := 1
    arrivals := zeroTailArrivals
    partition := 0
    partition_lt := by decide
    count_lt := by decide }

theorem initialized_of_determined_zeroTail : (Producer.sortRecords zeroTailInput).Initialized := by
  refine (initialized_of_determined _).1 fun r hr r' hr' => ?_
  have hall : ∀ r ∈ recordsOf zeroTailArrivals.list, ∀ r' ∈ recordsOf zeroTailArrivals.list,
      ¬ Outruns r'.key r.key := by decide
  exact hall r (mem_partitionRecords.mp hr).1 r' (mem_partitionRecords.mp hr').1

/-- The keys "a\0\0\0\0\0\0\0X" and "a", without values. -/
def outrun : KeyValueFragment :=
  { recordCount := 2
    valuesData := fun x => [97, 0, 0, 0, 0, 0, 0, 0, 88, 97].getD x 0
    valuesOffsets := fun i => [0, 9, 10].getD i 10
    keyLengths := fun i => [9, 1].getD i 0
    offsets_mono := by decide
    keyLengths_le := by decide
    fits := by decide }

def outrunInput : PartitionInput :=
  { partitionCount := 1
    arrivals := { list := [{ fragment := outrun, base := 0 }], apart := List.pairwise_singleton _ _ }
    partition := 0
    partition_lt := by decide
    count_lt := by decide }

/-- Memory with `byte` behind the 58 bytes of the buffer, in the second window behind "a". -/
def behind (byte : UInt8) : Allocated :=
  { filledWith 0 with memory := fun x => if x = 65 then byte else 0 }

/-- Where that byte is an "X" too, the two keys become one group. -/
theorem not_initialized :
    ¬ (Producer.gather []).Initialized ∧ ¬ (Producer.sortRecords outrunInput).Initialized := by
  refine ⟨not_initialized_gather, fun h => ?_⟩
  obtain ⟨view, view', hview, hview', hsame⟩ := h (behind 0) (behind 88)
  have hcount : ((Producer.sortRecords outrunInput).view (behind 0)).map InputBuffer.recordCount =
      some 2 := by decide +kernel
  have hcount' : ((Producer.sortRecords outrunInput).view (behind 88)).map InputBuffer.recordCount =
      some 1 := by decide +kernel
  rw [hview, Option.map_some, Option.some.injEq] at hcount
  rw [hview', Option.map_some, Option.some.injEq] at hcount'
  have hrecords := hsame.recordCount
  omega

end M3bp
