import M3bp.ShuffleGrouping
import M3bp.ValueSort

/-!
The view of a partition with and without a value comparator. The copy has the
keys and all tables of the original and the values of each group in another
order, but its record count stays at zero, and with it the size of its values.
-/
namespace M3bp

open MarkedSort (groupsOf flatten_groupsOf)
open Shuffle

/-- The value bytes of group `g`. -/
def InputBuffer.groupBytes (view : InputBuffer) (g : ℕ) : Option (List UInt8) :=
  view.valueBuffer.map fun data =>
    data.read (view.valueOffsetTable g) (view.valueOffsetTable (g + 1) - view.valueOffsetTable g)

namespace ValueSort

/-- Two views that differ only in the order of the values inside the groups, as
far as everything but the size of the values goes. -/
structure ReordersValues (groups : List (List (List UInt8))) (view view' : InputBuffer) : Prop where
  recordCount : view'.recordCount = view.recordCount
  keyBufferSize : view'.keyBufferSize = view.keyBufferSize
  keys : view'.keyBuffer.map (fun data => data.read 0 view.keyBufferSize) =
    view.keyBuffer.map fun data => data.read 0 view.keyBufferSize
  keyOffsetTable : ∀ i ≤ view.recordCount, view'.keyOffsetTable i = view.keyOffsetTable i
  valueOffsetTable : ∀ i ≤ view.recordCount, view'.valueOffsetTable i = view.valueOffsetTable i
  values : ∀ g < view.recordCount, ∃ values bytes, groups[g]? = some values ∧
    view.groupBytes g = some values.flatten ∧ view'.groupBytes g = some bytes ∧
    Rearranges values bytes

/-- The views agree on everything else. -/
structure OnlyReordersValues (groups : List (List (List UInt8))) (view view' : InputBuffer) : Prop
    extends ReordersValues groups view view' where
  valueBufferSize : view'.valueBufferSize = view.valueBufferSize

/-- The values of the groups of a partition. -/
def valuesOf (mem : ByteMemory) (sorted : List (ℕ × Bool)) : List (List (List UInt8)) :=
  (groupsOf sorted).map fun group => group.map (valueAt mem)

variable {mem : ByteMemory} {sorted : List (ℕ × Bool)}

theorem flatten_valuesOf (mem : ByteMemory) (sorted : List (ℕ × Bool)) :
    (valuesOf mem sorted).flatten = sorted.map fun r => valueAt mem r.1 := by
  rw [valuesOf, ← List.map_flatten, flatten_groupsOf, List.map_map, Function.comp_def]

theorem groupBytes_eq (group : List ℕ) : groupBytes mem group = (group.map (valueAt mem)).flatten := by
  rw [groupBytes, List.flatMap_def]

theorem flatten_groupBytes (groups : List (List ℕ)) :
    (groups.map (groupBytes mem)).flatten =
      (groups.map fun group => group.map (valueAt mem)).flatten.flatten := by
  rw [List.flatten_flatten, List.map_map]
  exact congrArg List.flatten (List.map_congr_left fun group _ => groupBytes_eq group)

theorem totalValueSize_eq (mem : ByteMemory) (sorted : List (ℕ × Bool)) :
    (sizingPass mem sorted).totalValueSize = (sorted.map fun r => valueAt mem r.1).flatten.length := by
  induction sorted using List.reverseRecOn with
  | nil => rfl
  | append_singleton l r ih =>
    obtain ⟨ptr, mark⟩ := r
    rw [sizingPass_concat, List.map_append, List.flatten_append, List.length_append, ← ih]
    cases mark <;> simp [Sizes.add, valueAt]

theorem holdsValues_writeGroups (hhead : ∀ r ∈ sorted.head?, r.2 = false) (dst : GroupedBuffer) :
    HoldsValues (valuesOf mem sorted) (writeGroups mem sorted dst) := by
  have hwritten := @Written.foldl mem _ _ hhead (written_start sorted dst)
  have hstep := @InStep.foldl mem _ sorted _ (inStep_start sorted dst)
  rw [List.nil_append] at hstep
  have hholds := @writeGroups_spec mem _ hhead dst
  have hlength : (valuesOf mem sorted).flatten.length = sorted.length := by
    rw [flatten_valuesOf, List.length_map]
  have hgroups : (valuesOf mem sorted).length = (groupsOf sorted).length := List.length_map _
  refine ⟨hholds.groupCount.trans hgroups.symm, hlength.symm, ?_, ?_, ?_⟩
  · intro i hi
    rw [hlength] at hi
    refine (hstep.values i hi).trans ?_
    rw [totalValueSize_eq, flatten_valuesOf, List.map_take]
  · have hvalues := hwritten.values
    rw [flatten_groupBytes] at hvalues
    exact hvalues
  · intro g hg
    have hg' : g ≤ (sorted.foldl (outputRecord mem) (outputStart sorted dst)).j := by
      rw [hwritten.keys_count, List.length_map, ← hgroups]
      exact hg
    refine (hwritten.groupOffsets g hg').trans ?_
    rw [← List.map_take, flatten_groupBytes, valuesOf, ← List.map_take]

/-- The copy that is made of the output of `sort_records`. -/
theorem reordersValues (order : ValueOrder) (hhead : ∀ r ∈ sorted.head?, r.2 = false)
    (dst dst' : GroupedBuffer) :
    ∃ out, run order { layout := layoutFor mem sorted, buffer := writeGroups mem sorted dst } dst' =
        some out ∧
      ReordersValues (valuesOf mem sorted) (.bind (.grouped (writeGroups mem sorted dst)))
        (.bind (.grouped out.buffer)) ∧
      (InputBuffer.bind (.grouped out.buffer)).valueBufferSize = 0 ∧
      (InputBuffer.bind (.grouped (writeGroups mem sorted dst))).valueBufferSize =
        (sorted.map fun r => valueAt mem r.1).flatten.length := by
  have hvalues := @holdsValues_writeGroups mem _ hhead dst
  obtain ⟨out, hrun, hgroups, hrecords, hzero, hkeys, hkeyOffsets, hgroupOffsets, hrearranges⟩ :=
    @run_spec _ order { layout := layoutFor mem sorted, buffer := writeGroups mem sorted dst }
      hvalues dst'
  obtain ⟨hcount, hkeysEnd, hvaluesEnd⟩ := @writeGroups_ends mem _ hhead dst
  have hfits : (writeGroups mem sorted dst).keysOffsets (writeGroups mem sorted dst).groupCount ≤
      (layoutFor mem sorted).keysDataSize := by
    rw [hcount, hkeysEnd, layoutFor, keysDataSize_allocate]
    exact le_alignCeil _ (by omega)
  refine ⟨out, hrun, ⟨hgroups, ?_, ?_, ?_, ?_, ?_⟩, ?_, ?_⟩
  · simp only [InputBuffer.keyBufferSize, InputBuffer.bind, hgroups]
    exact hkeyOffsets _ le_rfl
  · -- the copy reaches over the bytes behind the last key
    obtain ⟨rest, hrest⟩ := Nat.exists_eq_add_of_le hfits
    rw [hrest, ByteMemory.read_add, ByteMemory.read_add] at hkeys
    exact congrArg some (List.append_inj hkeys (by simp)).1
  · exact hkeyOffsets
  · exact hgroupOffsets
  · intro g hg
    have hg' : g < (valuesOf mem sorted).length := by
      rw [← hvalues.groupCount]
      exact hg
    refine ⟨(valuesOf mem sorted)[g], out.buffer.groupValues g, List.getElem?_eq_getElem hg',
      congrArg some ?_, rfl, hrearranges g hg'⟩
    have hholds := (@writeGroups_spec mem _ hhead dst).groupValues g (by simpa [valuesOf] using hg')
    refine hholds.trans ?_
    rw [groupBytes_eq]
    simp [valuesOf]
  · simp only [InputBuffer.valueBufferSize, InputBuffer.bind, hrecords, hzero]
  · simp only [InputBuffer.valueBufferSize, InputBuffer.bind]
    refine hvaluesEnd.trans ?_
    rw [totalValueSize_eq]

theorem sortRecords_sorted {P p : ℕ} {bases pointers : List ℕ} (dst : GroupedBuffer)
    (hcollect : collectPointers mem P p bases = some pointers) :
    ∃ out, sortRecords mem P bases p dst = some out ∧ out.buffer = writeGroups mem out.sorted dst ∧
      (out.sorted.map Prod.fst).Perm pointers ∧ ∀ r ∈ out.sorted.head?, r.2 = false := by
  obtain ⟨out, marks, hsort, hsorted⟩ := sortPointers_spec mem pointers
  have hlength : out.length = marks.length := by
    rw [hsorted.marks_eq, MarkedSort.length_leftMarks]
  refine ⟨{ sorted := out.zip marks, buffer := writeGroups mem (out.zip marks) dst },
    by simp [sortRecords, hcollect, hsort], rfl, ?_, hsorted.head_unmarked⟩
  rw [List.map_fst_zip hlength.le]
  exact hsorted.perm

theorem sum_values_eq_zero {pointers : List ℕ} {records : List Record}
    (hperm : (sorted.map Prod.fst).Perm pointers) (hrecords : pointers.map (recordAt mem) = records) :
    (sorted.map fun r => valueAt mem r.1).flatten.length = 0 ↔ ∀ r ∈ records, r.value = [] := by
  have hvalue : ∀ ptr, (recordAt mem ptr).value = valueAt mem ptr := fun ptr => by rw [recordAt]
  rw [List.length_eq_zero_iff, List.flatten_eq_nil_iff, ← hrecords]
  constructor
  · intro h r hr
    obtain ⟨ptr, hptr, rfl⟩ := List.mem_map.mp hr
    obtain ⟨entry, hentry, rfl⟩ := List.mem_map.mp (hperm.mem_iff.mpr hptr)
    rw [hvalue]
    exact h _ (List.mem_map.mpr ⟨entry, hentry, rfl⟩)
  · intro h v hv
    obtain ⟨entry, hentry, rfl⟩ := List.mem_map.mp hv
    have hptr := hperm.mem_iff.mp (List.mem_map.mpr ⟨entry, hentry, rfl⟩)
    rw [← hvalue]
    exact h _ (List.mem_map.mpr ⟨entry.1, hptr, rfl⟩)

/-- With and without the comparator, for every partition of every input. -/
theorem reordersValues_sortRecords {P : ℕ} (hP : 0 < P) (hP' : P < 2 ^ 32) (arrivals : Arrivals P)
    (mem₀ : ByteMemory) {p : ℕ} (hp : p < P) (order : ValueOrder) (dst dst' : GroupedBuffer) :
    let mem := memoryAfter P arrivals.list mem₀
    ∃ out copy, sortRecords mem P (arrivals.list.map Arrival.base) p dst = some out ∧
      run order { layout := layoutFor mem out.sorted, buffer := out.buffer } dst' = some copy ∧
      ReordersValues (valuesOf mem out.sorted) (.bind (.grouped out.buffer))
        (.bind (.grouped copy.buffer)) ∧
      (InputBuffer.bind (.grouped copy.buffer)).valueBufferSize = 0 ∧
      ((InputBuffer.bind (.grouped out.buffer)).valueBufferSize = 0 ↔
        ∀ r ∈ partitionRecords P arrivals.list p, r.value = []) := by
  intro mem
  obtain ⟨pointers, hcollect, hrecords⟩ := collectPointers_spec hP hP' arrivals mem₀ hp
  obtain ⟨out, hsort, hbuffer, hperm, hhead⟩ := sortRecords_sorted dst hcollect
  obtain ⟨copy, hrun, hview, hzero, hsize⟩ := @reordersValues mem _ order hhead dst dst'
  refine ⟨out, copy, hsort, by rw [hbuffer]; exact hrun, by rw [hbuffer]; exact hview, hzero, ?_⟩
  rw [hbuffer, hsize]
  exact sum_values_eq_zero hperm hrecords

/-- The views agree on everything if and only if the partition has no value
bytes at all; on everything but the size of the values they always agree. -/
theorem only_reorders_values_iff {P : ℕ} (hP : 0 < P) (hP' : P < 2 ^ 32) (arrivals : Arrivals P)
    (mem₀ : ByteMemory) {p : ℕ} (hp : p < P) (order : ValueOrder) (dst dst' : GroupedBuffer) :
    let mem := memoryAfter P arrivals.list mem₀
    ∃ out copy, sortRecords mem P (arrivals.list.map Arrival.base) p dst = some out ∧
      run order { layout := layoutFor mem out.sorted, buffer := out.buffer } dst' = some copy ∧
      ReordersValues (valuesOf mem out.sorted) (.bind (.grouped out.buffer))
        (.bind (.grouped copy.buffer)) ∧
      (OnlyReordersValues (valuesOf mem out.sorted) (.bind (.grouped out.buffer))
          (.bind (.grouped copy.buffer)) ↔
        ∀ r ∈ partitionRecords P arrivals.list p, r.value = []) := by
  intro mem
  obtain ⟨out, copy, hsort, hrun, hview, hzero, hempty⟩ :=
    reordersValues_sortRecords hP hP' arrivals mem₀ hp order dst dst'
  refine ⟨out, copy, hsort, hrun, hview, ?_⟩
  rw [← hempty]
  constructor
  · intro h
    rw [← h.valueBufferSize, hzero]
  · intro h
    exact { hview with valueBufferSize := hzero.trans h.symm }

/-- A comparator by which no value stands before another one. -/
def keepOrder : ValueOrder := { sort := id, perm := fun _ => List.Perm.refl _ }

theorem only_reorders_values_iff_zeroTail :
    let mem := memoryAfter 1 zeroTailArrivals.list fun _ => 0
    ∃ out copy, sortRecords mem 1 (zeroTailArrivals.list.map Arrival.base) 0 emptyBuffer = some out ∧
      run keepOrder { layout := layoutFor mem out.sorted, buffer := out.buffer } emptyBuffer = some copy ∧
      ReordersValues (valuesOf mem out.sorted) (.bind (.grouped out.buffer))
        (.bind (.grouped copy.buffer)) ∧
      (OnlyReordersValues (valuesOf mem out.sorted) (.bind (.grouped out.buffer))
          (.bind (.grouped copy.buffer)) ↔
        ∀ r ∈ partitionRecords 1 zeroTailArrivals.list 0, r.value = []) :=
  only_reorders_values_iff (by decide) (by decide) zeroTailArrivals (fun _ => 0) Nat.one_pos keepOrder
    emptyBuffer emptyBuffer

/-- The size of the values is lost when there is a value. -/
theorem not_only_reorders_values :
    let mem := memoryAfter 1 zeroTailArrivals.list fun _ => 0
    ∃ out copy, sortRecords mem 1 (zeroTailArrivals.list.map Arrival.base) 0 emptyBuffer = some out ∧
      run keepOrder { layout := layoutFor mem out.sorted, buffer := out.buffer } emptyBuffer = some copy ∧
      ¬ OnlyReordersValues (valuesOf mem out.sorted) (.bind (.grouped out.buffer))
        (.bind (.grouped copy.buffer)) := by
  intro mem
  obtain ⟨out, copy, hsort, hrun, -, hzero, hempty⟩ := reordersValues_sortRecords (by decide)
    (by decide) zeroTailArrivals (fun _ => 0) Nat.one_pos keepOrder emptyBuffer emptyBuffer
  refine ⟨out, copy, hsort, hrun, fun h => ?_⟩
  have hvalues := hempty.mp (h.valueBufferSize.symm.trans hzero)
  have hpartition : keyPartition 1 (zeroTail.record 0).key = 0 :=
    Nat.lt_one_iff.mp (HashFunction.hashByteSequence_lt _ (by decide) (by decide))
  have hmem : zeroTail.record 0 ∈ partitionRecords 1 zeroTailArrivals.list 0 :=
    mem_partitionRecords.mpr ⟨by decide, hpartition⟩
  exact absurd (hvalues _ hmem) (by decide)

end ValueSort

end M3bp
