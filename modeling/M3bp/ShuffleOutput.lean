import M3bp.KeyOrder
import M3bp.RadixSortSpec
import M3bp.ShuffleScan

/-!
What the second pass writes, and with it the whole of `sort_records`. After the
records so far have been cut into groups, the keys of the groups and the values
of their records lie one after the other in the two data regions, and the offsets
are where they begin.
-/
namespace M3bp.Shuffle

open MarkedSort (groupsOf groupsOf_concat groupsOf_ne_nil nonempty_of_mem_groupsOf
  addToGroups_start addToGroups_join Sorted Grouped)

/-- The keys `ks` and the value bytes `vs` of the groups that have been written. -/
structure Written (ks vs : List (List UInt8)) (s : OutputState) : Prop where
  keys_count : s.j = ks.length
  values_count : s.j = vs.length
  keysOffsets : ∀ g ≤ s.j, s.buffer.keysOffsets g = (ks.take g).flatten.length
  keys : s.buffer.keysData.read 0 ks.flatten.length = ks.flatten
  groupOffsets : ∀ g ≤ s.j, s.buffer.groupOffsets g = (vs.take g).flatten.length
  valuesOffset : s.buffer.valuesOffsets s.i = vs.flatten.length
  values : s.buffer.valuesData.read 0 vs.flatten.length = vs.flatten

/-- The key of a group is the key of its first record. -/
def headKey (mem : ByteMemory) (group : List ℕ) : List UInt8 :=
  ((group.head?).map (KeyBlock.keyAt mem)).getD []

def groupBytes (mem : ByteMemory) (group : List ℕ) : List UInt8 := group.flatMap (valueAt mem)

variable {mem : ByteMemory} {ks vs : List (List UInt8)} {s : OutputState}

/-- A block that is appended to bytes that start at zero. -/
theorem read_write_append (data : ByteMemory) {old : List UInt8} (bytes : List UInt8)
    (h : data.read 0 old.length = old) :
    (data.write old.length bytes).read 0 (old ++ bytes).length = old ++ bytes := by
  have hold : (data.write old.length bytes).read 0 old.length = old := by
    rw [ByteMemory.read_write_of_disjoint data bytes (by omega), h]
  rw [List.length_append, ByteMemory.read_add, hold, Nat.zero_add, ByteMemory.read_write]

theorem offsets_update {offsets : ℕ → ℕ} {n x : ℕ} {bytes : List (List UInt8)} {b : List UInt8}
    (hn : n = bytes.length) (h : ∀ g ≤ n, offsets g = (bytes.take g).flatten.length)
    (hx : x = (bytes ++ [b]).flatten.length) :
    ∀ g ≤ n + 1, Function.update offsets (n + 1) x g = ((bytes ++ [b]).take g).flatten.length := by
  intro g hg
  rcases Nat.eq_or_lt_of_le hg with rfl | hlt
  · have hlen : (bytes ++ [b]).length ≤ n + 1 := by simp [hn]
    rw [Function.update_self, List.take_of_length_le hlen, hx]
  · have hne : g ≠ n + 1 := by omega
    rw [Function.update_of_ne hne, h g (by omega), List.take_append_of_le_length (by omega)]

theorem Written.outputKey (h : Written ks vs s) (ptr : ℕ) :
    Written (ks ++ [KeyBlock.keyAt mem ptr]) (vs ++ [[]]) (outputKey mem s ptr) := by
  have hoffset : s.buffer.keysOffsets s.j = ks.flatten.length := by
    rw [h.keysOffsets s.j le_rfl, List.take_of_length_le h.keys_count.ge]
  have hgroup : s.buffer.groupOffsets s.j = vs.flatten.length := by
    rw [h.groupOffsets s.j le_rfl, List.take_of_length_le h.values_count.ge]
  have hkey : (KeyBlock.keyAt mem ptr).length = KeyBlock.getKeyLength mem ptr := by
    simp [KeyBlock.keyAt]
  have hdata := read_write_append s.buffer.keysData (KeyBlock.keyAt mem ptr) h.keys
  refine ⟨?_, ?_, ?_, ?_, ?_, ?_, ?_⟩
  · simp [Shuffle.outputKey, h.keys_count]
  · simp [Shuffle.outputKey, h.values_count]
  · refine offsets_update h.keys_count h.keysOffsets ?_
    simp [hoffset, hkey]
  · simp only [Shuffle.outputKey, hoffset, List.flatten_append, List.flatten_singleton]
    exact hdata
  · refine offsets_update h.values_count h.groupOffsets ?_
    simp [hgroup]
  · simpa [Shuffle.outputKey] using h.valuesOffset
  · simpa [Shuffle.outputKey] using h.values

theorem Written.outputValue {v : List UInt8} (h : Written ks (vs ++ [v]) s) (ptr : ℕ) :
    Written ks (vs ++ [v ++ valueAt mem ptr]) (outputValue mem s ptr) := by
  have hj : s.j = vs.length + 1 := by simp [h.values_count]
  have hgroup : s.buffer.groupOffsets s.j = (vs ++ [v]).flatten.length := by
    rw [h.groupOffsets s.j le_rfl, List.take_of_length_le h.values_count.ge]
  have hvalue : (valueAt mem ptr).length =
      KeyBlock.getRecordLength mem ptr - KeyBlock.getKeyLength mem ptr := by
    simp [valueAt]
  have hflatten : (vs ++ [v ++ valueAt mem ptr]).flatten =
      (vs ++ [v]).flatten ++ valueAt mem ptr := by
    simp
  have hdata := read_write_append s.buffer.valuesData (valueAt mem ptr) h.values
  have hbefore : ∀ g ≤ vs.length,
      s.buffer.groupOffsets g = (vs.take g).flatten.length := by
    intro g hg
    rw [h.groupOffsets g (by omega), List.take_append_of_le_length hg]
  refine ⟨h.keys_count, ?_, h.keysOffsets, h.keys, ?_, ?_, ?_⟩
  · simpa [Shuffle.outputValue] using h.values_count
  · have hlast : s.buffer.groupOffsets s.j + (KeyBlock.getRecordLength mem ptr -
        KeyBlock.getKeyLength mem ptr) = (vs ++ [v ++ valueAt mem ptr]).flatten.length := by
      rw [hgroup, hflatten, List.length_append, hvalue]
    have hupdate := offsets_update (n := vs.length) rfl hbefore hlast
    simpa [Shuffle.outputValue, hj] using hupdate
  · simp only [Shuffle.outputValue, Function.update_self, h.valuesOffset, hflatten,
      List.length_append, hvalue]
  · simp only [Shuffle.outputValue, h.valuesOffset, hflatten]
    exact hdata

/-- One record of the second pass. -/
theorem Written.outputRecord {sorted : List (ℕ × Bool)} {r : ℕ × Bool}
    (h : Written ((groupsOf sorted).map (headKey mem)) ((groupsOf sorted).map (groupBytes mem)) s)
    (hr : r.2 = true → groupsOf sorted ≠ []) (hne : ∀ G ∈ groupsOf sorted, G ≠ []) :
    Written ((groupsOf (sorted ++ [r])).map (headKey mem))
      ((groupsOf (sorted ++ [r])).map (groupBytes mem)) (outputRecord mem s r) := by
  obtain ⟨ptr, mark⟩ := r
  rw [groupsOf_concat]
  cases mark with
  | false =>
    have hkey := @Written.outputValue mem _ _ _ _ (@Written.outputKey mem _ _ _ h ptr) ptr
    rw [addToGroups_start]
    simpa [Shuffle.outputRecord, headKey, groupBytes] using hkey
  | true =>
    rcases List.eq_nil_or_concat (groupsOf sorted) with hnil | ⟨gs, G, hgs⟩
    · exact absurd hnil (hr rfl)
    · rw [List.concat_eq_append] at hgs
      rw [hgs] at h hne ⊢
      rw [addToGroups_join]
      obtain ⟨a, G, rfl⟩ := List.exists_cons_of_ne_nil (hne G (by simp))
      rw [List.map_append, List.map_append, List.map_singleton, List.map_singleton] at h
      have hvalue := @Written.outputValue mem _ _ _ _ h ptr
      simpa [Shuffle.outputRecord, headKey, groupBytes] using hvalue

/-- The number of groups that the first pass counts. -/
theorem countGroups_eq {sorted : List (ℕ × Bool)} (hhead : ∀ r ∈ sorted.head?, r.2 = false) :
    countGroups sorted = (groupsOf sorted).length := by
  induction sorted using List.reverseRecOn with
  | nil => rfl
  | append_singleton l r ih =>
    rw [groupsOf_concat, countGroups, List.countP_append]
    rcases eq_or_ne l [] with rfl | hl
    · obtain ⟨ptr, mark⟩ := r
      have hmark : mark = false := hhead (ptr, mark) rfl
      subst hmark
      rfl
    · have hih := ih fun x hx => hhead x (by rw [List.head?_append_of_ne_nil _ hl]; exact hx)
      rw [countGroups] at hih
      obtain ⟨ptr, mark⟩ := r
      cases mark with
      | false => simp [addToGroups_start, hih]
      | true =>
        obtain ⟨gs, G, hgs⟩ := (List.eq_nil_or_concat (groupsOf l)).resolve_left (groupsOf_ne_nil hl)
        rw [List.concat_eq_append] at hgs
        rw [hgs] at hih ⊢
        rw [addToGroups_join]
        simpa using hih

/-- The whole second pass. -/
theorem Written.foldl {sorted : List (ℕ × Bool)} (hhead : ∀ r ∈ sorted.head?, r.2 = false)
    (h : Written [] [] s) :
    Written ((groupsOf sorted).map (headKey mem)) ((groupsOf sorted).map (groupBytes mem))
      (sorted.foldl (Shuffle.outputRecord mem) s) := by
  induction sorted using List.reverseRecOn with
  | nil => simpa [groupsOf] using h
  | append_singleton l r ih =>
    rw [List.foldl_append]
    rcases eq_or_ne l [] with rfl | hl
    · have hr : r.2 = false := hhead r rfl
      refine (ih (by simp)).outputRecord ?_ (nonempty_of_mem_groupsOf _)
      intro htrue
      rw [hr] at htrue
      cases htrue
    · have hih := ih fun x hx => hhead x (by rw [List.head?_append_of_ne_nil _ hl]; exact hx)
      exact hih.outputRecord (fun _ => groupsOf_ne_nil hl) (nonempty_of_mem_groupsOf _)

/-- A part of bytes that lie one after the other. -/
theorem read_part {data : ByteMemory} {bytes : List (List UInt8)} {g : ℕ} (hg : g < bytes.length)
    (h : data.read 0 bytes.flatten.length = bytes.flatten) :
    data.read (bytes.take g).flatten.length
      ((bytes.take (g + 1)).flatten.length - (bytes.take g).flatten.length) = bytes[g] := by
  have hsplit : bytes.flatten =
      (bytes.take g).flatten ++ (bytes[g] ++ (bytes.drop (g + 1)).flatten) := by
    conv_lhs => rw [← List.take_append_drop g bytes, List.drop_eq_getElem_cons hg]
    rw [List.flatten_append, List.flatten_cons]
  have hnext : (bytes.take (g + 1)).flatten.length =
      (bytes.take g).flatten.length + bytes[g].length := by
    rw [List.take_add_one, List.getElem?_eq_getElem hg, List.flatten_append, List.length_append,
      Option.toList_some, List.flatten_singleton]
  rw [hsplit, List.length_append, List.length_append, ByteMemory.read_add, ByteMemory.read_add,
    Nat.zero_add] at h
  obtain ⟨-, hrest⟩ := List.append_inj h (by simp)
  obtain ⟨hpart, -⟩ := List.append_inj hrest (by simp)
  rw [hnext, Nat.add_sub_cancel_left, hpart]

/-- What the grouped buffer holds. -/
structure HoldsGroups (mem : ByteMemory) (sorted : List (ℕ × Bool)) (b : GroupedBuffer) : Prop where
  groupCount : b.groupCount = (groupsOf sorted).length
  recordCount : b.recordCount = sorted.length
  groupKey : ∀ g (hg : g < (groupsOf sorted).length),
    b.groupKey g = headKey mem (groupsOf sorted)[g]
  groupValues : ∀ g (hg : g < (groupsOf sorted).length),
    b.groupValues g = groupBytes mem (groupsOf sorted)[g]

theorem writeGroups_spec {sorted : List (ℕ × Bool)} (hhead : ∀ r ∈ sorted.head?, r.2 = false)
    (dst : GroupedBuffer) : HoldsGroups mem sorted (writeGroups mem sorted dst) := by
  have hcount : ∀ (l : List (ℕ × Bool)) (s : OutputState),
      (l.foldl (outputRecord mem) s).buffer.groupCount = s.buffer.groupCount := by
    intro l
    induction l with
    | nil => exact fun _ => rfl
    | cons r l ih =>
      intro s
      rw [List.foldl_cons, ih]
      unfold outputRecord
      split <;> rfl
  let start : OutputState :=
    { i := 0, j := 0, buffer :=
      { dst with
        groupCount := countGroups sorted
        keysOffsets := Function.update dst.keysOffsets 0 0
        valuesOffsets := Function.update dst.valuesOffsets 0 0
        groupOffsets := Function.update dst.groupOffsets 0 0 } }
  have hstart : Written [] [] start := by
    refine ⟨rfl, rfl, ?_, rfl, ?_, ?_, rfl⟩ <;> simp [start]
  have hall := @Written.foldl mem _ _ hhead hstart
  have hgroups := hall.keys_count
  rw [List.length_map] at hgroups
  refine ⟨?_, rfl, ?_, ?_⟩
  · exact (hcount sorted start).trans (countGroups_eq hhead)
  · intro g hg
    have hpart := read_part (by simpa using hg) hall.keys
    rw [← hall.keysOffsets g (by omega), ← hall.keysOffsets (g + 1) (by omega),
      List.getElem_map] at hpart
    exact hpart
  · intro g hg
    have hpart := read_part (by simpa using hg) hall.values
    rw [← hall.groupOffsets g (by omega), ← hall.groupOffsets (g + 1) (by omega),
      List.getElem_map] at hpart
    exact hpart

/-- The blocks by which a partition is sorted. -/
def blocks (mem : ByteMemory) (pointers : List ℕ) (ptr : ℕ) : List ℕ :=
  RadixSort.windows (KeyBlock.view mem) (maxKeyLength mem pointers) 0 pointers ptr

theorem shows_keyAt (mem : ByteMemory) : Shows (KeyBlock.view mem) (KeyBlock.keyAt mem) := by
  refine ⟨fun ptr => by simp [KeyBlock.view, KeyBlock.keyAt], fun ptr m h => ?_⟩
  have hlen : 8 * m ≤ KeyBlock.getKeyLength mem ptr := by simpa [KeyBlock.keyAt] using h
  exact KeyBlock.getBlock_toNat hlen (ByteMemory.readWord_lt mem _)

theorem keyLength_le_max {pointers : List ℕ} {ptr : ℕ} (h : ptr ∈ pointers) :
    KeyBlock.getKeyLength mem ptr ≤ maxKeyLength mem pointers := by
  induction pointers with
  | nil => cases h
  | cons a pointers ih =>
    rcases List.mem_cons.mp h with rfl | h
    · exact le_max_left _ _
    · exact (ih h).trans (le_max_right _ _)

theorem sortPointers_spec (mem : ByteMemory) (pointers : List ℕ) :
    ∃ out marks, sortPointers mem pointers = some (out.zip marks) ∧
      Sorted (blocks mem pointers) pointers out marks := by
  have hpointers : RadixSort.pointers (sortInput pointers) = pointers := by
    have hid : (Entry.pointer ∘ fun ptr : ℕ => { cache := 0, pointer := ptr }) = id := rfl
    simp [RadixSort.pointers, sortInput, hid]
  have hfresh : RadixSort.Fresh (sortInput pointers) := ⟨by simp [sortInput], by simp [sortInput]⟩
  obtain ⟨s, hrun, hsorted⟩ := @RadixSort.msdRadixSort_spec _ (KeyBlock.view mem)
    (8 * maxKeyLength mem pointers + 1) (maxKeyLength mem pointers) _ hfresh
    (by
      intro ptr hptr
      rw [hpointers] at hptr
      have hle := @keyLength_le_max mem _ _ hptr
      simp only [KeyBlock.view]
      omega)
    (by
      intro e he
      obtain ⟨ptr, -, rfl⟩ := List.mem_map.mp he
      rfl)
    (by omega)
  rw [hpointers] at hsorted
  have hout := hsorted.sorted
  rw [hpointers] at hout
  exact ⟨s.primary.map Entry.pointer, s.equalsToLeft, by simp [sortPointers, hrun], hout⟩

/-- `out` is what comes of the pointers to the records of a partition. -/
structure SortsPartition (mem : ByteMemory) (pointers : List ℕ) (out : SortedPartition) : Prop where
  perm : (out.sorted.map Prod.fst).Perm pointers
  grouped : Grouped (blocks mem pointers) (out.sorted.map Prod.fst) (groupsOf out.sorted)
  holds : HoldsGroups mem out.sorted out.buffer

/-- The whole of `sort_records`. -/
theorem sortRecords_spec {P : ℕ} (hP : 0 < P) (hP' : P < 2 ^ 32) (arrivals : Arrivals P)
    (mem₀ : ByteMemory) {p : ℕ} (hp : p < P) (dst : GroupedBuffer) :
    let mem := memoryAfter P arrivals.list mem₀
    let bases := arrivals.list.map Arrival.base
    ∃ pointers out, collectPointers mem P p bases = some pointers ∧
      sortRecords mem P bases p dst = some out ∧
      pointers.map (recordAt mem) = partitionRecords P arrivals.list p ∧
      SortsPartition mem pointers out := by
  intro mem bases
  obtain ⟨pointers, hcollect, hrecords⟩ := collectPointers_spec hP hP' arrivals mem₀ hp
  obtain ⟨out, marks, hsort, hsorted⟩ := sortPointers_spec mem pointers
  have hlength : out.length = marks.length := by
    rw [hsorted.marks_eq, MarkedSort.length_leftMarks]
  have hfst : (out.zip marks).map Prod.fst = out := List.map_fst_zip hlength.le
  have hhead := hsorted.head_unmarked
  refine ⟨pointers, { sorted := out.zip marks, buffer := writeGroups mem (out.zip marks) dst },
    hcollect, by simp [sortRecords, bases, hcollect, hsort, mem], hrecords, ?_, ?_, ?_⟩
  · rw [hfst]
    exact hsorted.perm
  · rw [hfst, hsorted.marks_eq]
    exact MarkedSort.grouped_of_pairwise _ hsorted.pairwise
  · exact writeGroups_spec hhead dst

end M3bp.Shuffle
