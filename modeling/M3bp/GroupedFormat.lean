import M3bp.ShuffleOutput

/-!
The two passes over the sorted records. The first one adds up how much room the
keys, the values and the groups need, the buffer is laid out for exactly that
room, and the second one fills it.
-/
namespace M3bp

/-- `align_ceil`, for the powers of two that it accepts. -/
def alignCeil (x align : ℕ) : ℕ := (x + align - 1) / align * align

/-- Where the parts of a grouped buffer begin. A header of the keys stands
before the data of the keys, and a header of the values before theirs. -/
structure GroupedLayout where
  keysData : ℕ
  keysOffsets : ℕ
  valuesHeader : ℕ
  valuesData : ℕ
  valuesOffsets : ℕ
  groupOffsets : ℕ
  bufferSize : ℕ
  deriving DecidableEq, Repr

namespace GroupedLayout

/-- `data_buffer_size` of the keys. -/
def keysDataSize (l : GroupedLayout) : ℕ := l.keysOffsets - l.keysData

/-- `data_buffer_size` of the values. -/
def valuesDataSize (l : GroupedLayout) : ℕ := l.valuesOffsets - l.valuesData

end GroupedLayout

/-- `allocate_grouped_buffer`. -/
def allocateGroupedBuffer (maximumRecordCount maximumGroupCount totalKeySize totalValueSize : ℕ) :
    GroupedLayout :=
  let keysHeader := 2 * 8
  let keysData := alignCeil (keysHeader + 2 * 8) 16
  let keysOffsets := keysData + alignCeil totalKeySize 8
  let valuesHeader := keysOffsets + (maximumGroupCount + 1) * 8
  let valuesData := alignCeil (valuesHeader + 3 * 8) 16
  let valuesOffsets := valuesData + alignCeil totalValueSize 8
  let groupOffsets := valuesOffsets + (maximumRecordCount + 1) * 8
  { keysData := keysData
    keysOffsets := keysOffsets
    valuesHeader := valuesHeader
    valuesData := valuesData
    valuesOffsets := valuesOffsets
    groupOffsets := groupOffsets
    bufferSize := groupOffsets + (maximumGroupCount + 1) * 8 }

theorem le_alignCeil (x : ℕ) {align : ℕ} (h : 0 < align) : x ≤ alignCeil x align := by
  have hdiv := Nat.div_add_mod (x + align - 1) align
  have hmod := Nat.mod_lt (x + align - 1) h
  rw [alignCeil, Nat.mul_comm]
  omega

theorem keysDataSize_allocate (n groups keySize valueSize : ℕ) :
    (allocateGroupedBuffer n groups keySize valueSize).keysDataSize = alignCeil keySize 8 :=
  Nat.add_sub_cancel_left _ _

theorem valuesDataSize_allocate (n groups keySize valueSize : ℕ) :
    (allocateGroupedBuffer n groups keySize valueSize).valuesDataSize = alignCeil valueSize 8 :=
  Nat.add_sub_cancel_left _ _

namespace Shuffle

open MarkedSort (groupsOf startOf groupsOf_eq_starts)

/-- What the first pass adds up. -/
structure Sizes where
  groupCount : ℕ
  totalKeySize : ℕ
  totalValueSize : ℕ
  deriving DecidableEq, Repr

def Sizes.add (mem : ByteMemory) (z : Sizes) (r : ℕ × Bool) : Sizes :=
  let keyLength := KeyBlock.getKeyLength mem r.1
  let valueLength := KeyBlock.getRecordLength mem r.1 - KeyBlock.getKeyLength mem r.1
  let z := { z with totalValueSize := z.totalValueSize + valueLength }
  if r.2 then z
  else { z with totalKeySize := z.totalKeySize + keyLength, groupCount := z.groupCount + 1 }

/-- The first pass. -/
def sizingPass (mem : ByteMemory) (sorted : List (ℕ × Bool)) : Sizes :=
  sorted.foldl (Sizes.add mem) { groupCount := 0, totalKeySize := 0, totalValueSize := 0 }

/-- The buffer as it is laid out for the sorted records. -/
def layoutFor (mem : ByteMemory) (sorted : List (ℕ × Bool)) : GroupedLayout :=
  let z := sizingPass mem sorted
  allocateGroupedBuffer sorted.length z.groupCount z.totalKeySize z.totalValueSize

/-- The second pass before its loop. -/
def outputStart (sorted : List (ℕ × Bool)) (dst : GroupedBuffer) : OutputState :=
  { i := 0
    j := 0
    buffer :=
      { dst with
        groupCount := countGroups sorted
        keysOffsets := Function.update dst.keysOffsets 0 0
        valuesOffsets := Function.update dst.valuesOffsets 0 0
        groupOffsets := Function.update dst.groupOffsets 0 0 } }

/-- A `memcpy` into one of the data regions, or an entry of one of the tables. -/
inductive Access
  | keyBytes (offset length : ℕ)
  | keyOffset (index : ℕ)
  | valueBytes (offset length : ℕ)
  | valueOffset (index : ℕ)
  | groupOffset (index : ℕ)

/-- The access stays inside the part of the buffer that it is meant for. -/
def Access.Inside (l : GroupedLayout) : Access → Prop
  | .keyBytes offset length => l.keysData + offset + length ≤ l.keysOffsets
  | .keyOffset index => l.keysOffsets + 8 * (index + 1) ≤ l.valuesHeader
  | .valueBytes offset length => l.valuesData + offset + length ≤ l.valuesOffsets
  | .valueOffset index => l.valuesOffsets + 8 * (index + 1) ≤ l.groupOffsets
  | .groupOffset index => l.groupOffsets + 8 * (index + 1) ≤ l.bufferSize

def keyAccesses (mem : ByteMemory) (s : OutputState) (ptr : ℕ) : List Access :=
  [.keyBytes (s.buffer.keysOffsets s.j) (KeyBlock.getKeyLength mem ptr),
    .keyOffset s.j, .keyOffset (s.j + 1), .groupOffset s.j, .groupOffset (s.j + 1)]

def valueAccesses (mem : ByteMemory) (s : OutputState) (ptr : ℕ) : List Access :=
  [.valueBytes (s.buffer.valuesOffsets s.i)
      (KeyBlock.getRecordLength mem ptr - KeyBlock.getKeyLength mem ptr),
    .valueOffset s.i, .valueOffset (s.i + 1), .groupOffset s.j]

/-- How the second pass touches the buffer for one record. -/
def recordAccesses (mem : ByteMemory) (s : OutputState) (r : ℕ × Bool) : List Access :=
  if r.2 then valueAccesses mem s r.1
  else keyAccesses mem s r.1 ++ valueAccesses mem (outputKey mem s r.1) r.1

def passAccesses (mem : ByteMemory) (s : OutputState) : List (ℕ × Bool) → List Access
  | [] => []
  | r :: rest => recordAccesses mem s r ++ passAccesses mem (outputRecord mem s r) rest

variable {mem : ByteMemory}

/-! The sizes grow with the records. -/

theorem sizingPass_concat (sorted : List (ℕ × Bool)) (r : ℕ × Bool) :
    sizingPass mem (sorted ++ [r]) = (sizingPass mem sorted).add mem r := by
  simp [sizingPass]

structure Sizes.Le (z z' : Sizes) : Prop where
  groups : z.groupCount ≤ z'.groupCount
  keys : z.totalKeySize ≤ z'.totalKeySize
  values : z.totalValueSize ≤ z'.totalValueSize

theorem Sizes.le_add (z : Sizes) (r : ℕ × Bool) : z.Le (z.add mem r) := by
  obtain ⟨ptr, mark⟩ := r
  cases mark <;> exact ⟨by simp [Sizes.add], by simp [Sizes.add], by simp [Sizes.add]⟩

theorem sizingPass_le (done rest : List (ℕ × Bool)) :
    (sizingPass mem done).Le (sizingPass mem (done ++ rest)) := by
  induction rest generalizing done with
  | nil =>
    rw [List.append_nil]
    exact ⟨le_rfl, le_rfl, le_rfl⟩
  | cons r rest ih =>
    have hstep := @Sizes.le_add mem (sizingPass mem done) r
    rw [← sizingPass_concat] at hstep
    have hrest := ih (done ++ [r])
    rw [List.append_assoc, List.singleton_append] at hrest
    exact ⟨hstep.groups.trans hrest.groups, hstep.keys.trans hrest.keys,
      hstep.values.trans hrest.values⟩

theorem groupCount_sizingPass (sorted : List (ℕ × Bool)) :
    (sizingPass mem sorted).groupCount = countGroups sorted := by
  induction sorted using List.reverseRecOn with
  | nil => rfl
  | append_singleton l r ih =>
    obtain ⟨ptr, mark⟩ := r
    rw [sizingPass_concat, countGroups, List.countP_append, ← countGroups, ← ih]
    cases mark <;> simp [Sizes.add]

/-! The second pass keeps step with the first. -/

/-- The state of the second pass after the records `done`. -/
structure InStep (mem : ByteMemory) (done : List (ℕ × Bool)) (s : OutputState) : Prop where
  records : s.i = done.length
  groups : s.j = (sizingPass mem done).groupCount
  keys : s.buffer.keysOffsets s.j = (sizingPass mem done).totalKeySize
  values : ∀ i ≤ done.length,
    s.buffer.valuesOffsets i = (sizingPass mem (done.take i)).totalValueSize

theorem InStep.last {done : List (ℕ × Bool)} {s : OutputState} (h : InStep mem done s) :
    s.buffer.valuesOffsets s.i = (sizingPass mem done).totalValueSize := by
  rw [h.records, h.values _ le_rfl, List.take_length]

theorem inStep_start (sorted : List (ℕ × Bool)) (dst : GroupedBuffer) :
    InStep mem [] (outputStart sorted dst) := by
  refine ⟨rfl, rfl, rfl, fun i hi => ?_⟩
  have hzero : i = 0 := by simpa using hi
  subst hzero
  rfl

theorem InStep.outputRecord {done : List (ℕ × Bool)} {s : OutputState} (h : InStep mem done s)
    (r : ℕ × Bool) : InStep mem (done ++ [r]) (outputRecord mem s r) := by
  have hlast := h.last
  have hrecords := h.records
  have hvalues : ∀ i ≤ (done ++ [r]).length, Function.update s.buffer.valuesOffsets (s.i + 1)
      (s.buffer.valuesOffsets s.i +
        (KeyBlock.getRecordLength mem r.1 - KeyBlock.getKeyLength mem r.1)) i =
      (sizingPass mem ((done ++ [r]).take i)).totalValueSize := by
    intro i hi
    rw [List.length_append, List.length_singleton] at hi
    rcases Nat.lt_or_eq_of_le hi with hlt | rfl
    · have hne : i ≠ s.i + 1 := by omega
      rw [Function.update_of_ne hne, h.values i (by omega), List.take_append_of_le_length (by omega)]
    · rw [← hrecords, Function.update_self, hlast, List.take_of_length_le (by simp [hrecords]),
        sizingPass_concat]
      obtain ⟨ptr, mark⟩ := r
      cases mark <;> simp [Sizes.add]
  obtain ⟨ptr, mark⟩ := r
  cases mark with
  | false =>
    refine ⟨?_, ?_, ?_, hvalues⟩
    · simp [Shuffle.outputRecord, outputValue, outputKey, hrecords]
    · simp [Shuffle.outputRecord, outputValue, outputKey, h.groups, sizingPass_concat, Sizes.add]
    · simp [Shuffle.outputRecord, outputValue, outputKey, h.keys, sizingPass_concat, Sizes.add]
  | true =>
    refine ⟨?_, ?_, ?_, hvalues⟩
    · simp [Shuffle.outputRecord, outputValue, hrecords]
    · simp [Shuffle.outputRecord, outputValue, h.groups, sizingPass_concat, Sizes.add]
    · simp [Shuffle.outputRecord, outputValue, h.keys, sizingPass_concat, Sizes.add]

theorem InStep.foldl {done rest : List (ℕ × Bool)} {s : OutputState} (h : InStep mem done s) :
    InStep mem (done ++ rest) (rest.foldl (Shuffle.outputRecord mem) s) := by
  induction rest generalizing done s with
  | nil => simpa using h
  | cons r rest ih =>
    have hrest := ih (h.outputRecord r)
    rwa [List.append_assoc, List.singleton_append] at hrest

/-! The accesses. -/

/-- What fits into the sizes fits into the layout that is made for them. -/
theorem inside_layout (n : ℕ) (z : Sizes) (a : Access)
    (h : match a with
      | .keyBytes offset length => offset + length ≤ z.totalKeySize
      | .keyOffset index => index ≤ z.groupCount
      | .valueBytes offset length => offset + length ≤ z.totalValueSize
      | .valueOffset index => index ≤ n
      | .groupOffset index => index ≤ z.groupCount) :
    a.Inside (allocateGroupedBuffer n z.groupCount z.totalKeySize z.totalValueSize) := by
  have hkeys := @le_alignCeil z.totalKeySize 8 (by omega)
  have hvalues := @le_alignCeil z.totalValueSize 8 (by omega)
  cases a <;> simp only [Access.Inside, allocateGroupedBuffer] at h ⊢ <;> omega

theorem InStep.inside {done rest sorted : List (ℕ × Bool)} {s : OutputState} {r : ℕ × Bool}
    (h : InStep mem done s) (hall : sorted = done ++ r :: rest) :
    ∀ a ∈ recordAccesses mem s r, a.Inside (layoutFor mem sorted) := by
  have hle := @sizingPass_le mem (done ++ [r]) rest
  rw [List.append_assoc, List.singleton_append, ← hall, sizingPass_concat] at hle
  obtain ⟨hgroups, hkeys, hvalues⟩ := hle
  have hlength : done.length + 1 ≤ sorted.length := by simp [hall]
  have hj := h.groups
  have hi := h.records
  have hkey := h.keys
  have hvalue := h.last
  obtain ⟨ptr, mark⟩ := r
  intro a ha
  refine inside_layout _ _ a ?_
  cases mark with
  | false =>
    simp only [Sizes.add, Bool.false_eq_true, if_false] at hgroups hkeys hvalues
    simp only [recordAccesses, keyAccesses, valueAccesses, outputKey, Bool.false_eq_true, if_false,
      List.cons_append, List.nil_append, List.mem_cons, List.not_mem_nil, or_false] at ha
    rcases ha with rfl | rfl | rfl | rfl | rfl | rfl | rfl | rfl | rfl <;> dsimp only <;> omega
  | true =>
    simp only [Sizes.add, if_true] at hgroups hkeys hvalues
    simp only [recordAccesses, valueAccesses, if_true, List.mem_cons, List.not_mem_nil,
      or_false] at ha
    rcases ha with rfl | rfl | rfl | rfl <;> dsimp only <;> omega

theorem InStep.passInside {done rest sorted : List (ℕ × Bool)} {s : OutputState}
    (h : InStep mem done s) (hall : sorted = done ++ rest) :
    ∀ a ∈ passAccesses mem s rest, a.Inside (layoutFor mem sorted) := by
  induction rest generalizing done s with
  | nil => simp [passAccesses]
  | cons r rest ih =>
    intro a ha
    rcases List.mem_append.mp ha with ha | ha
    · exact h.inside hall a ha
    · exact ih (h.outputRecord r) (by simp [hall]) a ha

/-! The finished buffer. -/

theorem written_start (sorted : List (ℕ × Bool)) (dst : GroupedBuffer) :
    Written [] [] (outputStart sorted dst) := by
  refine ⟨rfl, rfl, ?_, rfl, ?_, ?_, rfl⟩ <;> simp [outputStart]

theorem length_flatten_take_mono {bytes : List (List UInt8)} (g : ℕ) :
    (bytes.take g).flatten.length ≤ (bytes.take (g + 1)).flatten.length := by
  rw [List.take_add_one, List.flatten_append, List.length_append]
  exact Nat.le_add_right _ _

/-- The last entries of the tables. -/
theorem writeGroups_ends {sorted : List (ℕ × Bool)} (hhead : ∀ r ∈ sorted.head?, r.2 = false)
    (dst : GroupedBuffer) :
    let z := sizingPass mem sorted
    let b := writeGroups mem sorted dst
    b.groupCount = z.groupCount ∧ b.keysOffsets z.groupCount = z.totalKeySize ∧
      b.valuesOffsets sorted.length = z.totalValueSize := by
  intro z b
  have hstep := @InStep.foldl mem _ sorted _ (inStep_start sorted dst)
  rw [List.nil_append] at hstep
  refine ⟨?_, ?_, ?_⟩
  · rw [groupCount_sizingPass, countGroups_eq hhead]
    exact (writeGroups_spec hhead dst).groupCount
  · rw [← hstep.groups]
    exact hstep.keys
  · refine (hstep.values _ le_rfl).trans ?_
    rw [List.take_length]

/-- The two passes over the sorted records, for any marks of which the first is
not set and any contents of the allocated buffer. -/
theorem passes_agree (mem : ByteMemory) (sorted : List (ℕ × Bool))
    (hhead : ∀ r ∈ sorted.head?, r.2 = false) (dst : GroupedBuffer) :
    let z := sizingPass mem sorted
    let start := outputStart sorted dst
    let s := sorted.foldl (outputRecord mem) start
    let b := writeGroups mem sorted dst
    (s.j = z.groupCount ∧ s.i = sorted.length) ∧
    (b.groupCount = z.groupCount ∧ b.recordCount = sorted.length) ∧
    (b.keysOffsets z.groupCount = z.totalKeySize ∧
      b.valuesOffsets sorted.length = z.totalValueSize) ∧
    (∀ a ∈ passAccesses mem start sorted, a.Inside (layoutFor mem sorted)) ∧
    (b.keysOffsets 0 = 0 ∧ ∀ g < z.groupCount, b.keysOffsets g ≤ b.keysOffsets (g + 1)) ∧
    (b.valuesOffsets 0 = 0 ∧ ∀ i < sorted.length, b.valuesOffsets i ≤ b.valuesOffsets (i + 1)) ∧
    (b.groupOffsets 0 = 0 ∧ ∀ g < z.groupCount, b.groupOffsets g ≤ b.groupOffsets (g + 1)) ∧
    ∀ g < z.groupCount, b.groupValues g =
      ((sorted.take (startOf sorted (g + 1))).drop (startOf sorted g)).flatMap
        fun r => valueAt mem r.1 := by
  intro z start s b
  have hstep : InStep mem sorted s := by
    have h := @InStep.foldl mem _ sorted _ (inStep_start sorted dst)
    rwa [List.nil_append] at h
  have hwritten := @Written.foldl mem _ _ hhead (written_start sorted dst)
  have hholds := @writeGroups_spec mem _ hhead dst
  have hcount : z.groupCount = (groupsOf sorted).length := by
    rw [groupCount_sizingPass, countGroups_eq hhead]
  have hj : s.j = z.groupCount := hstep.groups
  have hkeysOffsets : ∀ g ≤ z.groupCount, b.keysOffsets g = _ := fun g hg =>
    hwritten.keysOffsets g (hg.trans hj.ge)
  have hgroupOffsets : ∀ g ≤ z.groupCount, b.groupOffsets g = _ := fun g hg =>
    hwritten.groupOffsets g (hg.trans hj.ge)
  have hvaluesOffsets : ∀ i ≤ sorted.length, b.valuesOffsets i = _ := hstep.values
  obtain ⟨hgroups, hkeys, hvalues⟩ := @writeGroups_ends mem _ hhead dst
  refine ⟨⟨hj, hstep.records⟩, ⟨hgroups, rfl⟩, ⟨hkeys, hvalues⟩, ?_, ⟨?_, ?_⟩, ⟨?_, ?_⟩, ⟨?_, ?_⟩, ?_⟩
  · exact (inStep_start sorted dst).passInside rfl
  · rw [hkeysOffsets 0 (Nat.zero_le _)]
    rfl
  · intro g hg
    rw [hkeysOffsets g hg.le, hkeysOffsets (g + 1) hg]
    exact length_flatten_take_mono g
  · rw [hvaluesOffsets 0 (Nat.zero_le _)]
    rfl
  · intro i hi
    have hsplit : sorted.take (i + 1) = sorted.take i ++ (sorted[i]?).toList := List.take_add_one
    rw [hvaluesOffsets i hi.le, hvaluesOffsets (i + 1) hi, hsplit]
    exact (sizingPass_le _ _).values
  · rw [hgroupOffsets 0 (Nat.zero_le _)]
    rfl
  · intro g hg
    rw [hgroupOffsets g hg.le, hgroupOffsets (g + 1) hg]
    exact length_flatten_take_mono g
  · intro g hg
    have hg' : g < (groupsOf sorted).length := hg.trans_eq hcount
    have hgroup := (groupsOf_eq_starts hhead).2 g hg'
    rw [List.getElem?_eq_getElem hg', Option.some.injEq] at hgroup
    rw [hholds.groupValues g hg', hgroup, groupBytes, List.flatMap_map]

/-- Two records with a key of one byte, and one that is all key. -/
def threeRecords : ByteMemory := fun x =>
  if x = 0 ∨ x = 200 then 3 else if x = 8 ∨ x = 208 then 1 else if x = 100 ∨ x = 108 then 2 else 0

def threeSorted : List (ℕ × Bool) := [(100, false), (0, false), (200, true)]

theorem passes_agree_threeRecords :
    let z := sizingPass threeRecords threeSorted
    let start := outputStart threeSorted emptyBuffer
    let s := threeSorted.foldl (outputRecord threeRecords) start
    let b := writeGroups threeRecords threeSorted emptyBuffer
    (s.j = z.groupCount ∧ s.i = 3) ∧
    (b.groupCount = z.groupCount ∧ b.recordCount = 3) ∧
    (b.keysOffsets z.groupCount = z.totalKeySize ∧ b.valuesOffsets 3 = z.totalValueSize) ∧
    (∀ a ∈ passAccesses threeRecords start threeSorted, a.Inside (layoutFor threeRecords threeSorted)) ∧
    (b.keysOffsets 0 = 0 ∧ ∀ g < z.groupCount, b.keysOffsets g ≤ b.keysOffsets (g + 1)) ∧
    (b.valuesOffsets 0 = 0 ∧ ∀ i < 3, b.valuesOffsets i ≤ b.valuesOffsets (i + 1)) ∧
    (b.groupOffsets 0 = 0 ∧ ∀ g < z.groupCount, b.groupOffsets g ≤ b.groupOffsets (g + 1)) ∧
    ∀ g < z.groupCount, b.groupValues g =
      ((threeSorted.take (startOf threeSorted (g + 1))).drop (startOf threeSorted g)).flatMap
        fun r => valueAt threeRecords r.1 :=
  passes_agree threeRecords threeSorted (by simp [threeSorted]) emptyBuffer

example : sizingPass threeRecords threeSorted =
    { groupCount := 2, totalKeySize := 3, totalValueSize := 4 } := by decide

end Shuffle

end M3bp
