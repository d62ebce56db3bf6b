import M3bp.GroupedFormat
import M3bp.InputBuffer

/-!
`ValueSortLogicalTask::run`, which copies a grouped fragment with the values of
each group in the order of a comparator. It finds the values of a group by their
offsets, so that empty values at the end of a group are taken for values of the
next one.
-/
namespace M3bp

/-- A grouped fragment with its headers. -/
structure GroupedFragment where
  layout : GroupedLayout
  buffer : GroupedBuffer

/-- What the comparator makes of `std::sort` for pairs of a value's offset and
its index: some rearrangement. -/
structure ValueOrder where
  sort : List (ℕ × ℕ) → List (ℕ × ℕ)
  perm : ∀ pairs, (sort pairs).Perm pairs

namespace ValueSort

/-- `while(in_value_offsets[v] < in_group_offsets[g + 1])`. -/
def takeValues (inValueOffsets : ℕ → ℕ) (groupEnd : ℕ) : ℕ → ℕ → Option (List (ℕ × ℕ))
  | 0, _ => none
  | fuel + 1, v =>
    if inValueOffsets v < groupEnd then do
      let rest ← takeValues inValueOffsets groupEnd fuel (v + 1)
      some ((inValueOffsets v, v) :: rest)
    else some []

/-- `w` and what has been written of the output. -/
structure CopyState where
  w : ℕ
  valuesData : ByteMemory
  valuesOffsets : ℕ → ℕ

def copyValue (input : GroupedBuffer) (s : CopyState) (p : ℕ × ℕ) : CopyState :=
  let len := input.valuesOffsets (p.2 + 1) - input.valuesOffsets p.2
  let offset := s.valuesOffsets s.w
  { w := s.w + 1
    valuesData := s.valuesData.write offset (input.valuesData.read p.1 len)
    valuesOffsets := Function.update s.valuesOffsets (s.w + 1) (offset + len) }

/-- The loop over the groups: `w` starts at `v`, which moves behind the values
that were taken. -/
def sortGroup (order : ValueOrder) (input : GroupedBuffer) (s : CopyState) (g : ℕ) :
    Option CopyState := do
  let pairs ← takeValues input.valuesOffsets (input.groupOffsets (g + 1)) (input.recordCount + 1) s.w
  let copied := (order.sort pairs).foldl (copyValue input) s
  some { copied with w := s.w + pairs.length }

/-- `ValueSortLogicalTask::run`, into the freshly allocated `dst`. The headers of
`dst` are those that the allocation writes. -/
def run (order : ValueOrder) (input : GroupedFragment) (dst : GroupedBuffer) :
    Option GroupedFragment := do
  let valueCount := input.buffer.recordCount
  let groupCount := input.buffer.groupCount
  let keysSize := input.layout.keysDataSize
  let valuesSize := input.layout.valuesDataSize
  let start : CopyState :=
    { w := 0
      valuesData := dst.valuesData
      valuesOffsets := Function.update dst.valuesOffsets 0 0 }
  let s ← (List.range groupCount).foldlM (sortGroup order input.buffer) start
  some
    { layout := allocateGroupedBuffer valueCount groupCount keysSize valuesSize
      buffer :=
        { groupCount := groupCount
          recordCount := 0
          keysData := dst.keysData.write 0 (input.buffer.keysData.read 0 keysSize)
          keysOffsets := fun i =>
            if i < groupCount + 1 then input.buffer.keysOffsets i else dst.keysOffsets i
          valuesData := s.valuesData
          valuesOffsets := s.valuesOffsets
          groupOffsets := fun i =>
            if i < groupCount + 1 then input.buffer.groupOffsets i else dst.groupOffsets i } }

/-! What a fragment holds. -/

/-- The values of the groups lie one after the other in the data. -/
structure HoldsValues (groups : List (List (List UInt8))) (b : GroupedBuffer) : Prop where
  groupCount : b.groupCount = groups.length
  recordCount : b.recordCount = groups.flatten.length
  valuesOffsets : ∀ i ≤ groups.flatten.length,
    b.valuesOffsets i = (groups.flatten.take i).flatten.length
  values : b.valuesData.read 0 groups.flatten.flatten.length = groups.flatten.flatten
  groupOffsets : ∀ g ≤ groups.length, b.groupOffsets g = (groups.take g).flatten.flatten.length

variable {groups : List (List (List UInt8))} {b : GroupedBuffer}

/-- The index of the first value of group `g`. -/
def firstValue (groups : List (List (List UInt8))) (g : ℕ) : ℕ := (groups.take g).flatten.length

theorem take_firstValue (groups : List (List (List UInt8))) (g : ℕ) :
    groups.flatten.take (firstValue groups g) = (groups.take g).flatten := by
  have hsplit : groups.flatten = (groups.take g).flatten ++ (groups.drop g).flatten := by
    rw [← List.flatten_append, List.take_append_drop]
  rw [hsplit, firstValue, List.take_left']
  rfl

theorem firstValue_le (groups : List (List (List UInt8))) (g : ℕ) :
    firstValue groups g ≤ groups.flatten.length := by
  have hlength := congrArg List.length (take_firstValue groups g)
  rw [List.length_take, firstValue] at hlength
  rw [firstValue]
  omega

theorem HoldsValues.groupOffset (h : HoldsValues groups b) {g : ℕ} (hg : g ≤ groups.length) :
    b.groupOffsets g = b.valuesOffsets (firstValue groups g) := by
  rw [h.groupOffsets g hg, h.valuesOffsets _ (firstValue_le groups g), take_firstValue]

theorem HoldsValues.mono (h : HoldsValues groups b) {i j : ℕ} (hij : i ≤ j)
    (hj : j ≤ groups.flatten.length) : b.valuesOffsets i ≤ b.valuesOffsets j := by
  have htake : groups.flatten.take i = (groups.flatten.take j).take i := by
    rw [List.take_take, Nat.min_eq_left hij]
  rw [h.valuesOffsets i (hij.trans hj), h.valuesOffsets j hj, htake]
  conv_rhs => rw [← List.take_append_drop i (groups.flatten.take j)]
  rw [List.flatten_append, List.length_append]
  exact Nat.le_add_right _ _

theorem HoldsValues.read_value (h : HoldsValues groups b) {i : ℕ} (hi : i < groups.flatten.length) :
    b.valuesData.read (b.valuesOffsets i) (b.valuesOffsets (i + 1) - b.valuesOffsets i) =
      groups.flatten[i] := by
  rw [h.valuesOffsets i hi.le, h.valuesOffsets (i + 1) hi]
  exact Shuffle.read_part hi h.values

theorem HoldsValues.length_value (h : HoldsValues groups b) {i : ℕ} (hi : i < groups.flatten.length) :
    (groups.flatten[i]).length = b.valuesOffsets (i + 1) - b.valuesOffsets i := by
  rw [← h.read_value hi, ByteMemory.length_read]

/-! Parts of the list of values. -/

theorem slice_append {α : Type} (l : List α) {i j k : ℕ} (hij : i ≤ j) (hjk : j ≤ k) :
    (l.take k).drop i = (l.take j).drop i ++ (l.take k).drop j := by
  have hsplit : l.take k = l.take j ++ (l.take k).drop j := by
    have htake : l.take j = (l.take k).take j := by rw [List.take_take, Nat.min_eq_left hjk]
    rw [htake, List.take_append_drop]
  rcases Nat.le_total j l.length with hle | hge
  · conv_lhs => rw [hsplit, List.drop_append_of_le_length (by rw [List.length_take]; omega)]
  · rw [List.take_of_length_le hge, List.take_of_length_le (hge.trans hjk),
      List.drop_eq_nil_of_le hge, List.append_nil]

theorem slice_eq_map {α : Type} [Inhabited α] (l : List α) {i n : ℕ} (h : i + n ≤ l.length) :
    (l.take (i + n)).drop i = (List.range' i n).map fun j => l.getD j default := by
  refine List.ext_getElem (by simp; omega) fun k hk hk' => ?_
  have hlt : i + k < l.length := by
    simp at hk'
    omega
  simp [List.getElem_drop, List.getD_eq_getElem?_getD, List.getElem?_eq_getElem hlt]

/-- Empty values aside, the values from `i` to `j` are those from `i'` to `j'`
where everything between the bounds is empty. -/
theorem filter_slice {l : List (List UInt8)} {i i' j j' : ℕ} (hi : i ≤ i') (hi' : i' ≤ j')
    (hj : i ≤ j) (hj' : j ≤ j') (hfront : ∀ k (hk : k < l.length), i ≤ k → k < i' → l[k] = [])
    (hback : ∀ k (hk : k < l.length), j ≤ k → k < j' → l[k] = []) :
    ((l.take j).drop i).filter (fun v => !v.isEmpty) =
      ((l.take j').drop i').filter fun v => !v.isEmpty := by
  have hempty : ∀ a c, (∀ k (hk : k < l.length), a ≤ k → k < c → l[k] = []) →
      ((l.take c).drop a).filter (fun v => !v.isEmpty) = [] := by
    intro a c h
    refine List.filter_eq_nil_iff.mpr fun v hv => ?_
    obtain ⟨k, hk, rfl⟩ := List.mem_iff_getElem.mp hv
    rw [List.length_drop, List.length_take] at hk
    have hk' : a + k < l.length := by omega
    rw [List.getElem_drop, List.getElem_take, h (a + k) (by omega) (Nat.le_add_right a k) (by omega)]
    simp
  have hleft := slice_append l hi hi'
  have hright := slice_append l hj hj'
  have hboth := hright.symm.trans hleft
  have hfilter := congrArg (List.filter fun v => !v.isEmpty) hboth
  rw [List.filter_append, List.filter_append, hempty i i' hfront, hempty j j' hback,
    List.append_nil, List.nil_append] at hfilter
  exact hfilter

/-- Bytes that are a rearrangement of values. -/
def Rearranges (values : List (List UInt8)) (bytes : List UInt8) : Prop :=
  ∃ rearranged : List (List UInt8), rearranged.Perm values ∧ bytes = rearranged.flatten

theorem Rearranges.length {values : List (List UInt8)} {bytes : List UInt8}
    (h : Rearranges values bytes) : bytes.length = values.flatten.length := by
  obtain ⟨rearranged, hperm, rfl⟩ := h
  rw [List.length_flatten, List.length_flatten]
  exact (hperm.map List.length).sum_eq

/-- Empty values do not count. -/
theorem rearranges_of_filter {values taken sorted : List (List UInt8)} (hperm : sorted.Perm taken)
    (hfilter : taken.filter (fun v => !v.isEmpty) = values.filter fun v => !v.isEmpty) :
    Rearranges values sorted.flatten := by
  refine ⟨sorted.filter (fun v => !v.isEmpty) ++ values.filter (fun v => !(!v.isEmpty)), ?_, ?_⟩
  · have hsorted := hperm.filter fun v => !v.isEmpty
    rw [hfilter] at hsorted
    exact (hsorted.append_right _).trans (List.filter_append_perm _ _)
  · have hnil : (values.filter fun v => !(!v.isEmpty)).flatten = [] := by
      refine List.flatten_eq_nil_iff.mpr fun v hv => ?_
      simpa using (List.mem_filter.mp hv).2
    rw [List.flatten_append, hnil, List.append_nil, List.flatten_filter_not_isEmpty]

/-! The loops. -/

theorem takeValues_spec {offsets : ℕ → ℕ} {groupEnd fuel v m : ℕ} (hv : v ≤ m) (hfuel : m < fuel + v)
    (hend : groupEnd ≤ offsets m) :
    ∃ n, takeValues offsets groupEnd fuel v = some ((List.range' v n).map fun i => (offsets i, i)) ∧
      v + n ≤ m ∧ groupEnd ≤ offsets (v + n) := by
  induction fuel generalizing v with
  | zero => omega
  | succ fuel ih =>
    by_cases hlt : offsets v < groupEnd
    · have hne : v ≠ m := by
        rintro rfl
        omega
      obtain ⟨n, htake, hle, hstop⟩ := ih (v := v + 1) (by omega) (by omega)
      refine ⟨n + 1, ?_, by omega, ?_⟩
      · rw [takeValues, if_pos hlt, htake, List.range'_succ]
        rfl
      · have hsum : v + (n + 1) = v + 1 + n := by omega
        rwa [hsum]
    · refine ⟨0, ?_, hv, Nat.le_of_not_lt hlt⟩
      rw [takeValues, if_neg hlt]
      rfl

/-- The bytes that have been written end where the next value goes. -/
structure Filled (bytes : List UInt8) (s : CopyState) : Prop where
  offset : s.valuesOffsets s.w = bytes.length
  data : s.valuesData.read 0 bytes.length = bytes
  first : s.valuesOffsets 0 = 0

/-- The bytes of value `i`. -/
def valueBytes (b : GroupedBuffer) (i : ℕ) : List UInt8 :=
  b.valuesData.read (b.valuesOffsets i) (b.valuesOffsets (i + 1) - b.valuesOffsets i)

@[simp] theorem length_valueBytes (b : GroupedBuffer) (i : ℕ) :
    (valueBytes b i).length = b.valuesOffsets (i + 1) - b.valuesOffsets i :=
  ByteMemory.length_read _ _ _

theorem Filled.copyValue {bytes : List UInt8} {s : CopyState} (b : GroupedBuffer)
    (hs : Filled bytes s) (i : ℕ) :
    Filled (bytes ++ valueBytes b i) (copyValue b s (b.valuesOffsets i, i)) := by
  refine ⟨?_, ?_, ?_⟩
  · simp [ValueSort.copyValue, hs.offset]
  · have hread := Shuffle.read_write_append s.valuesData (valueBytes b i) hs.data
    simp only [ValueSort.copyValue, hs.offset]
    exact hread
  · simp [ValueSort.copyValue, hs.first]

theorem Filled.foldl {bytes : List UInt8} {s : CopyState} (b : GroupedBuffer) (hs : Filled bytes s)
    (pairs : List (ℕ × ℕ)) (hpairs : ∀ p ∈ pairs, p.1 = b.valuesOffsets p.2) :
    Filled (bytes ++ (pairs.map fun p => valueBytes b p.2).flatten)
        (pairs.foldl (ValueSort.copyValue b) s) ∧
      (pairs.foldl (ValueSort.copyValue b) s).w = s.w + pairs.length := by
  induction pairs generalizing bytes s with
  | nil => exact ⟨by simpa using hs, rfl⟩
  | cons p pairs ih =>
    obtain ⟨offset, i⟩ := p
    have hoffset : offset = b.valuesOffsets i := hpairs (offset, i) List.mem_cons_self
    subst hoffset
    obtain ⟨hfilled, hw⟩ := ih (hs.copyValue b i) fun p hp => hpairs p (List.mem_cons_of_mem _ hp)
    constructor
    · simp only [List.foldl_cons, List.map_cons, List.flatten_cons, ← List.append_assoc]
      exact hfilled
    · rw [List.foldl_cons, hw, List.length_cons]
      simp only [ValueSort.copyValue]
      omega

/-- After the first `g` groups: what has been written of each, and where `v`
stands. The values that it has not taken are empty. -/
structure SortedGroups (groups : List (List (List UInt8))) (g : ℕ) (written : List (List UInt8))
    (s : CopyState) : Prop where
  rearranged : List.Forall₂ Rearranges (groups.take g) written
  filled : Filled written.flatten s
  behind : s.w ≤ firstValue groups g
  empty : ∀ i (hi : i < groups.flatten.length), s.w ≤ i → i < firstValue groups g →
    groups.flatten[i] = []

theorem firstValue_succ {g : ℕ} (hg : g < groups.length) :
    firstValue groups (g + 1) = firstValue groups g + groups[g].length := by
  rw [firstValue, List.take_add_one, List.getElem?_eq_getElem hg, List.flatten_append,
    List.length_append, Option.toList_some, List.flatten_singleton, firstValue]

theorem slice_group {g : ℕ} (hg : g < groups.length) :
    (groups.flatten.take (firstValue groups (g + 1))).drop (firstValue groups g) = groups[g] := by
  rw [take_firstValue, List.take_add_one, List.getElem?_eq_getElem hg, Option.toList_some,
    List.flatten_append, List.flatten_singleton, firstValue, List.drop_left']
  rfl

theorem length_written {values : List (List (List UInt8))} {written : List (List UInt8)}
    (h : List.Forall₂ Rearranges values written) :
    written.flatten.length = values.flatten.flatten.length := by
  induction h with
  | nil => rfl
  | cons hfirst _ ih =>
    rw [List.flatten_cons, List.length_append, hfirst.length, ih, List.flatten_cons,
      List.flatten_append, List.length_append]

theorem SortedGroups.next (order : ValueOrder) (h : HoldsValues groups b) {g : ℕ}
    (hg : g < groups.length) {written : List (List UInt8)} {s : CopyState}
    (hs : SortedGroups groups g written s) :
    ∃ s' bytes, sortGroup order b s g = some s' ∧
      SortedGroups groups (g + 1) (written ++ [bytes]) s' := by
  have hbehind := hs.behind
  have hsucc := firstValue_succ hg
  have hlast := firstValue_le groups (g + 1)
  have hend := h.groupOffset (g := g + 1) hg
  obtain ⟨n, htake, hle, hstop⟩ := @takeValues_spec b.valuesOffsets
    (b.groupOffsets (g + 1)) (b.recordCount + 1) s.w (firstValue groups (g + 1)) (by omega) (by rw [h.recordCount]; omega) hend.le
  let pairs := (List.range' s.w n).map fun i => (b.valuesOffsets i, i)
  let taken := (groups.flatten.take (s.w + n)).drop s.w
  have htaken : pairs.map (fun p => groups.flatten.getD p.2 []) = taken := by
    simp only [pairs, taken]
    rw [slice_eq_map _ (hle.trans hlast), List.map_map]
    rfl
  have hpairs : ∀ p ∈ order.sort pairs, p.1 = b.valuesOffsets p.2 ∧ p.2 < groups.flatten.length := by
    intro p hp
    obtain ⟨i, hi, rfl⟩ := List.mem_map.mp ((order.perm pairs).mem_iff.mp hp)
    refine ⟨rfl, ?_⟩
    simp only [List.mem_range'_1] at hi
    omega
  obtain ⟨hfilled, hw⟩ := hs.filled.foldl b (order.sort pairs) fun p hp => (hpairs p hp).1
  have hbytes : ((order.sort pairs).map fun p => valueBytes b p.2) =
      (order.sort pairs).map fun p => groups.flatten.getD p.2 [] := by
    refine List.map_congr_left fun p hp => ?_
    have hi := (hpairs p hp).2
    have hvalue : valueBytes b p.2 = groups.flatten[p.2] := h.read_value hi
    simp [hvalue, List.getD_eq_getElem?_getD, List.getElem?_eq_getElem hi]
  rw [hbytes] at hfilled
  -- what stands behind the values that were taken is empty
  have hback : ∀ i (hi : i < groups.flatten.length), s.w + n ≤ i → i < firstValue groups (g + 1) →
      groups.flatten[i] = [] := by
    intro i hi hlow hhigh
    have hbelow := h.mono hlow hi.le
    have habove := h.mono (i := i + 1) hhigh hlast
    have hlength := h.length_value hi
    refine List.eq_nil_of_length_eq_zero ?_
    omega
  have hlength : pairs.length = n := by simp [pairs]
  refine ⟨{ (order.sort pairs).foldl (ValueSort.copyValue b) s with w := s.w + pairs.length },
    ((order.sort pairs).map fun p => groups.flatten.getD p.2 []).flatten, ?_, ?_, ?_, ?_, ?_⟩
  · simp only [sortGroup, htake, Option.bind_eq_bind, Option.bind_some]
    rfl
  · rw [List.take_add_one, List.getElem?_eq_getElem hg, Option.toList_some]
    refine List.rel_append hs.rearranged (List.Forall₂.cons ?_ List.Forall₂.nil)
    refine @rearranges_of_filter _ taken _ ?_ ?_
    · rw [← htaken]
      exact (order.perm pairs).map _
    · rw [← slice_group hg]
      exact filter_slice hbehind (by omega) (Nat.le_add_right _ _) hle hs.empty hback
  · have hsame : (order.sort pairs).length = pairs.length := (order.perm pairs).length_eq
    rw [hsame] at hw
    refine ⟨?_, ?_, hfilled.first⟩
    · simp only [← hw, List.flatten_append, List.flatten_singleton]
      exact hfilled.offset
    · simp only [List.flatten_append, List.flatten_singleton]
      exact hfilled.data
  · simp only [hlength]
    exact hle
  · simp only [hlength]
    exact hback

theorem sortGroups_spec (order : ValueOrder) (h : HoldsValues groups b) (start : CopyState)
    (hstart : SortedGroups groups 0 [] start) {g : ℕ} (hg : g ≤ groups.length) :
    ∃ s written, (List.range g).foldlM (sortGroup order b) start = some s ∧
      SortedGroups groups g written s := by
  induction g with
  | zero => exact ⟨start, [], rfl, hstart⟩
  | succ g ih =>
    obtain ⟨s, written, hrun, hs⟩ := ih (Nat.le_of_succ_le hg)
    obtain ⟨s', bytes, hstep, hs'⟩ := hs.next order h hg
    refine ⟨s', written ++ [bytes], ?_, hs'⟩
    rw [List.range_succ, List.foldlM_append, hrun]
    simp [hstep]

/-- The whole of `run`. -/
theorem run_spec (order : ValueOrder) {input : GroupedFragment} (h : HoldsValues groups input.buffer)
    (dst : GroupedBuffer) :
    ∃ out, run order input dst = some out ∧
      out.buffer.groupCount = input.buffer.groupCount ∧ out.buffer.recordCount = 0 ∧
      out.buffer.valuesOffsets 0 = 0 ∧
      (out.buffer.keysData.read 0 input.layout.keysDataSize =
        input.buffer.keysData.read 0 input.layout.keysDataSize) ∧
      (∀ g ≤ input.buffer.groupCount, out.buffer.keysOffsets g = input.buffer.keysOffsets g) ∧
      (∀ g ≤ input.buffer.groupCount, out.buffer.groupOffsets g = input.buffer.groupOffsets g) ∧
      ∀ g (hg : g < groups.length), Rearranges groups[g] (out.buffer.groupValues g) := by
  let start : CopyState :=
    { w := 0, valuesData := dst.valuesData, valuesOffsets := Function.update dst.valuesOffsets 0 0 }
  have hfirst : firstValue groups 0 = 0 := rfl
  have hstart : SortedGroups groups 0 [] start := by
    refine ⟨List.Forall₂.nil, ⟨by simp [start], rfl, by simp [start]⟩, le_rfl, ?_⟩
    intro i _ _ hi
    rw [hfirst] at hi
    omega
  obtain ⟨s, written, hrun, hs⟩ := sortGroups_spec order h start hstart le_rfl
  have hcount := h.groupCount
  rw [← hcount] at hrun
  have hout : ∃ out, run order input dst = some out ∧ out.buffer =
      { groupCount := input.buffer.groupCount
        recordCount := 0
        keysData := dst.keysData.write 0 (input.buffer.keysData.read 0 input.layout.keysDataSize)
        keysOffsets := fun i =>
          if i < input.buffer.groupCount + 1 then input.buffer.keysOffsets i else dst.keysOffsets i
        valuesData := s.valuesData
        valuesOffsets := s.valuesOffsets
        groupOffsets := fun i =>
          if i < input.buffer.groupCount + 1 then input.buffer.groupOffsets i
          else dst.groupOffsets i } := by
    simp only [run, Option.bind_eq_bind]
    rw [hrun]
    exact ⟨_, rfl, rfl⟩
  obtain ⟨out, hout, hbuffer⟩ := hout
  refine ⟨out, hout, ?_⟩
  rw [hbuffer]
  refine ⟨rfl, rfl, hs.filled.first, ?_, ?_, ?_, ?_⟩
  · have hread := ByteMemory.read_write dst.keysData 0
      (input.buffer.keysData.read 0 input.layout.keysDataSize)
    rwa [ByteMemory.length_read] at hread
  · intro g hg
    exact if_pos (Nat.lt_succ_of_le hg)
  · intro g hg
    exact if_pos (Nat.lt_succ_of_le hg)
  · intro g hg
    have hall := hs.rearranged
    rw [List.take_length] at hall
    have hlength := hall.length_eq
    have hwritten : ∀ k ≤ groups.length, (written.take k).flatten.length =
        input.buffer.groupOffsets k := by
      intro k hk
      rw [h.groupOffsets k hk]
      exact length_written (List.forall₂_take k hall)
    have hpart := Shuffle.read_part (hlength ▸ hg) hs.filled.data
    rw [hwritten g hg.le, hwritten (g + 1) hg] at hpart
    have hoffset : ∀ k ≤ groups.length,
        (if k < input.buffer.groupCount + 1 then input.buffer.groupOffsets k
          else dst.groupOffsets k) = input.buffer.groupOffsets k :=
      fun k hk => if_pos (by omega)
    simp only [GroupedBuffer.groupValues, hoffset g hg.le, hoffset (g + 1) hg]
    rw [hpart]
    exact (List.forall₂_iff_get.mp hall).2 g hg (hlength ▸ hg)

end ValueSort

end M3bp
