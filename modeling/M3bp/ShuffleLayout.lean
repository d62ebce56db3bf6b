import M3bp.ShuffleSort
import Mathlib.Algebra.BigOperators.Group.Finset.Piecewise
import Mathlib.Algebra.Order.BigOperators.Group.Finset

/-!
What a shuffle buffer holds. The partitions are laid out without gaps, each with
the records of its partition in their old order, and the scan of a partition
finds exactly these records. A buffer keeps what it holds while others are
filled beside it.
-/
namespace M3bp.Shuffle

open Finset

variable {P : ℕ} {f : KeyValueFragment}

/-- A record as it is stored. -/
def encode (f : KeyValueFragment) (i : ℕ) : List UInt8 :=
  ByteMemory.wordBytes (f.recordLength i) ++
    (ByteMemory.wordBytes (f.keyLengths i) ++ f.recordBytes i)

/-- The bytes of the records with indices `is` in partition `p`. -/
def regionBytes (P : ℕ) (f : KeyValueFragment) (is : List ℕ) (p : ℕ) : List UInt8 :=
  (is.filter fun i => partitionOf P f i = p).flatMap (encode f)

@[simp] theorem length_encode (i : ℕ) : (encode f i).length = f.recordLength i + 16 := by
  simp only [encode, List.length_append, ByteMemory.length_wordBytes,
    KeyValueFragment.recordBytes, ByteMemory.length_read]
  omega

theorem regionBytes_append (is is' : List ℕ) (p : ℕ) :
    regionBytes P f (is ++ is') p = regionBytes P f is p ++ regionBytes P f is' p := by
  simp [regionBytes, List.filter_append]

theorem regionBytes_singleton (i p : ℕ) :
    regionBytes P f [i] p = if partitionOf P f i = p then encode f i else [] := by
  by_cases h : partitionOf P f i = p <;> simp [regionBytes, h]

/-! The table of offsets. -/

theorem sizes_countRecords (is : List ℕ) (c : Counts) (p : ℕ) :
    let c' := is.foldl (fun c i => c.add (partitionOf P f i) (f.recordLength i)) c
    c'.sizeSums p + 16 * c'.recordCounts p =
      c.sizeSums p + 16 * c.recordCounts p + (regionBytes P f is p).length := by
  induction is generalizing c with
  | nil => simp [regionBytes]
  | cons i is ih =>
    have hcons : regionBytes P f (i :: is) p = regionBytes P f [i] p ++ regionBytes P f is p :=
      regionBytes_append [i] is p
    rw [hcons, regionBytes_singleton, List.length_append]
    simp only [List.foldl_cons] at ih ⊢
    rw [ih]
    by_cases hp : partitionOf P f i = p
    · subst hp
      simp [Counts.add]
      omega
    · simp [Counts.add, hp, Ne.symm hp]

/-- The offset of partition `p` in the buffer of `f`. -/
def offsetOf (P : ℕ) (f : KeyValueFragment) (p : ℕ) : ℕ := dstOffsets (countRecords P f) p

def allRecords (f : KeyValueFragment) : List ℕ := List.range f.recordCount

theorem offsetOf_succ (p : ℕ) :
    offsetOf P f (p + 1) = offsetOf P f p + (regionBytes P f (allRecords f) p).length := by
  have hsizes := sizes_countRecords (P := P) (f := f) (allRecords f) Counts.zero p
  simp only [Counts.zero, Nat.mul_zero, Nat.add_zero, Nat.zero_add] at hsizes
  have hcount : countRecords P f = (allRecords f).foldl
      (fun c i => c.add (partitionOf P f i) (f.recordLength i)) Counts.zero := rfl
  rw [offsetOf, dstOffsets, ← hsizes, hcount]
  simp only [offsetOf, hcount, Counts.zero]
  omega

theorem offsetOf_mono {p p' : ℕ} (h : p ≤ p') : offsetOf P f p ≤ offsetOf P f p' := by
  induction p', h using Nat.le_induction with
  | base => exact le_rfl
  | succ p' _ ih =>
    rw [offsetOf_succ]
    omega

theorem offsetOf_eq_sum (p : ℕ) :
    offsetOf P f p = ∑ q ∈ range p, (regionBytes P f (allRecords f) q).length := by
  induction p with
  | zero => rfl
  | succ p ih => rw [offsetOf_succ, ih, sum_range_succ]

theorem partitionOf_lt (hP : 0 < P) (hP' : P < 2 ^ 32) (i : ℕ) : partitionOf P f i < P :=
  HashFunction.hashByteSequence_lt _ hP hP'

/-- Each record is in one partition. -/
theorem sum_regionBytes (hP : 0 < P) (hP' : P < 2 ^ 32) (is : List ℕ) :
    ∑ p ∈ range P, (regionBytes P f is p).length = (is.map fun i => f.recordLength i + 16).sum := by
  induction is with
  | nil => simp [regionBytes]
  | cons i is ih =>
    have hcons : ∀ p, regionBytes P f (i :: is) p = regionBytes P f [i] p ++ regionBytes P f is p :=
      fun p => regionBytes_append [i] is p
    have hone : ∑ p ∈ range P, (regionBytes P f [i] p).length = f.recordLength i + 16 := by
      have hmem : partitionOf P f i ∈ range P := mem_range.mpr (partitionOf_lt hP hP' i)
      simp only [regionBytes_singleton, apply_ite List.length, length_encode, List.length_nil]
      rw [sum_ite_eq, if_pos hmem]
    simp only [hcons, List.length_append, sum_add_distrib, hone, ih, List.map_cons, List.sum_cons]

theorem sum_recordLength (n : ℕ) (hn : n ≤ f.recordCount) :
    ((List.range n).map fun i => f.recordLength i + 16).sum =
      f.valuesOffsets n - f.valuesOffsets 0 + 16 * n ∧ f.valuesOffsets 0 ≤ f.valuesOffsets n := by
  induction n with
  | zero => simp
  | succ n ih =>
    obtain ⟨hsum, hle⟩ := ih (by omega)
    have hmono := f.offsets_mono n (by omega)
    rw [List.range_succ, List.map_append, List.sum_append, hsum]
    simp only [List.map_cons, List.map_nil, List.sum_cons, List.sum_nil,
      KeyValueFragment.recordLength]
    omega

/-- The partitions fill the data of the buffer. -/
theorem offsetOf_last (hP : 0 < P) (hP' : P < 2 ^ 32) :
    offsetOf P f P = f.valuesOffsets f.recordCount - f.valuesOffsets 0 + 16 * f.recordCount := by
  rw [offsetOf_eq_sum, sum_regionBytes hP hP', allRecords, (sum_recordLength _ le_rfl).1]

theorem writeOffsets_spec (c : Counts) (base : ℕ) (mem : ByteMemory) (n : ℕ) :
    let mem' := (List.range n).foldl
      (fun mem i => mem.write (base + 8 * i) (ByteMemory.wordBytes (dstOffsets c i))) mem
    (∀ i < n, mem'.read (base + 8 * i) 8 = ByteMemory.wordBytes (dstOffsets c i)) ∧
    ∀ x, x < base ∨ base + 8 * n ≤ x → mem' x = mem x := by
  induction n with
  | zero => simp
  | succ n ih =>
    obtain ⟨hread, hout⟩ := ih
    simp only [List.range_succ, List.foldl_append, List.foldl_cons, List.foldl_nil]
    constructor
    · intro i hi
      rcases Nat.lt_succ_iff_lt_or_eq.mp hi with hlt | rfl
      · rw [ByteMemory.read_write_of_disjoint _ _ (Or.inl (by omega))]
        exact hread i hlt
      · simpa using ByteMemory.read_write _ (base + 8 * i) (ByteMemory.wordBytes (dstOffsets c i))
    · intro x hx
      rcases hx with hlt | hge
      · rw [ByteMemory.write_of_lt _ _ (by omega)]
        exact hout x (Or.inl hlt)
      · rw [ByteMemory.write_of_ge _ _ (by simp; omega)]
        exact hout x (Or.inr (by omega))

/-! The copy of the records. -/

theorem write_encode (mem : ByteMemory) (ptr i : ℕ) :
    ((mem.write ptr (ByteMemory.wordBytes (f.recordLength i))).write (ptr + 8)
      (ByteMemory.wordBytes (f.keyLengths i))).write (ptr + 16) (f.recordBytes i) =
    mem.write ptr (encode f i) := by
  have htwo := ByteMemory.write_write mem ptr (ByteMemory.wordBytes (f.recordLength i))
    (ByteMemory.wordBytes (f.keyLengths i))
  rw [ByteMemory.length_wordBytes] at htwo
  have hthree := ByteMemory.write_write mem ptr
    (ByteMemory.wordBytes (f.recordLength i) ++ ByteMemory.wordBytes (f.keyLengths i))
    (f.recordBytes i)
  rw [List.length_append, ByteMemory.length_wordBytes, ByteMemory.length_wordBytes] at hthree
  rw [htwo, encode, ← List.append_assoc]
  exact hthree

/-- What the third loop has done when it is past the records `done`. -/
structure Copied (P : ℕ) (f : KeyValueFragment) (data : ℕ) (mem : ByteMemory) (done : List ℕ)
    (d : Destination) : Prop where
  cur : ∀ p, d.curOffsets p = offsetOf P f p + (regionBytes P f done p).length
  filled : ∀ p < P, d.mem.read (data + offsetOf P f p) (regionBytes P f done p).length =
    regionBytes P f done p
  outside : ∀ x, x < data ∨ data + offsetOf P f P ≤ x → d.mem x = mem x

theorem Copied.next {data : ℕ} {mem : ByteMemory} {done rest : List ℕ} {i : ℕ} {d : Destination}
    (hP : 0 < P) (hP' : P < 2 ^ 32) (hall : allRecords f = done ++ i :: rest)
    (h : Copied P f data mem done d) :
    Copied P f data mem (done ++ [i]) (copyRecord P f data d i) := by
  let p := partitionOf P f i
  have hp : p < P := partitionOf_lt hP hP' i
  have hnext : ∀ q, regionBytes P f (done ++ [i]) q =
      regionBytes P f done q ++ if p = q then encode f i else [] := by
    intro q
    rw [regionBytes_append, regionBytes_singleton]
  have hroom : ∀ q, offsetOf P f q + (regionBytes P f (done ++ [i]) q).length ≤
      offsetOf P f (q + 1) := by
    intro q
    have happend : done ++ i :: rest = done ++ [i] ++ rest := by simp
    rw [offsetOf_succ, hall, happend, regionBytes_append _ rest, List.length_append]
    omega
  have hmem : (copyRecord P f data d i).mem = d.mem.write (data + d.curOffsets p) (encode f i) :=
    write_encode _ _ _
  have hcur := h.cur p
  have hroomp := hroom p
  rw [hnext, if_pos rfl, List.length_append] at hroomp
  refine ⟨?_, ?_, ?_⟩
  · intro q
    rw [hnext]
    by_cases hq : p = q
    · subst hq
      simp [copyRecord, p, h.cur]
      omega
    · have hq' : q ≠ partitionOf P f i := Ne.symm hq
      simp [copyRecord, hq, hq', h.cur]
  · intro q hqP
    rw [hmem, hnext]
    by_cases hq : p = q
    · subst hq
      rw [if_pos rfl, List.length_append, ByteMemory.read_add,
        ByteMemory.read_write_of_disjoint _ _ (Or.inl (by omega)), h.filled p hp]
      congr 1
      rw [hcur, ← Nat.add_assoc]
      exact ByteMemory.read_write _ _ _
    · rw [if_neg hq, List.append_nil, ByteMemory.read_write_of_disjoint, h.filled q hqP]
      have hroomq := hroom q
      rw [hnext, if_neg hq, List.append_nil] at hroomq
      rcases Nat.lt_or_gt_of_ne hq with hlt | hgt
      · right
        have hmono := offsetOf_mono (P := P) (f := f) (show p + 1 ≤ q from hlt)
        omega
      · left
        have hmono := offsetOf_mono (P := P) (f := f) (show q + 1 ≤ p from hgt)
        omega
  · intro x hx
    have hlast := offsetOf_mono (P := P) (f := f) (show p + 1 ≤ P from hp)
    rw [hmem]
    rcases hx with hlt | hge
    · rw [ByteMemory.write_of_lt _ _ (by omega)]
      exact h.outside x (Or.inl hlt)
    · rw [ByteMemory.write_of_ge _ _ (by omega)]
      exact h.outside x (Or.inr hge)

theorem copied_foldl {data : ℕ} {mem : ByteMemory} {done rest : List ℕ} {d : Destination}
    (hP : 0 < P) (hP' : P < 2 ^ 32) (hall : allRecords f = done ++ rest)
    (h : Copied P f data mem done d) :
    Copied P f data mem (allRecords f) (rest.foldl (copyRecord P f data) d) := by
  induction rest generalizing done d with
  | nil =>
    rw [List.append_nil] at hall
    rwa [hall]
  | cons i rest ih =>
    exact ih (by simp [hall]) (h.next hP hP' hall)

/-! A filled buffer. -/

/-- The memory holds the buffer of `f` at `base`. -/
structure HoldsBuffer (P : ℕ) (mem : ByteMemory) (f : KeyValueFragment) (base : ℕ) : Prop where
  offsets : ∀ p ≤ P, mem.readWord (base + 8 * p) = offsetOf P f p
  regions : ∀ p < P, mem.read (dataBase P base + offsetOf P f p)
    (regionBytes P f (allRecords f) p).length = regionBytes P f (allRecords f) p

theorem bufferSize_eq (hP : 0 < P) (hP' : P < 2 ^ 32) :
    bufferSize P f = 8 * (P + 1) + offsetOf P f P := by
  rw [offsetOf_last hP hP', bufferSize]

theorem HoldsBuffer.congr {mem mem' : ByteMemory} {base : ℕ} (hP : 0 < P) (hP' : P < 2 ^ 32)
    (h : HoldsBuffer P mem f base)
    (hsame : ∀ x, base ≤ x → x < base + bufferSize P f → mem' x = mem x) :
    HoldsBuffer P mem' f base := by
  have hsize := bufferSize_eq (f := f) hP hP'
  refine ⟨fun p hp => ?_, fun p hp => ?_⟩
  · have hread : mem'.read (base + 8 * p) 8 = mem.read (base + 8 * p) 8 :=
      ByteMemory.read_congr fun i hi => hsame _ (by omega) (by omega)
    rw [ByteMemory.readWord, hread]
    exact h.offsets p hp
  · have hlast := offsetOf_mono (P := P) (f := f) (show p + 1 ≤ P from hp)
    rw [offsetOf_succ] at hlast
    have hread : mem'.read (dataBase P base + offsetOf P f p)
        (regionBytes P f (allRecords f) p).length =
        mem.read (dataBase P base + offsetOf P f p) (regionBytes P f (allRecords f) p).length := by
      refine ByteMemory.read_congr fun i hi => hsame _ ?_ ?_
      · simp only [dataBase]
        omega
      · simp only [dataBase]
        omega
    rw [hread]
    exact h.regions p hp

theorem partitionFragment_spec (hP : 0 < P) (hP' : P < 2 ^ 32) (base : ℕ) (mem : ByteMemory) :
    HoldsBuffer P (partitionFragment P f base mem) f base ∧
    ∀ x, x < base ∨ base + bufferSize P f ≤ x → partitionFragment P f base mem x = mem x := by
  let c := countRecords P f
  let table := writeOffsets P c base mem
  obtain ⟨htable, hbeside⟩ := writeOffsets_spec c base mem (P + 1)
  have hstart : Copied P f (dataBase P base) table [] { mem := table, curOffsets := dstOffsets c } := by
    refine ⟨fun p => ?_, fun p _ => ?_, fun _ _ => rfl⟩
    · simp [regionBytes, offsetOf, c]
    · simp [regionBytes]
  have hcopied := @copied_foldl _ _ _ _ [] (allRecords f) _ hP hP' rfl hstart
  have hsize := bufferSize_eq (f := f) hP hP'
  have hfits : offsetOf P f P < 2 ^ 64 := by
    rw [offsetOf_last hP hP']
    exact f.fits
  constructor
  · refine ⟨fun p hp => ?_, fun p hp => hcopied.filled p hp⟩
    have hmono := offsetOf_mono (P := P) (f := f) hp
    refine ByteMemory.readWord_of_read _ (by omega) (Eq.trans ?_ (htable p (by omega)))
    refine ByteMemory.read_congr fun i hi => hcopied.outside _ (Or.inl ?_)
    simp only [dataBase]
    omega
  · intro x hx
    refine (hcopied.outside x ?_).trans (hbeside x (by omega))
    simp only [dataBase]
    omega

end M3bp.Shuffle
