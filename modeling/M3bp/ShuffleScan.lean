import M3bp.ShuffleLayout

/-!
From fragments to pointers. Buffers that are allocated apart keep what they hold
while the fragments arrive, in whatever order, and the pointers that are
collected for a partition are pointers to the records whose keys hash to it.
-/
namespace M3bp.Shuffle

/-- A fragment and the address of the buffer that is allocated for it. -/
structure Arrival where
  fragment : KeyValueFragment
  base : ℕ

/-- Fragments in the order in which their tasks run; no two buffers overlap. -/
structure Arrivals (P : ℕ) where
  list : List Arrival
  apart : list.Pairwise fun a b =>
    a.base + bufferSize P a.fragment ≤ b.base ∨ b.base + bufferSize P b.fragment ≤ a.base

def memoryAfter (P : ℕ) (arrivals : List Arrival) (mem : ByteMemory) : ByteMemory :=
  arrivals.foldl (fun mem a => partitionFragment P a.fragment a.base mem) mem

def recordsOf (arrivals : List Arrival) : List Record := arrivals.flatMap fun a => a.fragment.records

def keyPartition (P : ℕ) (key : List UInt8) : ℕ := HashFunction.hashByteSequence key P

def partitionRecords (P : ℕ) (arrivals : List Arrival) (p : ℕ) : List Record :=
  (recordsOf arrivals).filter fun r => keyPartition P r.key = p

def valueAt (mem : ByteMemory) (ptr : ℕ) : List UInt8 :=
  mem.read (KeyBlock.getKeyPointer ptr + KeyBlock.getKeyLength mem ptr)
    (KeyBlock.getRecordLength mem ptr - KeyBlock.getKeyLength mem ptr)

def recordAt (mem : ByteMemory) (ptr : ℕ) : Record :=
  { key := KeyBlock.keyAt mem ptr, value := valueAt mem ptr }

/-- A record with its header. -/
structure StoredRecord where
  recordLength : ℕ
  keyLength : ℕ
  bytes : List UInt8
  deriving DecidableEq, Repr

def storedAt (mem : ByteMemory) (ptr : ℕ) : StoredRecord :=
  { recordLength := KeyBlock.getRecordLength mem ptr
    keyLength := KeyBlock.getKeyLength mem ptr
    bytes := mem.read (KeyBlock.getKeyPointer ptr) (KeyBlock.getRecordLength mem ptr) }

/-- What is stored for record `i` of a fragment. -/
def stored (f : KeyValueFragment) (i : ℕ) : StoredRecord :=
  { recordLength := f.recordLength i, keyLength := f.keyLengths i, bytes := f.recordBytes i }

variable {P : ℕ} {f : KeyValueFragment} {mem : ByteMemory}

theorem holds_memoryAfter (hP : 0 < P) (hP' : P < 2 ^ 32) (arrivals : Arrivals P)
    (mem : ByteMemory) {a : Arrival} (ha : a ∈ arrivals.list) :
    HoldsBuffer P (memoryAfter P arrivals.list mem) a.fragment a.base := by
  obtain ⟨list, apart⟩ := arrivals
  simp only at ha ⊢
  induction list generalizing mem with
  | nil => cases ha
  | cons b rest ih =>
    obtain ⟨hb, hrest⟩ := List.pairwise_cons.mp apart
    rcases List.mem_cons.mp ha with rfl | ha
    · -- what comes later is written beside the first buffer
      have hkeep : ∀ (l : List Arrival) (mem : ByteMemory),
          (∀ c ∈ l, a.base + bufferSize P a.fragment ≤ c.base ∨
            c.base + bufferSize P c.fragment ≤ a.base) →
          HoldsBuffer P mem a.fragment a.base →
          HoldsBuffer P (memoryAfter P l mem) a.fragment a.base := by
        intro l
        induction l with
        | nil => exact fun _ _ h => h
        | cons c l ihl =>
          intro mem hl h
          refine ihl _ (fun x hx => hl x (List.mem_cons_of_mem c hx)) (h.congr hP hP' ?_)
          intro x hx hx'
          have hc := hl c List.mem_cons_self
          exact (partitionFragment_spec hP hP' c.base mem).2 x (by omega)
      exact hkeep rest _ hb (partitionFragment_spec hP hP' a.base mem).1
    · exact ih _ hrest ha

theorem stored_key (i : ℕ) (hi : i < f.recordCount) :
    (f.record i).key = f.valuesData.read (f.valuesOffsets i) (f.keyLengths i) ∧
    (f.record i).key.length = f.keyLengths i := by
  have hle := f.keyLengths_le i hi
  have hsplit : f.recordBytes i = f.valuesData.read (f.valuesOffsets i) (f.keyLengths i) ++
      f.valuesData.read (f.valuesOffsets i + f.keyLengths i) (f.recordLength i - f.keyLengths i) := by
    have hlen : f.recordLength i = f.keyLengths i + (f.recordLength i - f.keyLengths i) := by
      simp only [KeyValueFragment.recordLength]
      omega
    rw [KeyValueFragment.recordBytes]
    conv_lhs => rw [hlen]
    rw [ByteMemory.read_add]
  have hkey : (f.record i).key = f.valuesData.read (f.valuesOffsets i) (f.keyLengths i) := by
    simp only [KeyValueFragment.record, hsplit]
    rw [List.take_append_of_le_length (by simp), List.take_of_length_le (by simp)]
  exact ⟨hkey, by rw [hkey, ByteMemory.length_read]⟩

theorem recordLength_lt (i : ℕ) (hi : i < f.recordCount) : f.recordLength i < 2 ^ 64 := by
  have hfits := f.fits
  have hmono : ∀ n, i + 1 ≤ n → n ≤ f.recordCount → f.valuesOffsets (i + 1) ≤ f.valuesOffsets n := by
    intro n hn
    induction n, hn using Nat.le_induction with
    | base => exact fun _ => le_rfl
    | succ n _ ih => exact fun h => (ih (by omega)).trans (f.offsets_mono n (by omega))
  have hlast := hmono f.recordCount hi le_rfl
  have hfirst := (sum_recordLength (f := f) i (by omega)).2
  simp only [KeyValueFragment.recordLength]
  omega

/-- A stored record is read back through a pointer to it. -/
theorem recordAt_of_read {ptr i : ℕ} (hi : i < f.recordCount)
    (hread : mem.read ptr (f.recordLength i + 16) = encode f i) :
    storedAt mem ptr = stored f i ∧ recordAt mem ptr = f.record i := by
  have hle := f.keyLengths_le i hi
  have hlt := recordLength_lt i hi
  have hkl : f.keyLengths i ≤ f.recordLength i := hle
  have hparts : mem.read ptr 8 = ByteMemory.wordBytes (f.recordLength i) ∧
      mem.read (ptr + 8) 8 = ByteMemory.wordBytes (f.keyLengths i) ∧
      mem.read (ptr + 16) (f.recordLength i) = f.recordBytes i := by
    have hsum : f.recordLength i + 16 = 8 + (8 + f.recordLength i) := by omega
    rw [hsum, ByteMemory.read_add, ByteMemory.read_add, encode] at hread
    obtain ⟨h1, hrest⟩ := List.append_inj hread (by simp)
    obtain ⟨h2, h3⟩ := List.append_inj hrest (by simp)
    exact ⟨h1, h2, h3⟩
  obtain ⟨hlength, hkeyLength, hbytes⟩ := hparts
  have hrl : KeyBlock.getRecordLength mem ptr = f.recordLength i :=
    ByteMemory.readWord_of_read _ hlt hlength
  have hkl' : KeyBlock.getKeyLength mem ptr = f.keyLengths i :=
    ByteMemory.readWord_of_read _ (by omega) hkeyLength
  have hstored : storedAt mem ptr = stored f i := by
    simp only [storedAt, stored, KeyBlock.getKeyPointer, hrl, hkl', hbytes]
  refine ⟨hstored, ?_⟩
  have hsplit : f.recordLength i = f.keyLengths i + (f.recordLength i - f.keyLengths i) := by omega
  rw [hsplit, ByteMemory.read_add] at hbytes
  simp only [recordAt, KeyBlock.keyAt, valueAt, KeyBlock.getKeyPointer, hkl', hrl,
    KeyValueFragment.record, ← hbytes]
  rw [List.take_append_of_le_length (by simp), List.take_of_length_le (by simp),
    List.drop_append_of_le_length (by simp), List.drop_of_length_le (by simp), List.nil_append]

/-- The scan over stored records, which finds them at the same addresses in every memory. -/
theorem scanRecords_spec {is : List ℕ} {fuel : ℕ} (data : ℕ) (his : ∀ i ∈ is, i < f.recordCount)
    (hfuel : is.length < fuel) :
    ∃ pointers, ∀ mem : ByteMemory,
      mem.read data (is.flatMap (encode f)).length = is.flatMap (encode f) →
      scanRecords mem (data + (is.flatMap (encode f)).length) fuel data = some pointers ∧
      pointers.map (storedAt mem) = is.map (stored f) ∧
      pointers.map (recordAt mem) = is.map f.record := by
  obtain ⟨fuel, rfl⟩ : ∃ n, fuel = n + 1 := ⟨fuel - 1, by omega⟩
  induction is generalizing data fuel with
  | nil =>
    exact ⟨[], fun mem _ => ⟨by simp [scanRecords], by simp, by simp⟩⟩
  | cons i is ih =>
    have hfuel' : is.length < fuel := by simpa using hfuel
    obtain ⟨fuel, rfl⟩ : ∃ n, fuel = n + 1 := ⟨fuel - 1, by omega⟩
    obtain ⟨pointers, hpointers⟩ := ih (data + (f.recordLength i + 16))
      (fun j hj => his j (List.mem_cons_of_mem i hj)) fuel hfuel'
    refine ⟨data :: pointers, fun mem hread => ?_⟩
    simp only [List.flatMap_cons, List.length_append, length_encode] at hread ⊢
    rw [ByteMemory.read_add] at hread
    obtain ⟨hfirst, hrest⟩ := List.append_inj hread (by simp)
    obtain ⟨hstored, hrecord⟩ := recordAt_of_read (his i List.mem_cons_self) hfirst
    obtain ⟨hscan, hheaders, hrecords⟩ := hpointers mem hrest
    refine ⟨?_, by simp [hstored, hheaders], by simp [hrecord, hrecords]⟩
    have hne : data ≠ data + (f.recordLength i + 16 + (is.flatMap (encode f)).length) := by omega
    have hlength : KeyBlock.getRecordLength mem data = f.recordLength i := by
      simp only [storedAt, stored, StoredRecord.mk.injEq] at hstored
      exact hstored.1
    have hword : mem.readWord data = f.recordLength i := hlength
    rw [Nat.add_assoc] at hscan
    rw [scanRecords, if_neg hne, hword, hscan]
    rfl

theorem partitionOf_eq {i : ℕ} (hi : i < f.recordCount) :
    partitionOf P f i = keyPartition P (f.record i).key := by
  rw [keyPartition, (stored_key i hi).1, partitionOf]

/-- The records of a partition, by index and by key. -/
theorem map_record_filter (p : ℕ) :
    ((allRecords f).filter fun i => partitionOf P f i = p).map f.record =
      f.records.filter fun r => keyPartition P r.key = p := by
  rw [KeyValueFragment.records, List.filter_map]
  refine congrArg (List.map f.record) (List.filter_congr fun i hi => ?_)
  have hi' : i < f.recordCount := by simpa [allRecords] using hi
  rw [Function.comp_apply, partitionOf_eq hi']

theorem length_le_flatMap_encode (is : List ℕ) :
    is.length ≤ (is.flatMap (encode f)).length := by
  induction is with
  | nil => simp
  | cons i is ih =>
    simp only [List.length_cons, List.flatMap_cons, List.length_append, length_encode]
    omega

/-- The indices of the records of a partition. -/
def indicesOf (P : ℕ) (f : KeyValueFragment) (p : ℕ) : List ℕ :=
  (allRecords f).filter fun i => partitionOf P f i = p

theorem exists_partitionPointers {base p : ℕ} (hp : p < P) :
    ∃ pointers, ∀ mem, HoldsBuffer P mem f base → partitionPointers mem P p base = some pointers ∧
      pointers.map (storedAt mem) = (indicesOf P f p).map (stored f) ∧
      pointers.map (recordAt mem) = (indicesOf P f p).map f.record := by
  let is := indicesOf P f p
  have hmem : ∀ i ∈ is, i < f.recordCount := by
    intro i hi
    simpa [allRecords] using (List.mem_filter.mp hi).1
  have hsucc : offsetOf P f (p + 1) = offsetOf P f p + (is.flatMap (encode f)).length :=
    offsetOf_succ p
  have hlong : is.length < offsetOf P f (p + 1) - offsetOf P f p + 1 := by
    have hle := length_le_flatMap_encode (f := f) is
    omega
  obtain ⟨pointers, hpointers⟩ := scanRecords_spec (dataBase P base + offsetOf P f p) hmem hlong
  refine ⟨pointers, fun mem h => ?_⟩
  obtain ⟨hscan, hheaders, hrecords⟩ := hpointers mem (h.regions p hp)
  refine ⟨?_, hheaders, hrecords⟩
  rw [partitionPointers, h.offsets p (by omega), h.offsets (p + 1) (by omega)]
  rw [Nat.add_assoc, ← hsucc] at hscan
  exact hscan

theorem partitionPointers_stored {base p : ℕ} (h : HoldsBuffer P mem f base) (hp : p < P) :
    ∃ pointers, partitionPointers mem P p base = some pointers ∧
      pointers.map (storedAt mem) = (indicesOf P f p).map (stored f) ∧
      pointers.map (recordAt mem) = (indicesOf P f p).map f.record := by
  obtain ⟨pointers, hpointers⟩ := @exists_partitionPointers _ f base _ hp
  exact ⟨pointers, hpointers mem h⟩

/-- The pointers that are collected for partition `p`, whatever else is in the memory. -/
theorem exists_collectPointers (hP : 0 < P) (hP' : P < 2 ^ 32) (arrivals : Arrivals P) {p : ℕ}
    (hp : p < P) :
    ∃ pointers, ∀ mem₀ : ByteMemory,
      collectPointers (memoryAfter P arrivals.list mem₀) P p (arrivals.list.map Arrival.base) =
        some pointers ∧
      pointers.map (recordAt (memoryAfter P arrivals.list mem₀)) =
        partitionRecords P arrivals.list p := by
  have hall : ∀ l : List Arrival, ∃ pointers, ∀ mem,
      (∀ a ∈ l, HoldsBuffer P mem a.fragment a.base) →
      collectPointers mem P p (l.map Arrival.base) = some pointers ∧
        pointers.map (recordAt mem) = partitionRecords P l p := by
    intro l
    induction l with
    | nil => exact ⟨[], fun _ _ => ⟨rfl, by simp [partitionRecords, recordsOf]⟩⟩
    | cons a l ih =>
      obtain ⟨first, hfirst⟩ := @exists_partitionPointers _ a.fragment a.base _ hp
      obtain ⟨rest, hrest⟩ := ih
      refine ⟨first ++ rest, fun mem hl => ?_⟩
      obtain ⟨hpointers, -, hrecords⟩ := hfirst mem (hl a List.mem_cons_self)
      obtain ⟨hpointers', hrecords'⟩ := hrest mem fun b hb => hl b (List.mem_cons_of_mem a hb)
      refine ⟨by simp [collectPointers, hpointers, hpointers'], ?_⟩
      rw [indicesOf, map_record_filter] at hrecords
      simp [hrecords, hrecords', partitionRecords, recordsOf, List.filter_append]
  obtain ⟨pointers, hpointers⟩ := hall arrivals.list
  exact ⟨pointers, fun mem₀ => hpointers _ fun a ha => holds_memoryAfter hP hP' arrivals mem₀ ha⟩

/-- The pointers that are collected for partition `p`. -/
theorem collectPointers_spec (hP : 0 < P) (hP' : P < 2 ^ 32) (arrivals : Arrivals P)
    (mem₀ : ByteMemory) {p : ℕ} (hp : p < P) :
    let mem := memoryAfter P arrivals.list mem₀
    ∃ pointers, collectPointers mem P p (arrivals.list.map Arrival.base) = some pointers ∧
      pointers.map (recordAt mem) = partitionRecords P arrivals.list p := by
  obtain ⟨pointers, hpointers⟩ := exists_collectPointers hP hP' arrivals hp
  exact ⟨pointers, hpointers mem₀⟩

end M3bp.Shuffle
