import M3bp.InitializedViews
import M3bp.SerializedRoundTrip

/-!
What a gather makes of its fragments. Each append puts the records of a fragment behind the
records so far, with the offsets moved by where both sides begin, so that in the end the
records stand in the order in which the fragments were received.
-/
namespace M3bp

namespace ValueBuffer

def recordBytes (b : ValueBuffer) (i : ℕ) : List UInt8 :=
  b.valuesData.read (b.valuesOffsets i) (b.valuesOffsets (i + 1) - b.valuesOffsets i)

def records (b : ValueBuffer) : List (List UInt8) := (List.range b.recordCount).map b.recordBytes

end ValueBuffer

namespace Gather

/-- A fragment as it is received; the lengths of its keys are not looked at. -/
inductive Received
  | valueOnly (values : ValueFragment)
  | keyValue (values : ValueFragment) (keyLengths : ℕ → ℕ)

def Received.values : Received → ValueFragment
  | .valueOnly values => values
  | .keyValue values _ => values

def computeActualValuesSize (src : ValueFragment) : ℕ :=
  src.valuesOffsets src.recordCount - src.valuesOffsets 0

/-- What the destination is allocated for. -/
def totalRecordCount (sources : List ValueFragment) : ℕ :=
  (sources.map fun src => src.recordCount).sum

def totalRecordSize (sources : List ValueFragment) : ℕ := (sources.map computeActualValuesSize).sum

/-- A write to the destination: an entry of the table of offsets, or a `memcpy`. -/
inductive Access
  | offset (index : ℕ)
  | bytes (start length : ℕ)

/-- Inside a buffer that was allocated for some number of records and of bytes. -/
def Access.Inside (count size : ℕ) : Access → Prop
  | .offset index => index < count + 1
  | .bytes start length => start + length ≤ size

def appendAccesses (dst : ValueBuffer) (src : ValueFragment) : List Access :=
  .offset 0 :: (List.range src.recordCount).map (fun i => .offset (dst.recordCount + (i + 1))) ++
    [.bytes ((appendSerializedBuffer dst src).valuesOffsets dst.recordCount)
      (computeActualValuesSize src)]

def accesses (dst : ValueBuffer) : List ValueFragment → List Access
  | [] => []
  | src :: rest => appendAccesses dst src ++ accesses (appendSerializedBuffer dst src) rest

/-- The writes of `run_gather` into the freshly allocated `dst`. -/
def runAccesses (sources : List ValueFragment) (dst : ValueBuffer) : List Access :=
  accesses { dst with recordCount := 0 } sources

section Source

variable (src : ValueFragment)

theorem length_records (b : ValueBuffer) : b.records.length = b.recordCount := by
  simp [ValueBuffer.records]

theorem take_records_succ (b : ValueBuffer) {i : ℕ} (hi : i < b.recordCount) :
    b.records.take (i + 1) = b.records.take i ++ [b.recordBytes i] := by
  have hlength : i < b.records.length := by rwa [length_records]
  rw [List.take_succ_eq_append_getElem hlength]
  simp [ValueBuffer.records]

/-- The first records of a fragment lie one after the other behind its first offset. -/
theorem take_records {i : ℕ} (hi : i ≤ src.recordCount) :
    src.valuesOffsets i = src.valuesOffsets 0 + (src.records.take i).flatten.length ∧
      src.valuesData.read (src.valuesOffsets 0) (src.records.take i).flatten.length =
        (src.records.take i).flatten := by
  induction i with
  | zero => exact ⟨rfl, rfl⟩
  | succ i ih =>
    obtain ⟨hoffset, hread⟩ := ih (Nat.le_of_succ_le hi)
    have hmono := src.offsets_mono i hi
    have hlength : (src.recordBytes i).length = src.valuesOffsets (i + 1) - src.valuesOffsets i :=
      ByteMemory.length_read _ _ _
    rw [take_records_succ src.toValueBuffer hi, List.flatten_append, List.flatten_singleton,
      List.length_append]
    constructor
    · omega
    · rw [ByteMemory.read_add, hread, ← hoffset, hlength]
      rfl

theorem computeActualValuesSize_eq :
    computeActualValuesSize src = src.records.flatten.length := by
  have hlast := (take_records src (Nat.le_refl _)).1
  rw [List.take_of_length_le (Nat.le_of_eq (length_records _))] at hlast
  unfold computeActualValuesSize
  omega

theorem read_source : src.valuesData.read (src.valuesOffsets 0) (computeActualValuesSize src) =
    src.records.flatten := by
  have hread := (take_records src (Nat.le_refl _)).2
  rw [List.take_of_length_le (Nat.le_of_eq (length_records _))] at hread
  rw [computeActualValuesSize_eq]
  exact hread

end Source

theorem appendOffsets_succ (base n : ℕ) (src dst : ℕ → ℕ) :
    appendOffsets base src (n + 1) dst = Function.update (appendOffsets base src n dst)
      (base + (n + 1)) (appendOffsets base src n dst base + src (n + 1) - src 0) := by
  simp only [appendOffsets, List.range_succ, List.foldl_append, List.foldl_cons, List.foldl_nil]

/-- The offsets up to entry `base` stay, but for the first one, and those behind it are moved. -/
theorem appendOffsets_eq (base n : ℕ) (src dst : ℕ → ℕ) :
    (∀ i ≤ base, appendOffsets base src n dst i = if i = 0 then 0 else dst i) ∧
      ∀ i < n, appendOffsets base src n dst (base + (i + 1)) =
        appendOffsets base src n dst base + src (i + 1) - src 0 := by
  induction n with
  | zero =>
    refine ⟨fun i _ => ?_, fun i hi => absurd hi (Nat.not_lt_zero i)⟩
    simp [appendOffsets, Function.update_apply]
  | succ n ih =>
    obtain ⟨hkept, hmoved⟩ := ih
    have hbase : base ≠ base + (n + 1) := by omega
    rw [appendOffsets_succ]
    refine ⟨fun i hi => ?_, fun i hi => ?_⟩
    · have hne : i ≠ base + (n + 1) := by omega
      rw [Function.update_of_ne hne]
      exact hkept i hi
    · rw [Function.update_of_ne hbase]
      rcases Nat.lt_succ_iff_lt_or_eq.mp hi with hi | rfl
      · have hne : base + (i + 1) ≠ base + (n + 1) := by omega
        rw [Function.update_of_ne hne]
        exact hmoved i hi
      · rw [Function.update_self]

/-- The destination after some records: they lie one after the other, and once there is one
the offsets are where they begin. -/
structure Holds (bytes : List (List UInt8)) (b : ValueBuffer) : Prop where
  count : b.recordCount = bytes.length
  offsets : bytes ≠ [] → ∀ i ≤ bytes.length, b.valuesOffsets i = (bytes.take i).flatten.length
  data : b.valuesData.read 0 bytes.flatten.length = bytes.flatten

variable {bytes : List (List UInt8)} {dst : ValueBuffer}

/-- Once the first offset is written, the offsets so far are right. -/
theorem Holds.kept (h : Holds bytes dst) (src : ValueFragment) {i : ℕ} (hi : i ≤ bytes.length) :
    (appendSerializedBuffer dst src).valuesOffsets i = (bytes.take i).flatten.length := by
  have hkept := (appendOffsets_eq dst.recordCount src.recordCount src.valuesOffsets
    dst.valuesOffsets).1 i (h.count ▸ hi)
  show appendOffsets _ _ _ _ i = _
  rw [hkept]
  rcases Nat.eq_zero_or_pos i with rfl | hpos
  · rfl
  · rw [if_neg (Nat.ne_of_gt hpos)]
    apply h.offsets _ i hi
    rintro rfl
    exact absurd hpos (Nat.not_lt_of_le hi)

theorem Holds.base (h : Holds bytes dst) (src : ValueFragment) :
    (appendSerializedBuffer dst src).valuesOffsets dst.recordCount = bytes.flatten.length := by
  rw [h.count, h.kept src (Nat.le_refl _), List.take_length]

theorem Holds.append (h : Holds bytes dst) (src : ValueFragment) :
    Holds (bytes ++ src.records) (appendSerializedBuffer dst src) where
  count := by
    rw [List.length_append, length_records, ← h.count]
    rfl
  offsets := fun _ i hi => by
    rcases Nat.lt_or_ge bytes.length i with hlt | hge
    · obtain ⟨k, rfl⟩ := Nat.exists_eq_add_of_lt hlt
      rw [List.length_append, length_records] at hi
      have hk : k < src.recordCount := by omega
      have hmoved := (appendOffsets_eq dst.recordCount src.recordCount src.valuesOffsets
        dst.valuesOffsets).2 k hk
      have hbase := h.base src
      have hoffset : src.valuesOffsets (k + 1) =
          src.valuesOffsets 0 + (src.records.take (k + 1)).flatten.length :=
        (take_records src hk).1
      show appendOffsets _ _ _ _ _ = _
      rw [Nat.add_assoc, ← h.count, hmoved,
        show appendOffsets _ _ _ _ dst.recordCount = _ from hbase, h.count, List.take_append,
        List.take_of_length_le (Nat.le_add_right _ _), Nat.add_sub_cancel_left,
        List.flatten_append, List.length_append, hoffset]
      omega
    · rw [h.kept src hge, List.take_append_of_le_length hge]
  data := by
    have hread := Shuffle.read_write_append dst.valuesData src.records.flatten h.data
    rw [List.flatten_append]
    show (dst.valuesData.write ((appendSerializedBuffer dst src).valuesOffsets dst.recordCount)
      (src.valuesData.read (src.valuesOffsets 0) (computeActualValuesSize src))).read 0 _ = _
    rw [h.base src, read_source]
    exact hread

theorem Holds.foldl (h : Holds bytes dst) (sources : List ValueFragment) :
    Holds (bytes ++ sources.flatMap fun src => src.records)
      (sources.foldl appendSerializedBuffer dst) := by
  induction sources generalizing bytes dst with
  | nil => simpa using h
  | cons src sources ih =>
    rw [List.flatMap_cons, ← List.append_assoc, List.foldl_cons]
    exact ih (h.append src)

/-- Each record that is held is read back. -/
theorem Holds.records (h : Holds bytes dst) : dst.records = bytes := by
  apply List.ext_getElem
  · rw [length_records, h.count]
  · intro i _ hi
    have hne : bytes ≠ [] := List.ne_nil_of_length_pos (Nat.zero_lt_of_lt hi)
    simp only [ValueBuffer.records, ValueBuffer.recordBytes, List.getElem_map, List.getElem_range]
    rw [h.offsets hne i (Nat.le_of_lt hi), h.offsets hne (i + 1) hi]
    exact Shuffle.read_part hi h.data

/-- With the records still to come, each write stays inside what all of them need. -/
theorem Holds.inside (h : Holds bytes dst) (sources : List ValueFragment) :
    ∀ a ∈ accesses dst sources,
      a.Inside (bytes ++ sources.flatMap fun src => src.records).length
        (bytes ++ sources.flatMap fun src => src.records).flatten.length := by
  induction sources generalizing bytes dst with
  | nil => exact fun a ha => absurd ha List.not_mem_nil
  | cons src sources ih =>
    have hbase := h.base src
    have hrest := ih (h.append src)
    rw [List.flatMap_cons, ← List.append_assoc]
    intro a ha
    rcases List.mem_append.mp ha with ha | ha
    · simp only [appendAccesses, List.mem_append, List.mem_cons, List.mem_map, List.mem_range,
        List.not_mem_nil, or_false] at ha
      rcases ha with (rfl | ⟨i, hi, rfl⟩) | rfl
      · exact Nat.succ_pos _
      · show dst.recordCount + (i + 1) < _ + 1
        rw [List.length_append, List.length_append, length_records, h.count]
        omega
      · show _ + computeActualValuesSize src ≤ _
        rw [hbase, computeActualValuesSize_eq, List.flatten_append, List.flatten_append,
          List.length_append, List.length_append]
        exact Nat.le_add_right _ _
    · exact hrest a ha

theorem totalRecordCount_eq (sources : List ValueFragment) :
    totalRecordCount sources = (sources.flatMap fun src => src.records).length := by
  unfold totalRecordCount
  rw [List.length_flatMap]
  simp only [length_records]

theorem totalRecordSize_eq (sources : List ValueFragment) :
    totalRecordSize sources = (sources.flatMap fun src => src.records).flatten.length := by
  unfold totalRecordSize
  induction sources with
  | nil => rfl
  | cons src sources ih =>
    rw [List.map_cons, List.sum_cons, ih, computeActualValuesSize_eq, List.flatMap_cons,
      List.flatten_append, List.length_append]

/-- The bytes of a write, in a block whose data and offsets begin at the given places. -/
def Access.place (data offsets : ℕ) : Access → ℕ × ℕ
  | .offset index => (offsets + 8 * index, 8)
  | .bytes start length => (data + start, length)

open BufferLayout in
/-- A write that is inside stays in the block that the allocator has laid out. -/
theorem Access.Inside.in_block {n size : UInt64} {b : BufferLayout.SerializedBuffer}
    (h : Serves (.valueOnly n size) b) {data offsets : UInt64}
    (hdata : b.regions.valuesData = some data) (hoffsets : b.regions.valuesOffsets = some offsets)
    {a : Access} (ha : a.Inside n.toNat size.toNat) :
    (a.place data.toNat offsets.toNat).1 + (a.place data.toNat offsets.toNat).2 ≤
      (Request.valueOnly n size).exactSize := by
  obtain ⟨dataSize, hdataSize, hle⟩ := h.values
  have hle : size.toNat ≤ dataSize.toNat := UInt64.le_iff_toNat_le.mp hle
  have hrecords : b.maximumRecordCount = some n := h.records
  cases a with
  | offset index =>
    have hmem : (offsets.toNat, 8 * (n.toNat + 1)) ∈ b.extents := by
      unfold BufferLayout.SerializedBuffer.extents
      rw [hoffsets, hrecords]
      simp [BufferLayout.SerializedBuffer.extent, BufferLayout.SerializedBuffer.number]
    have hend := h.inside _ hmem
    have hindex : index < n.toNat + 1 := ha
    show offsets.toNat + 8 * index + 8 ≤ _
    omega
  | bytes start length =>
    have hmem : (data.toNat, dataSize.toNat) ∈ b.extents := by
      unfold BufferLayout.SerializedBuffer.extents
      rw [hdata, hdataSize]
      simp [BufferLayout.SerializedBuffer.extent, BufferLayout.SerializedBuffer.number]
    have hend := h.inside _ hmem
    have hlength : start + length ≤ size.toNat := ha
    show data.toNat + start + length ≤ _
    omega

/-- A gather concatenates the records of its fragments, and stays inside the buffer that it
has allocated for them. -/
theorem runGather_concatenates (received : List Received) (dst : ValueBuffer) :
    let sources := received.map Received.values
    (runGather sources dst).records = received.flatMap (fun f => f.values.records) ∧
      ∀ a ∈ runAccesses sources dst,
        a.Inside (totalRecordCount sources) (totalRecordSize sources) := by
  intro sources
  have hempty : Holds [] { dst with recordCount := 0 } :=
    ⟨rfl, fun h => absurd rfl h, rfl⟩
  have hfilled := hempty.foldl sources
  have hinside := hempty.inside sources
  rw [List.nil_append] at hfilled hinside
  rw [totalRecordCount_eq, totalRecordSize_eq]
  refine ⟨?_, hinside⟩
  have hcount := hfilled.count
  rw [← totalRecordCount_eq] at hcount
  have hrun : runGather sources dst =
      sources.foldl appendSerializedBuffer { dst with recordCount := 0 } := by
    show ({ sources.foldl appendSerializedBuffer { dst with recordCount := 0 } with
      recordCount := totalRecordCount sources } : ValueBuffer) = _
    rw [← hcount]
  rw [hrun, hfilled.records, List.flatMap_map]

end Gather

end M3bp
