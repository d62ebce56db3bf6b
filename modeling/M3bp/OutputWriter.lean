import M3bp.SerializedRoundTrip

/-!
`OutputWriterImpl::allocate_buffer`. The sizes asked for are raised to the defaults of the
writer and handed to an allocator, which does not look whether its sum wraps. What comes back
has room for what was asked exactly where it does not.
-/
namespace M3bp.BufferLayout

inductive WriterError (ε : Type)
  | runtimeError (message : String)
  | allocation (error : ε)
  deriving DecidableEq, Repr

/-- The members that `allocate_buffer` reads, the context as its memory manager. -/
structure OutputWriter (ε : Type) where
  context : Option (MemoryManager ε)
  selfNodeId : UInt64
  hasKeys : Bool
  defaultBufferSize : UInt64
  defaultRecordsPerBuffer : UInt64

variable {ε : Type}

namespace OutputWriter

/-- `std::max` of the request and the default. -/
def raisedRecords (w : OutputWriter ε) (minRecordCount : UInt64) : UInt64 :=
  max minRecordCount w.defaultRecordsPerBuffer

def raisedSize (w : OutputWriter ε) (minDataSize : UInt64) : UInt64 :=
  max minDataSize w.defaultBufferSize

def allocateBuffer (w : OutputWriter ε) (minDataSize minRecordCount : UInt64) :
    Except (WriterError ε) SerializedBuffer :=
  match w.context with
  | none => .error (.runtimeError "This OutputWriter is not corresponding to any tasks")
  | some memoryManager =>
    if w.hasKeys then
      (allocateKeyValueBuffer memoryManager (w.raisedRecords minRecordCount)
        (w.raisedSize minDataSize) w.selfNodeId).mapError .allocation
    else
      (allocateValueOnlyBuffer memoryManager (w.raisedRecords minRecordCount)
        (w.raisedSize minDataSize) w.selfNodeId).mapError .allocation

/-- The buffer has room for the minimums, and its parts lie inside the block that the memory
manager was asked for. -/
structure Honours (w : OutputWriter ε) (minDataSize minRecordCount : UInt64)
    (b : SerializedBuffer) : Prop where
  dataSize : ∃ size, b.valuesDataSize = some size ∧ minDataSize ≤ size
  recordCount : ∃ count, b.maximumRecordCount = some count ∧ minRecordCount ≤ count
  inside : ∃ block size count data offsets, b.memoryObject = some block ∧
    b.valuesDataSize = some size ∧ b.maximumRecordCount = some count ∧
    b.regions.valuesData = some data ∧ b.regions.valuesOffsets = some offsets ∧
    data.toNat + size.toNat ≤ block.size.toNat ∧
    offsets.toNat + 8 * (count.toNat + 1) ≤ block.size.toNat ∧
    (w.hasKeys = true → count ≠ 0 → ∃ lengths, b.regions.valuesKeyLengths = some lengths ∧
      lengths.toNat + 8 * count.toNat ≤ block.size.toNat)

/-- Either an error or a buffer that honours the minimums. -/
def Honoured (w : OutputWriter ε) (minDataSize minRecordCount : UInt64) : Prop :=
  (∃ e, w.allocateBuffer minDataSize minRecordCount = .error e) ∨
    ∃ b, w.allocateBuffer minDataSize minRecordCount = .ok b ∧
      Honours w minDataSize minRecordCount b

/-- The layout for the raised sizes fits a `size_type` in exact arithmetic. Data whose size
cannot be rounded up count as none, which is enough if none were asked for. -/
def Fits (w : OutputWriter ε) (minDataSize minRecordCount : UInt64) : Prop :=
  let dataSize := (w.raisedSize minDataSize).toNat
  let records := (w.raisedRecords minRecordCount).toNat
  (dataSize ≤ 2 ^ 64 - 8 ∨ minDataSize = 0) ∧
    48 + M3bp.alignCeil dataSize 8 % 2 ^ 64 + 8 * (records + 1) +
      (if w.hasKeys then 8 * records else 0) < 2 ^ 64

instance (w : OutputWriter ε) (minDataSize minRecordCount : UInt64) :
    Decidable (Fits w minDataSize minRecordCount) :=
  inferInstanceAs (Decidable (_ ∧ _))

end OutputWriter

theorem toNat_alignCeil_wrap (x : UInt64) :
    (alignCeil x sizeofSize).toNat = M3bp.alignCeil x.toNat 8 % 2 ^ 64 := by
  have hsize : sizeofSize.toNat = 2 ^ 3 := rfl
  have hlt := x.toNat_lt
  rw [toNat_alignCeil_mod x hsize]
  unfold M3bp.alignCeil
  omega

/-- Rounding up keeps what was asked for, or wraps to zero. -/
theorem alignCeil_wrap_cases (x : UInt64) :
    (x.toNat ≤ 2 ^ 64 - 8 ∧ x.toNat ≤ (alignCeil x sizeofSize).toNat) ∨
      (2 ^ 64 - 8 < x.toNat ∧ (alignCeil x sizeofSize).toNat = 0) := by
  have hlt := x.toNat_lt
  rw [toNat_alignCeil_wrap]
  unfold M3bp.alignCeil
  omega

theorem le_max_left_toNat (x y : UInt64) : x.toNat ≤ (max x y).toNat := by
  show x.toNat ≤ (if x ≤ y then y else x).toNat
  split
  · exact UInt64.le_iff_toNat_le.mp ‹_›
  · exact Nat.le_refl _

namespace OutputWriter

variable {w : OutputWriter ε} {minDataSize minRecordCount : UInt64} {l : Layout}
  {block : MemoryBlock}

/-- The two allocators in one: the layout of the values, with room for key lengths behind it
if there are keys. -/
structure Allocates (w : OutputWriter ε) (minDataSize minRecordCount : UInt64) (l : Layout)
    (block : MemoryBlock) : Prop where
  values : ValuesLayout l (w.raisedRecords minRecordCount) (w.raisedSize minDataSize)
  bufferSize : l.bufferSize =
    l.trailing + if w.hasKeys then w.raisedRecords minRecordCount * sizeofSize else 0
  block : block.size = l.bufferSize

theorem Allocates.regions (h : Allocates w minDataSize minRecordCount l block) :
    (withValueHeaders block l (w.raisedRecords minRecordCount)).regions =
      if l.bufferSize - 16 > 0 then
        if l.trailing = l.bufferSize then l.regions .valueOnly else l.regions .keyValue
      else { commonHeader := some 0 } :=
  regions_writeValueHeaders block.bytes block.size _ h.values.header h.values.data h.values.trailing

/-- What the constructor finds in a block that is not empty behind the first header. -/
structure Found (w : OutputWriter ε) (minRecordCount : UInt64) (l : Layout)
    (b : SerializedBuffer) : Prop where
  records : b.maximumRecordCount = some (w.raisedRecords minRecordCount)
  dataSize : b.valuesDataSize = some (l.valuesOffsets - l.valuesData)
  data : b.regions.valuesData = some l.valuesData
  offsets : b.regions.valuesOffsets = some l.valuesOffsets
  keyLengths : b.regions.valuesKeyLengths =
    if l.trailing = l.bufferSize then none else some l.trailing

theorem Allocates.found (h : Allocates w minDataSize minRecordCount l block)
    (hmore : l.bufferSize - 16 > 0) :
    Found w minRecordCount l (withValueHeaders block l (w.raisedRecords minRecordCount)) := by
  have hregions := h.regions.trans (if_pos hmore)
  by_cases hmeet : l.trailing = l.bufferSize
  · have hregions := hregions.trans (if_pos hmeet)
    obtain ⟨hrecords, hvalues⟩ := values_withValueHeaders h.values.header hregions
    refine ⟨hrecords, hvalues, ?_, ?_, ?_⟩
    all_goals rw [hregions]
    · rfl
    · rfl
    · exact (if_pos hmeet).symm
  · have hregions := hregions.trans (if_neg hmeet)
    obtain ⟨hrecords, hvalues⟩ := values_withValueHeaders h.values.header hregions
    refine ⟨hrecords, hvalues, ?_, ?_, ?_⟩
    all_goals rw [hregions]
    · rfl
    · rfl
    · exact (if_neg hmeet).symm

/-- In exact arithmetic the block ends behind the last table. -/
theorem Allocates.toNat_bufferSize (h : Allocates w minDataSize minRecordCount l block)
    (hfit : l.trailing.toNat +
      (if w.hasKeys then 8 * (w.raisedRecords minRecordCount).toNat else 0) < 2 ^ 64) :
    l.bufferSize.toNat = l.trailing.toNat +
      if w.hasKeys then 8 * (w.raisedRecords minRecordCount).toNat else 0 := by
  rw [h.bufferSize]
  by_cases hkeys : w.hasKeys = true
  · simp only [hkeys, if_true] at hfit ⊢
    exact toNat_lengths _ _ hfit
  · simp only [if_neg hkeys]
    rw [UInt64.add_zero]
    rfl

theorem honours_of_fits (h : Allocates w minDataSize minRecordCount l block)
    (hfits : Fits w minDataSize minRecordCount) :
    Honours w minDataSize minRecordCount
      (withValueHeaders block l (w.raisedRecords minRecordCount)) := by
  obtain ⟨hasked, hsum⟩ := hfits
  rw [← toNat_alignCeil_wrap] at hsum
  have he := h.values.exact (by omega)
  have hend := h.toNat_bufferSize (by rw [he.trailing]; exact hsum)
  have htrailing := he.trailing
  have hmore : l.bufferSize - 16 > 0 := by
    apply sub_pos_of_toNat_lt
    show 16 < _
    omega
  have hfound := h.found hmore
  refine ⟨⟨_, hfound.dataSize, ?_⟩, ⟨_, hfound.records, ?_⟩, _, _, _, _, _, rfl,
    hfound.dataSize, hfound.records, hfound.data, hfound.offsets, ?_, ?_, ?_⟩
  · rw [UInt64.le_iff_toNat_le, he.dataSize]
    have hmin : minDataSize.toNat ≤ (w.raisedSize minDataSize).toNat := le_max_left_toNat _ _
    rcases alignCeil_wrap_cases (w.raisedSize minDataSize) with ⟨_, hle⟩ | ⟨hlt, _⟩
    · exact Nat.le_trans hmin hle
    · rcases hasked with hsmall | hzero
      · omega
      · rw [hzero]
        exact Nat.zero_le _
  · exact UInt64.le_iff_toNat_le.mpr (le_max_left_toNat _ _)
  · rw [h.block, he.data, he.dataSize]
    omega
  · rw [h.block, he.offsets]
    omega
  · intro hkeys hcount
    rw [if_pos hkeys] at hend
    have hpos : (w.raisedRecords minRecordCount).toNat ≠ 0 :=
      fun h0 => hcount (UInt64.toNat_inj.mp h0)
    have hmiss : l.trailing ≠ l.bufferSize := by
      intro heq
      have hnat := congrArg UInt64.toNat heq
      omega
    refine ⟨l.trailing, hfound.keyLengths.trans (if_neg hmiss), ?_⟩
    rw [h.block]
    omega

/-- Parts that end inside the block leave no room for a wrap before the last of them. -/
theorem fits_of_honours (h : Allocates w minDataSize minRecordCount l block)
    (hhonours : Honours w minDataSize minRecordCount
      (withValueHeaders block l (w.raisedRecords minRecordCount))) :
    Fits w minDataSize minRecordCount := by
  obtain ⟨⟨size, hsize, hmin⟩, -, block', size', count, data, offsets, hblock', hsize', hcount,
    hdata, hoffsets, hdataEnd, hoffsetsEnd, hlengths⟩ := hhonours
  have hend : l.bufferSize.toNat < 2 ^ 64 := l.bufferSize.toNat_lt
  have hblock : block'.size = l.bufferSize := by
    rw [← Option.some.inj hblock']
    exact h.block
  have hmore : l.bufferSize - 16 > 0 := by
    by_contra hempty
    rw [h.regions, if_neg hempty] at hdata
    cases hdata
  have hfound := h.found hmore
  have hsize_eq := Option.some.inj (hsize.symm.trans (hfound.dataSize.trans
    (congrArg some h.values.dataSize)))
  have hsize'_eq := Option.some.inj (hsize'.symm.trans hsize)
  have hcount_eq := Option.some.inj (hcount.symm.trans hfound.records)
  have hdata_eq := Option.some.inj (hdata.symm.trans (hfound.data.trans
    (congrArg some h.values.data)))
  have hoffsets_eq := Option.some.inj (hoffsets.symm.trans (hfound.offsets.trans
    (congrArg some h.values.offsets)))
  rw [hsize'_eq, hsize_eq, hdata_eq, hblock] at hdataEnd
  have hdataEnd : 48 + (alignCeil (w.raisedSize minDataSize) sizeofSize).toNat ≤
    l.bufferSize.toNat := hdataEnd
  have hoffsets_nat : offsets.toNat =
      48 + (alignCeil (w.raisedSize minDataSize) sizeofSize).toNat := by
    rw [hoffsets_eq]
    exact toNat_add_small (show 48 + _ < _ by omega)
  rw [hoffsets_nat, hcount_eq, hblock] at hoffsetsEnd
  have he := h.values.exact (by omega)
  refine ⟨?_, ?_⟩
  · rcases alignCeil_wrap_cases (w.raisedSize minDataSize) with ⟨hsmall, _⟩ | ⟨_, hzero⟩
    · exact Or.inl hsmall
    · right
      rw [hsize_eq, UInt64.le_iff_toNat_le, hzero] at hmin
      exact UInt64.toNat_inj.mp (Nat.le_zero.mp hmin)
  · rw [← toNat_alignCeil_wrap]
    by_cases hkeys : w.hasKeys = true
    · rw [if_pos hkeys]
      by_cases hzero : w.raisedRecords minRecordCount = 0
      · show 48 + (alignCeil (w.raisedSize minDataSize) sizeofSize).toNat +
          8 * ((w.raisedRecords minRecordCount).toNat + 1) +
          8 * (w.raisedRecords minRecordCount).toNat < 2 ^ 64
        have hnat := congrArg UInt64.toNat hzero
        have hzero_nat : (0 : UInt64).toNat = 0 := rfl
        omega
      · obtain ⟨lengths, hregion, hlengthsEnd⟩ := hlengths hkeys (hcount_eq ▸ hzero)
        rw [hfound.keyLengths] at hregion
        split at hregion
        · cases hregion
        · have heq := Option.some.inj hregion
          rw [← heq, he.trailing, hcount_eq, hblock] at hlengthsEnd
          exact Nat.lt_of_le_of_lt hlengthsEnd hend
    · rw [if_neg hkeys]
      exact Nat.lt_of_le_of_lt hoffsetsEnd hend

theorem honours_iff (h : Allocates w minDataSize minRecordCount l block) :
    Honours w minDataSize minRecordCount
      (withValueHeaders block l (w.raisedRecords minRecordCount)) ↔
        Fits w minDataSize minRecordCount :=
  ⟨fits_of_honours h, honours_of_fits h⟩

theorem mapError_eq_ok {α ε ε' : Type} {x : Except ε α} {f : ε → ε'} {a : α}
    (h : x.mapError f = .ok a) : x = .ok a := by
  cases x with
  | error e => cases h
  | ok b => exact congrArg Except.ok (Except.ok.inj h)

/-- A buffer that comes back is one of the two allocators'. -/
theorem allocates_of_ok {b : SerializedBuffer}
    (h : w.allocateBuffer minDataSize minRecordCount = .ok b) :
    ∃ l block, Allocates w minDataSize minRecordCount l block ∧
      b = withValueHeaders block l (w.raisedRecords minRecordCount) := by
  unfold allocateBuffer at h
  cases hcontext : w.context with
  | none => rw [hcontext] at h; cases h
  | some memoryManager =>
    simp only [hcontext] at h
    by_cases hkeys : w.hasKeys = true
    · rw [if_pos hkeys] at h
      obtain ⟨block, hblock, rfl⟩ := allocate_eq_ok (mapError_eq_ok h)
      refine ⟨_, block, ⟨⟨rfl, rfl, rfl, rfl⟩, ?_, hblock⟩, rfl⟩
      rw [if_pos hkeys]
      rfl
    · rw [if_neg hkeys] at h
      obtain ⟨block, hblock, rfl⟩ := allocate_eq_ok (mapError_eq_ok h)
      refine ⟨_, block, ⟨⟨rfl, rfl, rfl, rfl⟩, ?_, hblock⟩, rfl⟩
      rw [if_neg hkeys, UInt64.add_zero]
      rfl

theorem honours_iff_of_ok {b : SerializedBuffer}
    (h : w.allocateBuffer minDataSize minRecordCount = .ok b) :
    Honours w minDataSize minRecordCount b ↔ Fits w minDataSize minRecordCount := by
  obtain ⟨l, block, hallocates, rfl⟩ := allocates_of_ok h
  exact honours_iff hallocates

/-- A writer on a memory manager that always has room returns a buffer. -/
theorem exists_allocateBuffer (minDataSize minRecordCount : UInt64)
    (hroom : w.context = some { allocate := fun _ _ => .ok fun _ => 0 }) :
    ∃ b, w.allocateBuffer minDataSize minRecordCount = .ok b := by
  unfold allocateBuffer allocateKeyValueBuffer allocateValueOnlyBuffer MemoryManager.lockedBlock
  rw [hroom]
  by_cases hkeys : w.hasKeys = true <;> by_cases hnode : w.selfNodeId = targetNodeUnspecified
  all_goals
    simp only [hkeys, hnode, if_true, if_false]
    exact ⟨_, rfl⟩

theorem honoured_iff {b : SerializedBuffer}
    (h : w.allocateBuffer minDataSize minRecordCount = .ok b) :
    Honoured w minDataSize minRecordCount ↔ Fits w minDataSize minRecordCount := by
  rw [← honours_iff_of_ok h]
  constructor
  · rintro (⟨e, he⟩ | ⟨b', hb', hhonours⟩)
    · rw [h] at he
      cases he
    · rw [h] at hb'
      exact Except.ok.inj hb' ▸ hhonours
  · exact fun hhonours => Or.inr ⟨b, h, hhonours⟩

/-- The minimums are honoured whatever the memory manager does exactly where the layout fits,
and where it does not, each buffer that is returned fails them. -/
theorem allocateBuffer_honoured_iff (w : OutputWriter ε) (minDataSize minRecordCount : UInt64) :
    ((∀ context : Option (MemoryManager ε),
        Honoured { w with context := context } minDataSize minRecordCount) ↔
          Fits w minDataSize minRecordCount) ∧
      ∀ b, w.allocateBuffer minDataSize minRecordCount = .ok b →
        (Honours w minDataSize minRecordCount b ↔ Fits w minDataSize minRecordCount) := by
  refine ⟨⟨fun h => ?_, fun hfits context => ?_⟩, fun b h => honours_iff_of_ok h⟩
  · let room : OutputWriter ε := { w with context := some { allocate := fun _ _ => .ok fun _ => 0 } }
    obtain ⟨b, hb⟩ : ∃ b, room.allocateBuffer minDataSize minRecordCount = .ok b :=
      exists_allocateBuffer minDataSize minRecordCount rfl
    exact (honoured_iff hb).mp (h _)
  · cases h : ({ w with context := context } : OutputWriter ε).allocateBuffer minDataSize
      minRecordCount with
    | error e => exact Or.inl ⟨e, h⟩
    | ok b => exact (honoured_iff h).mpr hfits

/-- The writer as it is made, on a memory manager with room. -/
def sampleWriter : OutputWriter Unit :=
  { context := some zeroMemory
    selfNodeId := 0
    hasKeys := false
    defaultBufferSize := 4194304
    defaultRecordsPerBuffer := 1048576 }

theorem allocateBuffer_honoured_sampleWriter : Honoured sampleWriter 5000000 100 :=
  (allocateBuffer_honoured_iff sampleWriter 5000000 100).1.mpr (by decide) (some zeroMemory)

/-- A data size that cannot be rounded up to a multiple of eight comes back as zero. -/
theorem not_always_honoured : ¬ ∀ (w : OutputWriter Unit) minDataSize minRecordCount,
    Honoured w minDataSize minRecordCount := by
  intro h
  obtain ⟨b, hb⟩ : ∃ b, sampleWriter.allocateBuffer (-1) 0 = .ok b :=
    exists_allocateBuffer (-1) 0 rfl
  have hfits := (honoured_iff hb).mp (h sampleWriter (-1) 0)
  exact absurd hfits (by decide)

end OutputWriter

end M3bp.BufferLayout
