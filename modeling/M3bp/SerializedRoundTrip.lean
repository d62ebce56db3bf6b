import M3bp.BufferLayout
import M3bp.GroupedFormat

/-!
What an allocator has laid out is what the constructor finds. The header words are read back
from memory, so that the cursor of the constructor goes through the places of the allocator;
it meets the tail exactly where nothing follows the offsets of the values.
-/
namespace M3bp.BufferLayout

section Word

theorem sizeAt_setSize (bytes : ByteMemory) (offset value : UInt64) :
    sizeAt (setSize bytes offset value) offset = value := by
  have hread : (setSize bytes offset value).read offset.toNat 8 =
      ByteMemory.wordBytes value.toNat := by
    have h := bytes.read_write offset.toNat (ByteMemory.wordBytes value.toNat)
    rwa [ByteMemory.length_wordBytes] at h
  unfold sizeAt
  rw [ByteMemory.readWord_of_read _ value.toNat_lt hread]
  exact UInt64.ofNat_toNat

theorem sizeAt_setSize_of_apart (bytes : ByteMemory) {offset offset' : UInt64} (value : UInt64)
    (h : offset'.toNat + 8 ≤ offset.toNat ∨ offset.toNat + 8 ≤ offset'.toNat) :
    sizeAt (setSize bytes offset value) offset' = sizeAt bytes offset' := by
  unfold sizeAt setSize ByteMemory.readWord
  rw [ByteMemory.read_write_of_disjoint]
  rw [ByteMemory.length_wordBytes]
  exact h

end Word

section Align

/-- Clearing the low bits rounds down. -/
theorem toNat_and_not (y : UInt64) {k : ℕ} {m : UInt64} (hm : m.toNat = 2 ^ k - 1) :
    (y &&& ~~~m).toNat = y.toNat / 2 ^ k * 2 ^ k := by
  apply Nat.eq_of_testBit_eq
  intro i
  have hmask : m.toNat.testBit i = decide (i < k) := by
    rw [hm]
    exact Nat.testBit_two_pow_sub_one k i
  have hnot : (~~~m).toNat.testBit i = (decide (i < 64) && !decide (i < k)) := by
    rw [← hmask]
    exact BitVec.getLsbD_not
  have hwide : 64 ≤ i → y.toNat.testBit i = false := by
    intro hi
    exact Nat.testBit_lt_two_pow (Nat.lt_of_lt_of_le y.toNat_lt (Nat.pow_le_pow_right (by decide) hi))
  rw [UInt64.toNat_and, Nat.testBit_and, hnot, ← Nat.shiftRight_eq_div_pow, ← Nat.shiftLeft_eq,
    Nat.testBit_shiftLeft, Nat.testBit_shiftRight]
  rcases Nat.lt_or_ge i k with hlt | hge
  · simp [hlt, Nat.not_le_of_lt hlt]
  · rw [Nat.add_sub_cancel' hge]
    rcases Nat.lt_or_ge i 64 with h64 | h64
    · simp [h64, hge, Nat.not_lt_of_le hge]
    · simp [hwide h64]

/-- What `align_ceil` does where it wraps. -/
theorem toNat_alignCeil_mod (x : UInt64) {align : UInt64} {k : ℕ} (hk : align.toNat = 2 ^ k) :
    (alignCeil x align).toNat = (x.toNat + (2 ^ k - 1)) % 2 ^ 64 / 2 ^ k * 2 ^ k := by
  have hle : 1 ≤ align := by
    rw [UInt64.le_iff_toNat_le, hk]
    exact Nat.one_le_two_pow
  have hmask : (align - 1).toNat = 2 ^ k - 1 := by
    rw [UInt64.toNat_sub_of_le _ _ hle, hk]
    rfl
  have hsum : x + align - 1 = x + (align - 1) := by grind
  unfold alignCeil
  rw [toNat_and_not _ hmask, hsum, UInt64.toNat_add, hmask]

/-- Without overflow, `align_ceil` rounds up to the next multiple. -/
theorem toNat_alignCeil {x align : UInt64} {k : ℕ} (hk : align.toNat = 2 ^ k)
    (hx : x.toNat + 2 ^ k ≤ 2 ^ 64) :
    (alignCeil x align).toNat = M3bp.alignCeil x.toNat (2 ^ k) := by
  have hpos : 0 < 2 ^ k := Nat.two_pow_pos k
  rw [toNat_alignCeil_mod x hk, Nat.mod_eq_of_lt (by omega), M3bp.alignCeil,
    Nat.add_sub_assoc hpos]

theorem toNat_alignCeil_size (x : UInt64) (hx : x.toNat + 8 ≤ 2 ^ 64) :
    (alignCeil x sizeofSize).toNat = M3bp.alignCeil x.toNat 8 :=
  toNat_alignCeil (k := 3) rfl hx

theorem toNat_alignCeil_max (x : UInt64) (hx : x.toNat + 16 ≤ 2 ^ 64) :
    (alignCeil x maxAlign).toNat = M3bp.alignCeil x.toNat 16 :=
  toNat_alignCeil (k := 4) rfl hx

end Align

section Headers

variable (bytes : ByteMemory) {header : UInt64}

theorem toNat_add_small {k : UInt64} (hfit : header.toNat + k.toNat < 2 ^ 64) :
    (header + k).toNat = header.toNat + k.toNat := by
  rw [UInt64.toNat_add]
  exact Nat.mod_eq_of_lt hfit

theorem sizeAt_writeCommonHeader (keyBufferSize valueBufferSize : UInt64) :
    sizeAt (writeCommonHeader bytes keyBufferSize valueBufferSize) 0 = keyBufferSize ∧
      sizeAt (writeCommonHeader bytes keyBufferSize valueBufferSize) 8 = valueBufferSize := by
  unfold writeCommonHeader
  exact ⟨by rw [sizeAt_setSize_of_apart _ _ (by decide), sizeAt_setSize], sizeAt_setSize _ _ _⟩

theorem sizeAt_writeKeysHeader (hfit : header.toNat + 16 ≤ 2 ^ 64) (dataBufferSize count : UInt64) :
    sizeAt (writeKeysHeader bytes header dataBufferSize count) header = dataBufferSize ∧
      sizeAt (writeKeysHeader bytes header dataBufferSize count) (header + 8) = count := by
  have h8 : (header + 8).toNat = header.toNat + 8 :=
    toNat_add_small (k := 8) (show _ + 8 < _ by omega)
  unfold writeKeysHeader
  refine ⟨?_, sizeAt_setSize _ _ _⟩
  rw [sizeAt_setSize_of_apart _ _ (by omega), sizeAt_setSize]

theorem sizeAt_writeKeysHeader_of_le {offset : UInt64} (hle : offset.toNat + 8 ≤ header.toNat)
    (hfit : header.toNat + 16 ≤ 2 ^ 64) (dataBufferSize count : UInt64) :
    sizeAt (writeKeysHeader bytes header dataBufferSize count) offset = sizeAt bytes offset := by
  have h8 : (header + 8).toNat = header.toNat + 8 :=
    toNat_add_small (k := 8) (show _ + 8 < _ by omega)
  unfold writeKeysHeader
  rw [sizeAt_setSize_of_apart _ _ (by omega), sizeAt_setSize_of_apart _ _ (by omega)]

theorem sizeAt_writeValuesHeader (hfit : header.toNat + 24 ≤ 2 ^ 64)
    (dataBufferSize maximum actual : UInt64) :
    sizeAt (writeValuesHeader bytes header dataBufferSize maximum actual) header =
        dataBufferSize ∧
      sizeAt (writeValuesHeader bytes header dataBufferSize maximum actual) (header + 8) =
        maximum := by
  have h8 : (header + 8).toNat = header.toNat + 8 :=
    toNat_add_small (k := 8) (show _ + 8 < _ by omega)
  have h16 : (header + 16).toNat = header.toNat + 16 :=
    toNat_add_small (k := 16) (show _ + 16 < _ by omega)
  unfold writeValuesHeader
  constructor
  · rw [sizeAt_setSize_of_apart _ _ (by omega), sizeAt_setSize_of_apart _ _ (by omega),
      sizeAt_setSize]
  · rw [sizeAt_setSize_of_apart _ _ (by omega), sizeAt_setSize]

theorem sizeAt_writeValuesHeader_of_le {offset : UInt64} (hle : offset.toNat + 8 ≤ header.toNat)
    (hfit : header.toNat + 24 ≤ 2 ^ 64) (dataBufferSize maximum actual : UInt64) :
    sizeAt (writeValuesHeader bytes header dataBufferSize maximum actual) offset =
      sizeAt bytes offset := by
  have h8 : (header + 8).toNat = header.toNat + 8 :=
    toNat_add_small (k := 8) (show _ + 8 < _ by omega)
  have h16 : (header + 16).toNat = header.toNat + 16 :=
    toNat_add_small (k := 16) (show _ + 16 < _ by omega)
  unfold writeValuesHeader
  rw [sizeAt_setSize_of_apart _ _ (by omega), sizeAt_setSize_of_apart _ _ (by omega),
    sizeAt_setSize_of_apart _ _ (by omega)]

end Headers

section Parse

variable (bytes : ByteMemory) (size maximumRecordCount maximumGroupCount : UInt64) {l : Layout}

/-- The header words of a buffer without keys. -/
theorem sizeAt_writeValueHeaders (hheader : l.valuesHeader = 16) :
    sizeAt (writeValueHeaders bytes l maximumRecordCount) 0 = 0 ∧
      sizeAt (writeValueHeaders bytes l maximumRecordCount) 8 = l.bufferSize - 16 ∧
      sizeAt (writeValueHeaders bytes l maximumRecordCount) 16 = l.valuesOffsets - l.valuesData ∧
      sizeAt (writeValueHeaders bytes l maximumRecordCount) 24 = maximumRecordCount := by
  obtain ⟨hkey, hvalue⟩ := sizeAt_writeCommonHeader bytes 0 (l.bufferSize - 16)
  unfold writeValueHeaders
  rw [hheader]
  refine ⟨?_, ?_, sizeAt_writeValuesHeader _ (by decide) _ _ _⟩
  · exact (sizeAt_writeValuesHeader_of_le _ (by decide) (by decide) _ _ _).trans hkey
  · exact (sizeAt_writeValuesHeader_of_le _ (by decide) (by decide) _ _ _).trans hvalue

/-- The parts that the constructor finds in a buffer without keys. -/
theorem regions_writeValueHeaders (hheader : l.valuesHeader = 16) (hdata : l.valuesData = 48)
    (htrailing : l.trailing = l.valuesOffsets + (maximumRecordCount + 1) * sizeofSize) :
    (SerializedBuffer.ofReference
        (some ⟨size, writeValueHeaders bytes l maximumRecordCount⟩)).regions =
      if l.bufferSize - 16 > 0 then
        if l.trailing = l.bufferSize then l.regions .valueOnly else l.regions .keyValue
      else { commonHeader := some 0 } := by
  obtain ⟨hkey, hvalue, hsize, hcount⟩ :=
    sizeAt_writeValueHeaders bytes maximumRecordCount hheader
  have hkeys : ¬ (0 : UInt64) > 0 := by decide
  have halign : alignCeil (sizeofBufferHeader + sizeofValuesHeader) maxAlign = 48 := by decide
  have htail : sizeofBufferHeader + 0 + (l.bufferSize - 16) = l.bufferSize := by
    unfold sizeofBufferHeader
    grind
  have hoffsets : (48 : UInt64) + (l.valuesOffsets - 48) = l.valuesOffsets := by grind
  have hcursor : l.valuesOffsets + sizeofSize * (maximumRecordCount + 1) = l.trailing := by
    rw [htrailing, UInt64.mul_comm]
  unfold SerializedBuffer.ofReference SerializedBuffer.parseKeys SerializedBuffer.parseValues
  simp only [hkey, hvalue, hkeys, if_false, halign, htail]
  rw [show sizeofBufferHeader = 16 from rfl, hsize, hdata, hoffsets,
    show (16 : UInt64) + 8 = 24 from rfl, hcount, hcursor]
  simp only [Layout.regions, hheader, hdata, if_true]

/-- The header words of a buffer with keys. -/
theorem sizeAt_writeGroupedHeaders (hkeys : l.keysHeader = 16)
    (hbehind : 32 ≤ l.valuesHeader.toNat) (hfit : l.valuesHeader.toNat + 24 ≤ 2 ^ 64) :
    let written := writeGroupedHeaders bytes l maximumRecordCount maximumGroupCount
    (sizeAt written 0 = l.valuesHeader - 16 ∧ sizeAt written 8 = l.bufferSize - l.valuesHeader) ∧
      (sizeAt written 16 = l.keysOffsets - l.keysData ∧ sizeAt written 24 = maximumGroupCount) ∧
      sizeAt written l.valuesHeader = l.valuesOffsets - l.valuesData ∧
      sizeAt written (l.valuesHeader + 8) = maximumRecordCount := by
  intro written
  have hvalues : ∀ offset : UInt64, offset.toNat + 8 ≤ l.valuesHeader.toNat →
      sizeAt written offset = sizeAt
        (writeKeysHeader (writeCommonHeader bytes (l.valuesHeader - 16)
          (l.bufferSize - l.valuesHeader)) 16 (l.keysOffsets - l.keysData) maximumGroupCount)
        offset := by
    intro offset hle
    show sizeAt (writeGroupedHeaders _ _ _ _) _ = _
    unfold writeGroupedHeaders
    rw [hkeys]
    exact sizeAt_writeValuesHeader_of_le _ hle hfit _ _ _
  obtain ⟨hkey, hvalue⟩ :=
    sizeAt_writeCommonHeader bytes (l.valuesHeader - 16) (l.bufferSize - l.valuesHeader)
  have hfront : (16 : UInt64).toNat + 16 ≤ 2 ^ 64 := by decide
  obtain ⟨hsize, hcount⟩ := sizeAt_writeKeysHeader
    (writeCommonHeader bytes (l.valuesHeader - 16) (l.bufferSize - l.valuesHeader)) hfront
    (l.keysOffsets - l.keysData) maximumGroupCount
  refine ⟨⟨?_, ?_⟩, ⟨?_, ?_⟩, sizeAt_writeValuesHeader _ hfit _ _ _⟩
  · rw [hvalues 0 (by show 0 + 8 ≤ _; omega)]
    exact (sizeAt_writeKeysHeader_of_le _ (by decide) (by decide) _ _).trans hkey
  · rw [hvalues 8 (by show 8 + 8 ≤ _; omega)]
    exact (sizeAt_writeKeysHeader_of_le _ (by decide) (by decide) _ _).trans hvalue
  · rw [hvalues 16 (by show 16 + 8 ≤ _; omega)]
    exact hsize
  · rw [hvalues 24 (by show 24 + 8 ≤ _; omega)]
    exact hcount

/-- The parts that the constructor finds in a buffer with keys, where the headers do not meet
and something follows the offsets of the values. -/
theorem regions_writeGroupedHeaders (hkeys : l.keysHeader = 16) (hdata : l.keysData = 32)
    (hvalues : l.valuesHeader = l.keysOffsets + (maximumGroupCount + 1) * 8)
    (hbehind : 32 ≤ l.valuesHeader.toNat) (hfit : l.valuesHeader.toNat + 24 ≤ 2 ^ 64)
    (halign : alignCeil (l.valuesHeader + 24) 16 = l.valuesData)
    (hsize : l.bufferSize - l.valuesHeader > 0)
    (htrailing : l.trailing = l.valuesOffsets + (maximumRecordCount + 1) * 8)
    (hmore : l.trailing ≠ l.bufferSize) :
    (SerializedBuffer.ofReference
        (some ⟨size, writeGroupedHeaders bytes l maximumRecordCount maximumGroupCount⟩)).regions =
      l.regions .grouped := by
  obtain ⟨⟨hkey, hvalue⟩, ⟨hkeysSize, hgroups⟩, hvaluesSize, hcount⟩ :=
    sizeAt_writeGroupedHeaders bytes maximumRecordCount maximumGroupCount hkeys hbehind hfit
  have hkey_pos : l.valuesHeader - 16 > 0 := by
    have hle : (16 : UInt64) ≤ l.valuesHeader := by
      rw [UInt64.le_iff_toNat_le]
      exact Nat.le_trans (by decide) hbehind
    show 0 < l.valuesHeader - 16
    rw [UInt64.lt_iff_toNat_lt, UInt64.toNat_sub_of_le _ _ hle]
    show 0 < l.valuesHeader.toNat - 16
    omega
  have hkey_ne : ¬ l.valuesHeader - 16 = 0 := by
    intro h
    rw [h] at hkey_pos
    exact absurd hkey_pos (by decide)
  have hkeysData : alignCeil (sizeofBufferHeader + sizeofKeysHeader) maxAlign = 32 := by decide
  have hkeysOffsets : (32 : UInt64) + (l.keysOffsets - 32) = l.keysOffsets := by grind
  have hcursor : l.keysOffsets + sizeofSize * (maximumGroupCount + 1) = l.valuesHeader := by
    rw [hvalues]
    unfold sizeofSize
    grind
  have hvaluesOffsets : l.valuesData + (l.valuesOffsets - l.valuesData) = l.valuesOffsets := by grind
  have hend : l.valuesOffsets + sizeofSize * (maximumRecordCount + 1) = l.trailing := by
    rw [htrailing]
    unfold sizeofSize
    grind
  have htail : sizeofBufferHeader + (l.valuesHeader - 16) + (l.bufferSize - l.valuesHeader) =
      l.bufferSize := by
    unfold sizeofBufferHeader
    grind
  unfold SerializedBuffer.ofReference SerializedBuffer.parseKeys
  simp only [hkey, hkey_pos, if_true, hkeysData]
  rw [show sizeofBufferHeader = 16 from rfl, hkeysSize, hdata, hkeysOffsets,
    show (16 : UInt64) + 8 = 24 from rfl, hgroups, hcursor]
  unfold SerializedBuffer.parseValues
  simp only [hkey, hvalue, hsize, if_true, htail]
  rw [show sizeofValuesHeader = 24 from rfl, show maxAlign = 16 from rfl, halign, hvaluesSize,
    hvaluesOffsets, hcount, hend]
  simp only [if_neg hmore, if_neg hkey_ne, Layout.regions, hkeys, hdata]

end Parse

/-- One of the three allocators with its arguments. -/
inductive Request
  | valueOnly (maximumRecordCount totalRecordSize : UInt64)
  | keyValue (maximumRecordCount totalRecordSize : UInt64)
  | grouped (maximumRecordCount maximumGroupCount totalKeySize totalValueSize : UInt64)

namespace Request

def kind : Request → Kind
  | .valueOnly _ _ => .valueOnly
  | .keyValue _ _ => .keyValue
  | .grouped _ _ _ _ => .grouped

def maximumRecordCount : Request → UInt64
  | .valueOnly n _ => n
  | .keyValue n _ => n
  | .grouped n _ _ _ => n

def totalValueSize : Request → UInt64
  | .valueOnly _ size => size
  | .keyValue _ size => size
  | .grouped _ _ _ size => size

/-- The kind that the constructor can tell: without room for a record there are no key lengths
to tell keys from. -/
def told (r : Request) : Kind :=
  if r.kind = .keyValue ∧ r.maximumRecordCount = 0 then .valueOnly else r.kind

def layout : Request → Layout
  | .valueOnly n size => valueOnlyLayout n size
  | .keyValue n size => keyValueLayout n size
  | .grouped n groups keySize valueSize => groupedLayout n groups keySize valueSize

def allocate {ε : Type} (memoryManager : MemoryManager ε) (targetNode : UInt64) :
    Request → Except ε SerializedBuffer
  | .valueOnly n size => allocateValueOnlyBuffer memoryManager n size targetNode
  | .keyValue n size => allocateKeyValueBuffer memoryManager n size targetNode
  | .grouped n groups keySize valueSize =>
    allocateGroupedBuffer memoryManager n groups keySize valueSize targetNode

/-- The size of the layout in exact arithmetic. -/
def exactSize : Request → ℕ
  | .valueOnly n size => 48 + M3bp.alignCeil size.toNat 8 + 8 * (n.toNat + 1)
  | .keyValue n size => 48 + M3bp.alignCeil size.toNat 8 + 8 * (n.toNat + 1) + 8 * n.toNat
  | .grouped n groups keySize valueSize =>
    (M3bp.allocateGroupedBuffer n.toNat groups.toNat keySize.toNat valueSize.toNat).bufferSize

end Request

namespace SerializedBuffer

/-- `is_grouped`, and whether there are key lengths. -/
def kind (b : SerializedBuffer) : Kind :=
  if b.regions.keysHeader.isSome then .grouped
  else if b.regions.valuesKeyLengths.isSome then .keyValue
  else .valueOnly

def number (value : Option UInt64) : ℕ := value.elim 0 UInt64.toNat

def extent (start : Option UInt64) (length : ℕ) : List (ℕ × ℕ) :=
  start.toList.map fun offset => (offset.toNat, length)

/-- The headers, the data and the tables, each with its start and its length. -/
def extents (b : SerializedBuffer) : List (ℕ × ℕ) :=
  extent b.regions.commonHeader 16 ++ extent b.regions.keysHeader 16 ++
    extent b.regions.keysData (number b.keysDataSize) ++
    extent b.regions.keysOffsets (8 * (number b.groupCount + 1)) ++
    extent b.regions.valuesHeader 24 ++
    extent b.regions.valuesData (number b.valuesDataSize) ++
    extent b.regions.valuesOffsets (8 * (number b.maximumRecordCount + 1)) ++
    extent b.regions.valuesKeyLengths (8 * number b.maximumRecordCount) ++
    extent b.regions.valuesGroupOffsets (8 * (number b.groupCount + 1))

/-- The tables of `size_type`. -/
def tables (b : SerializedBuffer) : List UInt64 :=
  b.regions.keysOffsets.toList ++ b.regions.valuesOffsets.toList ++
    b.regions.valuesKeyLengths.toList ++ b.regions.valuesGroupOffsets.toList

end SerializedBuffer

/-- A buffer is what its allocator was asked for: the constructor has found the parts where
they were laid out, they hold what was asked for, and no two of them meet. -/
structure Serves (r : Request) (b : SerializedBuffer) : Prop where
  kind : b.kind = r.told
  regions : b.regions = r.layout.regions r.told
  records : b.maximumRecordCount = some r.maximumRecordCount
  values : ∃ size, b.valuesDataSize = some size ∧ r.totalValueSize ≤ size
  keys : ∀ n groups keySize valueSize, r = .grouped n groups keySize valueSize →
    b.groupCount = some groups ∧ ∃ size, b.keysDataSize = some size ∧ keySize ≤ size
  size : ∃ block, b.memoryObject = some block ∧ block.size.toNat = r.exactSize
  apart : b.extents.Pairwise fun x y => x.1 + x.2 ≤ y.1 ∨ y.1 + y.2 ≤ x.1
  inside : ∀ x ∈ b.extents, x.1 + x.2 ≤ r.exactSize
  aligned : ∀ table ∈ b.tables, table.toNat % 8 = 0

section Exact

variable (start n size : UInt64)

/-- The end of the data. -/
theorem toNat_data (h : start.toNat + M3bp.alignCeil size.toNat 8 < 2 ^ 64) :
    (start + alignCeil size sizeofSize).toNat = start.toNat + M3bp.alignCeil size.toNat 8 ∧
      (alignCeil size sizeofSize).toNat = M3bp.alignCeil size.toNat 8 := by
  have hsmall : size.toNat + 8 ≤ 2 ^ 64 := by
    unfold M3bp.alignCeil at h
    omega
  have hdata := toNat_alignCeil_size size hsmall
  exact ⟨by rw [toNat_add_small (by omega), hdata], hdata⟩

/-- The end of a table of offsets. -/
theorem toNat_offsets (h : start.toNat + 8 * (n.toNat + 1) < 2 ^ 64) :
    (start + (n + 1) * sizeofSize).toNat = start.toNat + 8 * (n.toNat + 1) := by
  rw [UInt64.toNat_add, UInt64.toNat_mul, UInt64.toNat_add]
  show (_ + (n.toNat + 1) % 2 ^ 64 * 8 % 2 ^ 64) % 2 ^ 64 = _
  omega

/-- The end of a table of lengths. -/
theorem toNat_lengths (h : start.toNat + 8 * n.toNat < 2 ^ 64) :
    (start + n * sizeofSize).toNat = start.toNat + 8 * n.toNat := by
  rw [UInt64.toNat_add, UInt64.toNat_mul]
  show (_ + n.toNat * 8 % 2 ^ 64) % 2 ^ 64 = _
  omega

/-- The start of the data behind the header of the values. -/
theorem toNat_valuesData (h : M3bp.alignCeil (start.toNat + 24) 16 < 2 ^ 64) :
    (alignCeil (start + sizeofValuesHeader) maxAlign).toNat =
      M3bp.alignCeil (start.toNat + 24) 16 := by
  unfold M3bp.alignCeil at h
  have hheader : (start + sizeofValuesHeader).toNat = start.toNat + 24 :=
    toNat_add_small (show _ + 24 < _ by omega)
  rw [toNat_alignCeil_max _ (by omega), hheader]

theorem alignCeil_mod (x : ℕ) : M3bp.alignCeil x 8 % 8 = 0 := Nat.mul_mod_left _ _

end Exact

section Serve

variable {ε : Type} {memoryManager : MemoryManager ε} {node : UInt64} {b : SerializedBuffer}

theorem lockedBlock_size {bufferSize : UInt64} {block : MemoryBlock}
    (h : memoryManager.lockedBlock bufferSize node = .ok block) : block.size = bufferSize := by
  unfold MemoryManager.lockedBlock at h
  split at h
  all_goals
    cases hallocate : memoryManager.allocate bufferSize _ with
    | error e => rw [hallocate] at h; cases h
    | ok bytes =>
      rw [hallocate] at h
      cases h
      rfl

/-- What the constructor is given by the allocators of buffers without keys. -/
def withValueHeaders (block : MemoryBlock) (l : Layout) (n : UInt64) : SerializedBuffer :=
  .ofReference (some { block with bytes := writeValueHeaders block.bytes l n })

theorem allocate_eq_ok {l : Layout} {f : MemoryBlock → SerializedBuffer}
    (h : (do let block ← memoryManager.lockedBlock l.bufferSize node; return f block) = .ok b) :
    ∃ block : MemoryBlock, block.size = l.bufferSize ∧ f block = b := by
  cases hlock : memoryManager.lockedBlock l.bufferSize node with
  | error e => rw [hlock] at h; cases h
  | ok block =>
    rw [hlock] at h
    exact ⟨block, lockedBlock_size hlock, Except.ok.inj h⟩

/-- The numbers in the header of the values. -/
theorem values_withValueHeaders {l : Layout} (hheader : l.valuesHeader = 16) {block : MemoryBlock}
    {n : UInt64} {kind : Kind} (hregions : (withValueHeaders block l n).regions = l.regions kind) :
    (withValueHeaders block l n).maximumRecordCount = some n ∧
      (withValueHeaders block l n).valuesDataSize = some (l.valuesOffsets - l.valuesData) := by
  obtain ⟨_, _, hsize, hcount⟩ := sizeAt_writeValueHeaders block.bytes n hheader
  have hvalues : (withValueHeaders block l n).regions.valuesHeader = some 16 := by
    rw [hregions, ← hheader]
    cases kind <;> rfl
  unfold SerializedBuffer.maximumRecordCount SerializedBuffer.valuesDataSize
  rw [hvalues]
  exact ⟨congrArg some hcount, congrArg some hsize⟩

section ValueHeaders

variable {l : Layout} {block : MemoryBlock} {n v : UInt64}

theorem extents_valueOnly (hheader : l.valuesHeader = 16)
    (hregions : b.regions = l.regions .valueOnly) (hrecords : b.maximumRecordCount = some n)
    (hvalues : b.valuesDataSize = some v) :
    b.extents = [(0, 16), (16, 24), (l.valuesData.toNat, v.toNat),
      (l.valuesOffsets.toNat, 8 * (n.toNat + 1))] := by
  unfold SerializedBuffer.extents
  rw [hregions, hrecords, hvalues]
  simp [Layout.regions, hheader, SerializedBuffer.extent, SerializedBuffer.number]

theorem extents_keyValue (hheader : l.valuesHeader = 16)
    (hregions : b.regions = l.regions .keyValue) (hrecords : b.maximumRecordCount = some n)
    (hvalues : b.valuesDataSize = some v) :
    b.extents = [(0, 16), (16, 24), (l.valuesData.toNat, v.toNat),
      (l.valuesOffsets.toNat, 8 * (n.toNat + 1)), (l.trailing.toNat, 8 * n.toNat)] := by
  unfold SerializedBuffer.extents
  rw [hregions, hrecords, hvalues]
  simp [Layout.regions, hheader, SerializedBuffer.extent, SerializedBuffer.number]

/-- A size above another one leaves something between them. -/
theorem sub_pos_of_toNat_lt {x y : UInt64} (h : y.toNat < x.toNat) : x - y > 0 := by
  show 0 < x - y
  rw [UInt64.lt_iff_toNat_lt, UInt64.toNat_sub_of_le _ _ (UInt64.le_iff_toNat_le.mpr (Nat.le_of_lt h))]
  exact Nat.sub_pos_of_lt h

theorem data_sub (start a : UInt64) : start + a - start = a := by grind

end ValueHeaders

/-- One part ends before the other begins. -/
def Before (x y : ℕ × ℕ) : Prop := x.1 + x.2 ≤ y.1

instance : Trans Before Before Before where
  trans hxy hyz := Nat.le_trans hxy (Nat.le_trans (Nat.le_add_right _ _) hyz)

/-- The parts stand one behind the other inside the block, the tables on words. -/
structure Placed (b : SerializedBuffer) (bufferSize : ℕ) : Prop where
  chain : b.extents.IsChain Before
  inside : ∀ x ∈ b.extents, x.1 + x.2 ≤ bufferSize
  aligned : ∀ table ∈ b.tables, table.toNat % 8 = 0

theorem Placed.apart {bufferSize : ℕ} (h : Placed b bufferSize) :
    b.extents.Pairwise fun x y => x.1 + x.2 ≤ y.1 ∨ y.1 + y.2 ≤ x.1 :=
  h.chain.pairwise.imp Or.inl

section Values

variable {n size : UInt64} {l : Layout} {block : MemoryBlock} {bufferSize : ℕ}

/-- The layout that both allocators without keys begin with. -/
structure ValuesLayout (l : Layout) (n size : UInt64) : Prop where
  header : l.valuesHeader = 16
  data : l.valuesData = 48
  offsets : l.valuesOffsets = 48 + alignCeil size sizeofSize
  trailing : l.trailing = l.valuesOffsets + (n + 1) * sizeofSize

/-- Its places in exact arithmetic, where the data take `a` bytes. -/
structure ExactValues (l : Layout) (n : UInt64) (a : ℕ) : Prop where
  data : l.valuesData.toNat = 48
  dataSize : (l.valuesOffsets - l.valuesData).toNat = a
  offsets : l.valuesOffsets.toNat = 48 + a
  trailing : l.trailing.toNat = 48 + a + 8 * (n.toNat + 1)

theorem ValuesLayout.dataSize (hl : ValuesLayout l n size) :
    l.valuesOffsets - l.valuesData = alignCeil size sizeofSize := by
  rw [hl.data, hl.offsets, data_sub]

theorem ValuesLayout.exact (hl : ValuesLayout l n size)
    (hfit : 48 + (alignCeil size sizeofSize).toNat + 8 * (n.toNat + 1) < 2 ^ 64) :
    ExactValues l n (alignCeil size sizeofSize).toNat := by
  have hoffsets : l.valuesOffsets.toNat = 48 + (alignCeil size sizeofSize).toNat := by
    rw [hl.offsets]
    exact toNat_add_small (show 48 + _ < _ by omega)
  refine ⟨by rw [hl.data]; rfl, by rw [hl.dataSize], hoffsets, ?_⟩
  rw [hl.trailing, toNat_offsets _ _ (by omega), hoffsets]

theorem ValuesLayout.exact_of_fit (hl : ValuesLayout l n size)
    (hfit : 48 + M3bp.alignCeil size.toNat 8 + 8 * (n.toNat + 1) < 2 ^ 64) :
    ExactValues l n (M3bp.alignCeil size.toNat 8) := by
  have hbase : (48 : UInt64).toNat = 48 := rfl
  obtain ⟨_, hdata⟩ := toNat_data 48 size (by omega)
  rw [← hdata] at hfit ⊢
  exact hl.exact hfit

theorem placed_valueOnly (hl : ValuesLayout l n size)
    (he : ExactValues l n (M3bp.alignCeil size.toNat 8)) (hregions : b.regions = l.regions .valueOnly) (hrecords : b.maximumRecordCount = some n)
    (hvalues : b.valuesDataSize = some (l.valuesOffsets - l.valuesData))
    (hfit : 48 + M3bp.alignCeil size.toNat 8 + 8 * (n.toNat + 1) ≤ bufferSize) :
    Placed b bufferSize := by
  have hextents := extents_valueOnly hl.header hregions hrecords hvalues
  rw [he.data, he.dataSize, he.offsets] at hextents
  have hmod := alignCeil_mod size.toNat
  refine ⟨?_, ?_, ?_⟩
  · rw [hextents]
    simp only [List.isChain_cons_cons, List.isChain_singleton, Before, and_true]
    omega
  · rw [hextents]
    simp only [List.forall_mem_cons, List.not_mem_nil, false_imp_iff, implies_true, and_true]
    omega
  · have htables : b.tables = [l.valuesOffsets] := by
      unfold SerializedBuffer.tables
      rw [hregions]
      rfl
    rw [htables, List.forall_mem_singleton, he.offsets]
    omega

theorem placed_keyValue (hl : ValuesLayout l n size)
    (he : ExactValues l n (M3bp.alignCeil size.toNat 8)) (hregions : b.regions = l.regions .keyValue) (hrecords : b.maximumRecordCount = some n)
    (hvalues : b.valuesDataSize = some (l.valuesOffsets - l.valuesData))
    (hfit : 48 + M3bp.alignCeil size.toNat 8 + 8 * (n.toNat + 1) + 8 * n.toNat ≤ bufferSize) :
    Placed b bufferSize := by
  have hextents := extents_keyValue hl.header hregions hrecords hvalues
  rw [he.data, he.dataSize, he.offsets, he.trailing] at hextents
  have hmod := alignCeil_mod size.toNat
  refine ⟨?_, ?_, ?_⟩
  · rw [hextents]
    simp only [List.isChain_cons_cons, List.isChain_singleton, Before, and_true]
    omega
  · rw [hextents]
    simp only [List.forall_mem_cons, List.not_mem_nil, false_imp_iff, implies_true, and_true]
    omega
  · have htables : b.tables = [l.valuesOffsets, l.trailing] := by
      unfold SerializedBuffer.tables
      rw [hregions]
      rfl
    rw [htables, List.forall_mem_cons, List.forall_mem_singleton, he.offsets, he.trailing]
    omega

theorem kind_of_regions {kind : Kind} (hregions : b.regions = l.regions kind) : b.kind = kind := by
  unfold SerializedBuffer.kind
  rw [hregions]
  cases kind <;> rfl

/-- With its parts in place, a buffer without keys is what was asked for. -/
theorem serves_of_placed {r : Request} {kind : Kind} (hgrouped : r.kind ≠ .grouped)
    (htold : kind = r.told)
    (hl : ValuesLayout r.layout r.maximumRecordCount r.totalValueSize)
    (he : ExactValues r.layout r.maximumRecordCount (M3bp.alignCeil r.totalValueSize.toNat 8))
    (hblock : block.size.toNat = r.exactSize)
    (hregions : (withValueHeaders block r.layout r.maximumRecordCount).regions =
      r.layout.regions kind)
    (hplaced : Placed (withValueHeaders block r.layout r.maximumRecordCount) r.exactSize) :
    Serves r (withValueHeaders block r.layout r.maximumRecordCount) := by
  obtain ⟨hrecords, hvalues⟩ := values_withValueHeaders hl.header hregions
  refine
    { kind := (kind_of_regions hregions).trans htold
      regions := htold ▸ hregions
      records := hrecords
      values := ⟨_, hvalues, ?_⟩
      keys := ?_
      size := ⟨_, rfl, hblock⟩
      apart := hplaced.apart
      inside := hplaced.inside
      aligned := hplaced.aligned }
  · rw [UInt64.le_iff_toNat_le, he.dataSize]
    exact le_alignCeil _ (by decide)
  · rintro n groups keySize valueSize rfl
    exact absurd rfl hgrouped

theorem serves_valueOnly (hexact : (Request.valueOnly n size).exactSize < 2 ^ 64)
    (hallocate : allocateValueOnlyBuffer memoryManager n size node = .ok b) :
    Serves (.valueOnly n size) b := by
  obtain ⟨block, hblock, rfl⟩ := allocate_eq_ok hallocate
  have hl : ValuesLayout (valueOnlyLayout n size) n size := ⟨rfl, rfl, rfl, rfl⟩
  have he := hl.exact_of_fit hexact
  have hsize : (valueOnlyLayout n size).bufferSize.toNat = (Request.valueOnly n size).exactSize :=
    he.trailing
  have hregions : (withValueHeaders block (valueOnlyLayout n size) n).regions =
      (valueOnlyLayout n size).regions .valueOnly := by
    have hmore : (valueOnlyLayout n size).bufferSize - 16 > 0 := by
      apply sub_pos_of_toNat_lt
      show 16 < (valueOnlyLayout n size).trailing.toNat
      rw [he.trailing]
      omega
    exact (regions_writeValueHeaders block.bytes block.size n rfl rfl rfl).trans
      ((if_pos hmore).trans (if_pos rfl))
  obtain ⟨hrecords, hvalues⟩ := values_withValueHeaders rfl hregions
  exact serves_of_placed (r := .valueOnly n size) nofun rfl hl he
    ((congrArg UInt64.toNat hblock).trans hsize) hregions
    (placed_valueOnly hl he hregions hrecords hvalues (Nat.le_refl _))

theorem serves_keyValue (hexact : (Request.keyValue n size).exactSize < 2 ^ 64)
    (hallocate : allocateKeyValueBuffer memoryManager n size node = .ok b) :
    Serves (.keyValue n size) b := by
  obtain ⟨block, hblock, rfl⟩ := allocate_eq_ok hallocate
  have hl : ValuesLayout (keyValueLayout n size) n size := ⟨rfl, rfl, rfl, rfl⟩
  have hsum : 48 + M3bp.alignCeil size.toNat 8 + 8 * (n.toNat + 1) + 8 * n.toNat < 2 ^ 64 := hexact
  have he := hl.exact_of_fit (by omega)
  have hsize : (keyValueLayout n size).bufferSize.toNat = (Request.keyValue n size).exactSize := by
    have hlengths := toNat_lengths (keyValueLayout n size).trailing n
      (by rw [he.trailing]; exact hexact)
    rw [he.trailing] at hlengths
    exact hlengths
  have hmore : (keyValueLayout n size).bufferSize - 16 > 0 := by
    apply sub_pos_of_toNat_lt
    rw [hsize]
    show 16 < 48 + M3bp.alignCeil size.toNat 8 + 8 * (n.toNat + 1) + 8 * n.toNat
    omega
  have hparsed := (regions_writeValueHeaders block.bytes block.size n hl.header hl.data
    hl.trailing).trans (if_pos hmore)
  by_cases hn : n = 0
  · -- the tail is met, as if there were no keys
    have hmeet : (keyValueLayout n size).trailing = (keyValueLayout n size).bufferSize := by
      show _ = (keyValueLayout n size).trailing + n * sizeofSize
      rw [hn]
      simp
    have hregions : (withValueHeaders block (keyValueLayout n size) n).regions =
        (keyValueLayout n size).regions .valueOnly := hparsed.trans (if_pos hmeet)
    obtain ⟨hrecords, hvalues⟩ := values_withValueHeaders rfl hregions
    exact serves_of_placed (r := .keyValue n size) nofun (if_pos ⟨rfl, hn⟩).symm hl he
      ((congrArg UInt64.toNat hblock).trans hsize) hregions
      (placed_valueOnly hl he hregions hrecords hvalues (Nat.le_add_right _ _))
  · have hmiss : (keyValueLayout n size).trailing ≠ (keyValueLayout n size).bufferSize := by
      intro h
      have hpos : n.toNat ≠ 0 := fun h0 => hn (UInt64.toNat_inj.mp h0)
      rw [← h, he.trailing] at hsize
      have hexact_eq : (Request.keyValue n size).exactSize =
        48 + M3bp.alignCeil size.toNat 8 + 8 * (n.toNat + 1) + 8 * n.toNat := rfl
      omega
    have hregions : (withValueHeaders block (keyValueLayout n size) n).regions =
        (keyValueLayout n size).regions .keyValue := hparsed.trans (if_neg hmiss)
    obtain ⟨hrecords, hvalues⟩ := values_withValueHeaders rfl hregions
    exact serves_of_placed (r := .keyValue n size) nofun (if_neg fun h => hn h.2).symm hl he
      ((congrArg UInt64.toNat hblock).trans hsize) hregions
      (placed_keyValue hl he hregions hrecords hvalues (Nat.le_refl _))

end Values

section Grouped

variable {n groups keySize valueSize : UInt64} {l : Layout} {block : MemoryBlock} {bufferSize : ℕ}

/-- A layout of machine words with the places of a layout in exact arithmetic. -/
structure ExactGrouped (l : Layout) (x : GroupedLayout) : Prop where
  keysData : l.keysData.toNat = x.keysData
  keysDataSize : (l.keysOffsets - l.keysData).toNat = x.keysDataSize
  keysOffsets : l.keysOffsets.toNat = x.keysOffsets
  valuesHeader : l.valuesHeader.toNat = x.valuesHeader
  valuesData : l.valuesData.toNat = x.valuesData
  valuesDataSize : (l.valuesOffsets - l.valuesData).toNat = x.valuesDataSize
  valuesOffsets : l.valuesOffsets.toNat = x.valuesOffsets
  trailing : l.trailing.toNat = x.groupOffsets
  bufferSize : l.bufferSize.toNat = x.bufferSize

/-- Where its size fits, the layout of a buffer with keys does not wrap. -/
theorem exact_groupedLayout
    (hexact : (Request.grouped n groups keySize valueSize).exactSize < 2 ^ 64) :
    ExactGrouped (groupedLayout n groups keySize valueSize)
      (M3bp.allocateGroupedBuffer n.toNat groups.toNat keySize.toNat valueSize.toNat) := by
  let l := groupedLayout n groups keySize valueSize
  let header := 32 + M3bp.alignCeil keySize.toNat 8 + (groups.toNat + 1) * 8
  let data := M3bp.alignCeil (header + 3 * 8) 16
  have hsum : data + M3bp.alignCeil valueSize.toNat 8 + (n.toNat + 1) * 8 +
    (groups.toNat + 1) * 8 < 2 ^ 64 := hexact
  have hdata_le : header + 24 ≤ data := le_alignCeil _ (by decide)
  have hbase : (32 : UInt64).toNat = 32 := rfl
  obtain ⟨hkeysOffsets, hkeys⟩ := toNat_data 32 keySize (by omega)
  rw [hbase] at hkeysOffsets
  have hheader := toNat_offsets (32 + alignCeil keySize sizeofSize) groups (by omega)
  rw [hkeysOffsets] at hheader
  have hheader' : l.valuesHeader.toNat = header := by
    show (32 + alignCeil keySize sizeofSize + (groups + 1) * sizeofSize).toNat = _
    omega
  have hvaluesData : l.valuesData.toNat = data := by
    have h := toNat_valuesData l.valuesHeader (by rw [hheader']; show data < _; omega)
    rw [hheader'] at h
    exact h
  obtain ⟨hvaluesOffsets, hvalues⟩ := toNat_data l.valuesData valueSize (by omega)
  rw [hvaluesData] at hvaluesOffsets
  have hvaluesOffsets : l.valuesOffsets.toNat = data + M3bp.alignCeil valueSize.toNat 8 :=
    hvaluesOffsets
  have htrailing := toNat_offsets l.valuesOffsets n (by omega)
  have htrailing : l.trailing.toNat = l.valuesOffsets.toNat + 8 * (n.toNat + 1) := htrailing
  have hend := toNat_offsets l.trailing groups (by omega)
  have hend : l.bufferSize.toNat = l.trailing.toNat + 8 * (groups.toNat + 1) := hend
  refine
    { keysData := rfl
      keysDataSize := ?_
      keysOffsets := hkeysOffsets
      valuesHeader := hheader'
      valuesData := hvaluesData
      valuesDataSize := ?_
      valuesOffsets := hvaluesOffsets
      trailing := ?_
      bufferSize := ?_ }
  · rw [keysDataSize_allocate]
    exact (congrArg UInt64.toNat (data_sub 32 _)).trans hkeys
  · rw [valuesDataSize_allocate]
    exact (congrArg UInt64.toNat (data_sub l.valuesData _)).trans hvalues
  · show l.trailing.toNat = data + M3bp.alignCeil valueSize.toNat 8 + (n.toNat + 1) * 8
    omega
  · show l.bufferSize.toNat =
      data + M3bp.alignCeil valueSize.toNat 8 + (n.toNat + 1) * 8 + (groups.toNat + 1) * 8
    omega

/-- What the constructor is given by the allocator of buffers with keys. -/
def withGroupedHeaders (block : MemoryBlock) (l : Layout) (n groups : UInt64) : SerializedBuffer :=
  .ofReference (some { block with bytes := writeGroupedHeaders block.bytes l n groups })

/-- The order of the places in exact arithmetic. -/
theorem grouped_places (n groups keySize valueSize : ℕ) :
    let x := M3bp.allocateGroupedBuffer n groups keySize valueSize
    x.keysData = 32 ∧ x.keysOffsets = x.keysData + x.keysDataSize ∧ x.keysDataSize % 8 = 0 ∧
      x.valuesHeader = x.keysOffsets + 8 * (groups + 1) ∧ x.valuesHeader + 24 ≤ x.valuesData ∧
      x.valuesData % 16 = 0 ∧ x.valuesOffsets = x.valuesData + x.valuesDataSize ∧
      x.valuesDataSize % 8 = 0 ∧ x.groupOffsets = x.valuesOffsets + 8 * (n + 1) ∧
      x.bufferSize = x.groupOffsets + 8 * (groups + 1) := by
  intro x
  rw [show x.keysDataSize = _ from keysDataSize_allocate n groups keySize valueSize,
    show x.valuesDataSize = _ from valuesDataSize_allocate n groups keySize valueSize]
  exact ⟨rfl, rfl, alignCeil_mod _, congrArg (x.keysOffsets + ·) (Nat.mul_comm _ _),
    le_alignCeil _ (by decide), Nat.mul_mod_left _ _, rfl, alignCeil_mod _,
    congrArg (x.valuesOffsets + ·) (Nat.mul_comm _ _),
    congrArg (x.groupOffsets + ·) (Nat.mul_comm _ _)⟩

/-- The numbers in the headers of a buffer with keys. -/
theorem values_withGroupedHeaders (hkeys : l.keysHeader = 16)
    (hbehind : 32 ≤ l.valuesHeader.toNat) (hfit : l.valuesHeader.toNat + 24 ≤ 2 ^ 64)
    (hregions : (withGroupedHeaders block l n groups).regions = l.regions .grouped) :
    let b := withGroupedHeaders block l n groups
    b.keysDataSize = some (l.keysOffsets - l.keysData) ∧ b.groupCount = some groups ∧
      b.valuesDataSize = some (l.valuesOffsets - l.valuesData) ∧ b.maximumRecordCount = some n := by
  obtain ⟨_, ⟨hkeysSize, hgroups⟩, hvalues, hcount⟩ :=
    sizeAt_writeGroupedHeaders block.bytes n groups hkeys hbehind hfit
  intro b
  unfold SerializedBuffer.keysDataSize SerializedBuffer.groupCount
    SerializedBuffer.valuesDataSize SerializedBuffer.maximumRecordCount
  have hkeysHeader : b.regions.keysHeader = some 16 := by
    rw [hregions, ← hkeys]
    rfl
  have hvaluesHeader : b.regions.valuesHeader = some l.valuesHeader := by
    rw [hregions]
    rfl
  rw [hkeysHeader, hvaluesHeader]
  refine ⟨congrArg some hkeysSize, congrArg some hgroups, ?_, congrArg some hcount⟩
  show some (sizeAt _ (l.valuesHeader + 0)) = _
  rw [UInt64.add_zero]
  exact congrArg some hvalues

theorem extents_grouped {keys v : UInt64} (hkeys : l.keysHeader = 16)
    (hregions : b.regions = l.regions .grouped) (hkeysSize : b.keysDataSize = some keys)
    (hgroups : b.groupCount = some groups) (hvalues : b.valuesDataSize = some v)
    (hrecords : b.maximumRecordCount = some n) :
    b.extents = [(0, 16), (16, 16), (l.keysData.toNat, keys.toNat),
      (l.keysOffsets.toNat, 8 * (groups.toNat + 1)), (l.valuesHeader.toNat, 24),
      (l.valuesData.toNat, v.toNat), (l.valuesOffsets.toNat, 8 * (n.toNat + 1)),
      (l.trailing.toNat, 8 * (groups.toNat + 1))] := by
  unfold SerializedBuffer.extents
  rw [hregions, hkeysSize, hgroups, hvalues, hrecords]
  simp [Layout.regions, hkeys, SerializedBuffer.extent, SerializedBuffer.number]

theorem serves_grouped
    (hexact : (Request.grouped n groups keySize valueSize).exactSize < 2 ^ 64)
    (hallocate : allocateGroupedBuffer memoryManager n groups keySize valueSize node = .ok b) :
    Serves (.grouped n groups keySize valueSize) b := by
  obtain ⟨block, hblock, rfl⟩ := allocate_eq_ok hallocate
  have he := exact_groupedLayout hexact
  have hplaces := grouped_places n.toNat groups.toNat keySize.toNat valueSize.toNat
  have hsum : (M3bp.allocateGroupedBuffer n.toNat groups.toNat keySize.toNat
    valueSize.toNat).bufferSize < 2 ^ 64 := hexact
  generalize hx : M3bp.allocateGroupedBuffer n.toNat groups.toNat keySize.toNat valueSize.toNat =
    x at he hplaces hsum
  generalize hl : groupedLayout n groups keySize valueSize = l at he hblock
  obtain ⟨hkeysData, hkeysOffsets, hkeysMod, hheader, hdata, hdataMod, hoffsets, hvaluesMod,
    htrailing, hend⟩ := hplaces
  have hbehind : 32 ≤ l.valuesHeader.toNat := by
    rw [he.valuesHeader]
    omega
  have hfit : l.valuesHeader.toNat + 24 ≤ 2 ^ 64 := by
    rw [he.valuesHeader]
    omega
  have hkeysHeader : l.keysHeader = 16 := hl ▸ rfl
  have hregions : (withGroupedHeaders block l n groups).regions = l.regions .grouped := by
    have hsize : l.bufferSize - l.valuesHeader > 0 := by
      apply sub_pos_of_toNat_lt
      rw [he.valuesHeader, he.bufferSize]
      omega
    have hmore : l.trailing ≠ l.bufferSize := by
      intro h
      have hnat := congrArg UInt64.toNat h
      rw [he.trailing, he.bufferSize] at hnat
      omega
    exact regions_writeGroupedHeaders block.bytes block.size n groups hkeysHeader (hl ▸ rfl)
      (hl ▸ rfl) hbehind hfit (hl ▸ rfl) hsize (hl ▸ rfl) hmore
  obtain ⟨hkeysSize, hgroups, hvalues, hrecords⟩ :=
    values_withGroupedHeaders hkeysHeader hbehind hfit hregions
  have hextents := extents_grouped hkeysHeader hregions hkeysSize hgroups hvalues hrecords
  rw [he.keysData, he.keysDataSize, he.keysOffsets, he.valuesHeader, he.valuesData,
    he.valuesDataSize, he.valuesOffsets, he.trailing] at hextents
  have htables : (withGroupedHeaders block l n groups).tables =
      [l.keysOffsets, l.valuesOffsets, l.trailing] := by
    unfold SerializedBuffer.tables
    rw [hregions]
    rfl
  have hplaced : Placed (withGroupedHeaders block l n groups) x.bufferSize := by
    refine ⟨?_, ?_, ?_⟩
    · rw [hextents]
      simp only [List.isChain_cons_cons, List.isChain_singleton, Before, and_true]
      omega
    · rw [hextents]
      simp only [List.forall_mem_cons, List.not_mem_nil, false_imp_iff, implies_true, and_true]
      omega
    · rw [htables]
      simp only [List.forall_mem_cons, List.not_mem_nil, false_imp_iff, implies_true, and_true]
      rw [he.keysOffsets, he.valuesOffsets, he.trailing]
      omega
  have htold : (Request.grouped n groups keySize valueSize).told = .grouped :=
    if_neg fun h => nomatch h.1
  have hsize : (Request.grouped n groups keySize valueSize).exactSize = x.bufferSize :=
    congrArg GroupedLayout.bufferSize hx
  show Serves _ (withGroupedHeaders block l n groups)
  refine
    { kind := (kind_of_regions hregions).trans htold.symm
      regions := ?_
      records := hrecords
      values := ⟨_, hvalues, ?_⟩
      keys := ?_
      size := ⟨_, rfl, ?_⟩
      apart := hplaced.apart
      inside := hsize ▸ hplaced.inside
      aligned := hplaced.aligned }
  · rw [htold, hregions, ← hl]
    rfl
  · rw [UInt64.le_iff_toNat_le, he.valuesDataSize, ← hx, valuesDataSize_allocate]
    exact le_alignCeil _ (by decide)
  · intro n' groups' keySize' valueSize' heq
    cases heq
    refine ⟨hgroups, _, hkeysSize, ?_⟩
    rw [UInt64.le_iff_toNat_le, he.keysDataSize, ← hx, keysDataSize_allocate]
    exact le_alignCeil _ (by decide)
  · rw [hsize, ← he.bufferSize]
    exact congrArg UInt64.toNat hblock

end Grouped

end Serve

/-- Whatever is allocated at a size that fits is found again by the constructor. A buffer with
key lengths is told from one without where it has room for a record. -/
theorem serialized_round_trip {ε : Type} (r : Request) (memoryManager : MemoryManager ε)
    (node : UInt64) (hexact : r.exactSize < 2 ^ 64) {b : SerializedBuffer}
    (hallocate : r.allocate memoryManager node = .ok b) :
    Serves r b ∧ (r.maximumRecordCount ≠ 0 → b.kind = r.kind) := by
  have hserves : Serves r b := by
    cases r with
    | valueOnly n size => exact serves_valueOnly hexact hallocate
    | keyValue n size => exact serves_keyValue hexact hallocate
    | grouped n groups keySize valueSize => exact serves_grouped hexact hallocate
  refine ⟨hserves, fun hn => ?_⟩
  rw [hserves.kind]
  exact if_neg fun h => hn h.2

/-- A memory manager that always has room, with zeroed blocks. -/
def zeroMemory : MemoryManager Unit := { allocate := fun _ _ => .ok fun _ => 0 }

theorem serialized_round_trip_keyValue : ∃ b,
    (Request.keyValue 2 5).allocate zeroMemory targetNodeUnspecified = .ok b ∧
      b.kind = .keyValue :=
  ⟨_, rfl, (serialized_round_trip (.keyValue 2 5) zeroMemory targetNodeUnspecified (by decide)
    rfl).2 (by decide)⟩

end M3bp.BufferLayout
