import M3bp.ByteMemory

/-!
The layout of a `SerializedBuffer`. Three allocators lay out the headers, the data and the
tables one behind the other, each with its own running size, and write the sizes and counts
into the headers. The constructor finds the parts again from the headers alone. All of this
is arithmetic on `size_type`, which wraps. Addresses are relative to the allocated block.
-/
namespace M3bp.BufferLayout

/-- `align_ceil` as the code computes it. -/
def alignCeil (x align : UInt64) : UInt64 := (x + align - 1) &&& ~~~(align - 1)

/-- `alignof(max_align_t)`. -/
def maxAlign : UInt64 := 16

/-- `sizeof(size_type)`. -/
def sizeofSize : UInt64 := 8

/-- `sizeof` of the three headers, which are made of fields of `size_type`. -/
def sizeofBufferHeader : UInt64 := 16

def sizeofKeysHeader : UInt64 := 16

def sizeofValuesHeader : UInt64 := 24

/-- `TARGET_NODE_UNSPECIFIED`. -/
def targetNodeUnspecified : UInt64 := -1

/-- A `size_type` in memory. -/
def sizeAt (bytes : ByteMemory) (offset : UInt64) : UInt64 :=
  UInt64.ofNat (bytes.readWord offset.toNat)

def setSize (bytes : ByteMemory) (offset value : UInt64) : ByteMemory :=
  bytes.write offset.toNat (ByteMemory.wordBytes value.toNat)

/-- The block behind a locked reference. -/
structure MemoryBlock where
  size : UInt64
  bytes : ByteMemory

/-- What `MemoryManager::allocate` does with a size and a node: it throws, or it returns a
block of that size with unknown contents. -/
structure MemoryManager (ε : Type) where
  allocate : UInt64 → Option UInt64 → Except ε ByteMemory

variable {ε : Type}

def MemoryManager.lockedBlock (memoryManager : MemoryManager ε) (bufferSize targetNode : UInt64) :
    Except ε MemoryBlock := do
  let bytes ←
    if targetNode = targetNodeUnspecified then memoryManager.allocate bufferSize none
    else memoryManager.allocate bufferSize (some targetNode)
  return { size := bufferSize, bytes := bytes }

/-- Where the parts of a buffer begin, `none` for a null pointer. -/
structure Regions where
  commonHeader : Option UInt64 := none
  keysHeader : Option UInt64 := none
  keysData : Option UInt64 := none
  keysOffsets : Option UInt64 := none
  valuesHeader : Option UInt64 := none
  valuesData : Option UInt64 := none
  valuesOffsets : Option UInt64 := none
  valuesKeyLengths : Option UInt64 := none
  valuesGroupOffsets : Option UInt64 := none
  deriving DecidableEq, Repr

structure SerializedBuffer where
  memoryObject : Option MemoryBlock
  regions : Regions

namespace SerializedBuffer

/-- The part of the constructor on the keys, with the cursor behind them. -/
def parseKeys (bytes : ByteMemory) (cur : UInt64) (regions : Regions) : Regions × UInt64 :=
  if sizeAt bytes 0 > 0 then
    let keysHeader := cur
    let keysData := alignCeil (cur + sizeofKeysHeader) maxAlign
    let keysOffsets := keysData + sizeAt bytes keysHeader
    ({ regions with
        keysHeader := some keysHeader
        keysData := some keysData
        keysOffsets := some keysOffsets },
      keysOffsets + sizeofSize * (sizeAt bytes (keysHeader + 8) + 1))
  else (regions, cur)

/-- The part on the values. What follows the offsets is told from where the tail is and from
whether there are keys. -/
def parseValues (bytes : ByteMemory) (cur : UInt64) (regions : Regions) : Regions :=
  let tailOffset := sizeofBufferHeader + sizeAt bytes 0 + sizeAt bytes 8
  if sizeAt bytes 8 > 0 then
    let valuesHeader := cur
    let valuesData := alignCeil (cur + sizeofValuesHeader) maxAlign
    let valuesOffsets := valuesData + sizeAt bytes valuesHeader
    let cur := valuesOffsets + sizeofSize * (sizeAt bytes (valuesHeader + 8) + 1)
    let regions :=
      { regions with
        valuesHeader := some valuesHeader
        valuesData := some valuesData
        valuesOffsets := some valuesOffsets }
    if cur = tailOffset then regions
    else if sizeAt bytes 0 = 0 then { regions with valuesKeyLengths := some cur }
    else { regions with valuesGroupOffsets := some cur }
  else regions

/-- `SerializedBuffer(LockedMemoryReference)`. -/
def ofReference : Option MemoryBlock → SerializedBuffer
  | none => { memoryObject := none, regions := {} }
  | some block =>
    let keys := parseKeys block.bytes sizeofBufferHeader { commonHeader := some 0 }
    { memoryObject := some block, regions := parseValues block.bytes keys.2 keys.1 }

variable (b : SerializedBuffer)

/-- A field of a header; a null header has none. -/
def field (header : Option UInt64) (offset : UInt64) : Option UInt64 :=
  match b.memoryObject, header with
  | some block, some header => some (sizeAt block.bytes (header + offset))
  | _, _ => none

def keysDataSize : Option UInt64 := b.field b.regions.keysHeader 0

def groupCount : Option UInt64 := b.field b.regions.keysHeader 8

def valuesDataSize : Option UInt64 := b.field b.regions.valuesHeader 0

def maximumRecordCount : Option UInt64 := b.field b.regions.valuesHeader 8

def recordCount : Option UInt64 := b.field b.regions.valuesHeader 16

end SerializedBuffer

def writeCommonHeader (bytes : ByteMemory) (keyBufferSize valueBufferSize : UInt64) : ByteMemory :=
  setSize (setSize bytes 0 keyBufferSize) 8 valueBufferSize

def writeKeysHeader (bytes : ByteMemory) (header dataBufferSize recordCount : UInt64) :
    ByteMemory :=
  setSize (setSize bytes header dataBufferSize) (header + 8) recordCount

def writeValuesHeader (bytes : ByteMemory)
    (header dataBufferSize maximumRecordCount actualRecordCount : UInt64) : ByteMemory :=
  setSize (setSize (setSize bytes header dataBufferSize) (header + 8) maximumRecordCount)
    (header + 16) actualRecordCount

inductive Kind
  | valueOnly
  | keyValue
  | grouped
  deriving DecidableEq, Repr

/-- The places that an allocator computes, `trailing` behind the offsets of the values, and
the size that it asks for. -/
structure Layout where
  keysHeader : UInt64 := 0
  keysData : UInt64 := 0
  keysOffsets : UInt64 := 0
  valuesHeader : UInt64
  valuesData : UInt64
  valuesOffsets : UInt64
  trailing : UInt64
  bufferSize : UInt64
  deriving DecidableEq, Repr

def Layout.regions (l : Layout) : Kind → Regions
  | .valueOnly =>
    { commonHeader := some 0
      valuesHeader := some l.valuesHeader
      valuesData := some l.valuesData
      valuesOffsets := some l.valuesOffsets }
  | .keyValue =>
    { commonHeader := some 0
      valuesHeader := some l.valuesHeader
      valuesData := some l.valuesData
      valuesOffsets := some l.valuesOffsets
      valuesKeyLengths := some l.trailing }
  | .grouped =>
    { commonHeader := some 0
      keysHeader := some l.keysHeader
      keysData := some l.keysData
      keysOffsets := some l.keysOffsets
      valuesHeader := some l.valuesHeader
      valuesData := some l.valuesData
      valuesOffsets := some l.valuesOffsets
      valuesGroupOffsets := some l.trailing }

def valueOnlyLayout (maximumRecordCount totalRecordSize : UInt64) : Layout :=
  let valuesHeader := sizeofBufferHeader
  let valuesData := alignCeil (valuesHeader + sizeofValuesHeader) maxAlign
  let valuesOffsets := valuesData + alignCeil totalRecordSize sizeofSize
  let bufferSize := valuesOffsets + (maximumRecordCount + 1) * sizeofSize
  { valuesHeader := valuesHeader
    valuesData := valuesData
    valuesOffsets := valuesOffsets
    trailing := bufferSize
    bufferSize := bufferSize }

/-- The key lengths stand behind the offsets. -/
def keyValueLayout (maximumRecordCount totalRecordSize : UInt64) : Layout :=
  let valuesHeader := sizeofBufferHeader
  let valuesData := alignCeil (valuesHeader + sizeofValuesHeader) maxAlign
  let valuesOffsets := valuesData + alignCeil totalRecordSize sizeofSize
  let trailing := valuesOffsets + (maximumRecordCount + 1) * sizeofSize
  { valuesHeader := valuesHeader
    valuesData := valuesData
    valuesOffsets := valuesOffsets
    trailing := trailing
    bufferSize := trailing + maximumRecordCount * sizeofSize }

/-- The group offsets stand behind the offsets of the values. -/
def groupedLayout (maximumRecordCount maximumGroupCount totalKeySize totalValueSize : UInt64) :
    Layout :=
  let keysHeader := sizeofBufferHeader
  let keysData := alignCeil (keysHeader + sizeofKeysHeader) maxAlign
  let keysOffsets := keysData + alignCeil totalKeySize sizeofSize
  let valuesHeader := keysOffsets + (maximumGroupCount + 1) * sizeofSize
  let valuesData := alignCeil (valuesHeader + sizeofValuesHeader) maxAlign
  let valuesOffsets := valuesData + alignCeil totalValueSize sizeofSize
  let trailing := valuesOffsets + (maximumRecordCount + 1) * sizeofSize
  { keysHeader := keysHeader
    keysData := keysData
    keysOffsets := keysOffsets
    valuesHeader := valuesHeader
    valuesData := valuesData
    valuesOffsets := valuesOffsets
    trailing := trailing
    bufferSize := trailing + (maximumGroupCount + 1) * sizeofSize }

/-- The headers of a buffer without keys. -/
def writeValueHeaders (bytes : ByteMemory) (l : Layout) (maximumRecordCount : UInt64) :
    ByteMemory :=
  writeValuesHeader (writeCommonHeader bytes 0 (l.bufferSize - l.valuesHeader)) l.valuesHeader
    (l.valuesOffsets - l.valuesData) maximumRecordCount 0

def allocateValueOnlyBuffer (memoryManager : MemoryManager ε)
    (maximumRecordCount totalRecordSize targetNode : UInt64) : Except ε SerializedBuffer := do
  let l := valueOnlyLayout maximumRecordCount totalRecordSize
  let block ← memoryManager.lockedBlock l.bufferSize targetNode
  return .ofReference
    (some { block with bytes := writeValueHeaders block.bytes l maximumRecordCount })

def allocateKeyValueBuffer (memoryManager : MemoryManager ε)
    (maximumRecordCount totalRecordSize targetNode : UInt64) : Except ε SerializedBuffer := do
  let l := keyValueLayout maximumRecordCount totalRecordSize
  let block ← memoryManager.lockedBlock l.bufferSize targetNode
  return .ofReference
    (some { block with bytes := writeValueHeaders block.bytes l maximumRecordCount })

def writeGroupedHeaders (bytes : ByteMemory) (l : Layout)
    (maximumRecordCount maximumGroupCount : UInt64) : ByteMemory :=
  let bytes := writeCommonHeader bytes (l.valuesHeader - l.keysHeader)
    (l.bufferSize - l.valuesHeader)
  let bytes := writeKeysHeader bytes l.keysHeader (l.keysOffsets - l.keysData) maximumGroupCount
  writeValuesHeader bytes l.valuesHeader (l.valuesOffsets - l.valuesData) maximumRecordCount 0

def allocateGroupedBuffer (memoryManager : MemoryManager ε)
    (maximumRecordCount maximumGroupCount totalKeySize totalValueSize targetNode : UInt64) :
    Except ε SerializedBuffer := do
  let l := groupedLayout maximumRecordCount maximumGroupCount totalKeySize totalValueSize
  let block ← memoryManager.lockedBlock l.bufferSize targetNode
  return .ofReference
    (some
      { block with
        bytes := writeGroupedHeaders block.bytes l maximumRecordCount maximumGroupCount })

end M3bp.BufferLayout
