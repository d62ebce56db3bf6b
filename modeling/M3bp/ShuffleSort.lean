import M3bp.ShufflePartition

/-!
The second half of a shuffle. `sort_records` collects pointers to the records of
its partition in all buffers, sorts them and copies keys and values to a grouped
buffer, in which a record that is not marked as equal to its left neighbour
starts a new group.
-/
namespace M3bp

/-- The parts of a grouped `SerializedBuffer`; each data region has addresses of
its own. -/
structure GroupedBuffer where
  groupCount : ℕ
  recordCount : ℕ
  keysData : ByteMemory
  keysOffsets : ℕ → ℕ
  valuesData : ByteMemory
  valuesOffsets : ℕ → ℕ
  groupOffsets : ℕ → ℕ

namespace GroupedBuffer

def groupKey (b : GroupedBuffer) (g : ℕ) : List UInt8 :=
  b.keysData.read (b.keysOffsets g) (b.keysOffsets (g + 1) - b.keysOffsets g)

/-- The bytes of all values of a group. -/
def groupValues (b : GroupedBuffer) (g : ℕ) : List UInt8 :=
  b.valuesData.read (b.groupOffsets g) (b.groupOffsets (g + 1) - b.groupOffsets g)

end GroupedBuffer

namespace Shuffle

def emptyBuffer : GroupedBuffer :=
  { groupCount := 0
    recordCount := 0
    keysData := fun _ => 0
    keysOffsets := fun _ => 0
    valuesData := fun _ => 0
    valuesOffsets := fun _ => 0
    groupOffsets := fun _ => 0 }

/-- The loop `while(data != data_end)` over the records of a partition. -/
def scanRecords (mem : ByteMemory) (dataEnd : ℕ) : ℕ → ℕ → Option (List ℕ)
  | 0, _ => none
  | fuel + 1, data =>
    if data = dataEnd then
      some []
    else do
      let rest ← scanRecords mem dataEnd fuel (data + (mem.readWord data + 2 * 8))
      some (data :: rest)

/-- The pointers to the records of a partition in the buffer at `base`. -/
def partitionPointers (mem : ByteMemory) (partitionCount partition base : ℕ) : Option (List ℕ) :=
  let data := dataBase partitionCount base
  let first := mem.readWord (base + 8 * partition)
  let last := mem.readWord (base + 8 * (partition + 1))
  scanRecords mem (data + last) (last - first + 1) (data + first)

/-- `front_pointers` before the sort. -/
def collectPointers (mem : ByteMemory) (partitionCount partition : ℕ) : List ℕ → Option (List ℕ)
  | [] => some []
  | base :: bases => do
    let pointers ← partitionPointers mem partitionCount partition base
    let rest ← collectPointers mem partitionCount partition bases
    some (pointers ++ rest)

/-- The arrays that `msd_radix_sort` is called with. -/
def sortInput (pointers : List ℕ) : Slices ℕ :=
  { equalsToLeft := List.replicate pointers.length false
    primary := pointers.map fun ptr => { cache := 0, pointer := ptr }
    work := List.replicate pointers.length { cache := 0, pointer := 0 } }

def maxKeyLength (mem : ByteMemory) (pointers : List ℕ) : ℕ :=
  pointers.foldr (fun ptr n => max (KeyBlock.getKeyLength mem ptr) n) 0

/-- `front_pointers` and `equals_to_left` after the sort. -/
def sortPointers (mem : ByteMemory) (pointers : List ℕ) : Option (List (ℕ × Bool)) := do
  let s ← RadixSort.msdRadixSort (KeyBlock.view mem) (8 * maxKeyLength mem pointers + 1) 0 false
    (sortInput pointers)
  some ((s.primary.map Entry.pointer).zip s.equalsToLeft)

/-- The first pass over the sorted records counts the groups. -/
def countGroups (sorted : List (ℕ × Bool)) : ℕ := sorted.countP fun r => !r.2

/-- The indices `i` and `j` of the second pass, and what it has written. -/
structure OutputState where
  i : ℕ
  j : ℕ
  buffer : GroupedBuffer

/-- The key of a record that starts a group. -/
def outputKey (mem : ByteMemory) (s : OutputState) (ptr : ℕ) : OutputState :=
  let b := s.buffer
  let keyLength := KeyBlock.getKeyLength mem ptr
  let keyOffset := b.keysOffsets s.j
  let buffer :=
    { b with
      keysData := b.keysData.write keyOffset (mem.read (KeyBlock.getKeyPointer ptr) keyLength)
      keysOffsets := Function.update b.keysOffsets (s.j + 1) (keyOffset + keyLength)
      groupOffsets := Function.update b.groupOffsets (s.j + 1) (b.groupOffsets s.j) }
  { s with j := s.j + 1, buffer := buffer }

def outputValue (mem : ByteMemory) (s : OutputState) (ptr : ℕ) : OutputState :=
  let b := s.buffer
  let keyLength := KeyBlock.getKeyLength mem ptr
  let valueLength := KeyBlock.getRecordLength mem ptr - keyLength
  let valuePtr := KeyBlock.getKeyPointer ptr + keyLength
  let valueOffset := b.valuesOffsets s.i
  let buffer :=
    { b with
      valuesData := b.valuesData.write valueOffset (mem.read valuePtr valueLength)
      valuesOffsets := Function.update b.valuesOffsets (s.i + 1) (valueOffset + valueLength)
      groupOffsets := Function.update b.groupOffsets s.j (b.groupOffsets s.j + valueLength) }
  { s with i := s.i + 1, buffer := buffer }

def outputRecord (mem : ByteMemory) (s : OutputState) (r : ℕ × Bool) : OutputState :=
  outputValue mem (if r.2 then s else outputKey mem s r.1) r.1

/-- The second pass, into the freshly allocated `dst`. -/
def writeGroups (mem : ByteMemory) (sorted : List (ℕ × Bool)) (dst : GroupedBuffer) :
    GroupedBuffer :=
  let start :=
    { dst with
      groupCount := countGroups sorted
      keysOffsets := Function.update dst.keysOffsets 0 0
      valuesOffsets := Function.update dst.valuesOffsets 0 0
      groupOffsets := Function.update dst.groupOffsets 0 0 }
  let s := sorted.foldl (outputRecord mem) { i := 0, j := 0, buffer := start }
  { s.buffer with recordCount := sorted.length }

/-- The local arrays after the sort and the buffer that is handed on. -/
structure SortedPartition where
  sorted : List (ℕ × Bool)
  buffer : GroupedBuffer

def sortRecords (mem : ByteMemory) (partitionCount : ℕ) (bases : List ℕ) (partition : ℕ)
    (dst : GroupedBuffer) : Option SortedPartition := do
  let pointers ← collectPointers mem partitionCount partition bases
  let sorted ← sortPointers mem pointers
  some { sorted := sorted, buffer := writeGroups mem sorted dst }

end Shuffle

end M3bp
