import M3bp.HashFunction
import M3bp.KeyBlock

/-!
The first half of a shuffle. `partition_fragment` counts the records of each
partition, lays out the partitions of a shuffle buffer one after the other and
copies every record to the free end of its partition.
-/
namespace M3bp

structure Record where
  key : List UInt8
  value : List UInt8
  deriving DecidableEq, Repr

/-- What is read of a key/value fragment. A processor writes nondecreasing
offsets and key lengths that do not exceed the record, and the buffer made of
the fragment fits into memory. -/
structure KeyValueFragment where
  recordCount : ℕ
  valuesData : ByteMemory
  valuesOffsets : ℕ → ℕ
  keyLengths : ℕ → ℕ
  offsets_mono : ∀ i < recordCount, valuesOffsets i ≤ valuesOffsets (i + 1)
  keyLengths_le : ∀ i < recordCount, keyLengths i ≤ valuesOffsets (i + 1) - valuesOffsets i
  fits : valuesOffsets recordCount - valuesOffsets 0 + 16 * recordCount < 2 ^ 64

namespace KeyValueFragment

def recordLength (f : KeyValueFragment) (i : ℕ) : ℕ := f.valuesOffsets (i + 1) - f.valuesOffsets i

def recordBytes (f : KeyValueFragment) (i : ℕ) : List UInt8 :=
  f.valuesData.read (f.valuesOffsets i) (f.recordLength i)

def record (f : KeyValueFragment) (i : ℕ) : Record :=
  { key := (f.recordBytes i).take (f.keyLengths i)
    value := (f.recordBytes i).drop (f.keyLengths i) }

def records (f : KeyValueFragment) : List Record := (List.range f.recordCount).map f.record

end KeyValueFragment

namespace Shuffle

/-- The partition of record `i`. -/
def partitionOf (partitionCount : ℕ) (f : KeyValueFragment) (i : ℕ) : ℕ :=
  HashFunction.hashByteSequence (f.valuesData.read (f.valuesOffsets i) (f.keyLengths i))
    partitionCount

structure Counts where
  recordCounts : ℕ → ℕ
  sizeSums : ℕ → ℕ

def Counts.zero : Counts := { recordCounts := fun _ => 0, sizeSums := fun _ => 0 }

def Counts.add (c : Counts) (p size : ℕ) : Counts :=
  { recordCounts := Function.update c.recordCounts p (c.recordCounts p + 1)
    sizeSums := Function.update c.sizeSums p (c.sizeSums p + size) }

/-- The first loop. -/
def countRecords (partitionCount : ℕ) (f : KeyValueFragment) : Counts :=
  (List.range f.recordCount).foldl
    (fun c i => c.add (partitionOf partitionCount f i) (f.recordLength i)) Counts.zero

/-- `dst_offsets`. -/
def dstOffsets (c : Counts) : ℕ → ℕ
  | 0 => 0
  | i + 1 => dstOffsets c i + c.sizeSums i + 2 * 8 * c.recordCounts i

/-- The data of a buffer lie behind its table of offsets. -/
def dataBase (partitionCount base : ℕ) : ℕ := base + 8 * (partitionCount + 1)

/-- The second loop, as it shows in memory. -/
def writeOffsets (partitionCount : ℕ) (c : Counts) (base : ℕ) (mem : ByteMemory) : ByteMemory :=
  (List.range (partitionCount + 1)).foldl
    (fun mem i => mem.write (base + 8 * i) (ByteMemory.wordBytes (dstOffsets c i))) mem

/-- The destination of the third loop: the memory and `cur_offsets`. -/
structure Destination where
  mem : ByteMemory
  curOffsets : ℕ → ℕ

def copyRecord (partitionCount : ℕ) (f : KeyValueFragment) (data : ℕ) (d : Destination) (i : ℕ) :
    Destination :=
  let p := partitionOf partitionCount f i
  let totalLength := f.recordLength i + 2 * 8
  let ptr := data + d.curOffsets p
  let mem := d.mem.write ptr (ByteMemory.wordBytes (f.recordLength i))
  let mem := mem.write (ptr + 8) (ByteMemory.wordBytes (f.keyLengths i))
  { mem := mem.write (ptr + 16) (f.recordBytes i)
    curOffsets := Function.update d.curOffsets p (d.curOffsets p + totalLength) }

/-- The memory after `partition_fragment` has filled the buffer at `base`. -/
def partitionFragment (partitionCount : ℕ) (f : KeyValueFragment) (base : ℕ) (mem : ByteMemory) :
    ByteMemory :=
  let c := countRecords partitionCount f
  let start : Destination :=
    { mem := writeOffsets partitionCount c base mem, curOffsets := dstOffsets c }
  ((List.range f.recordCount).foldl
    (copyRecord partitionCount f (dataBase partitionCount base)) start).mem

/-- The number of bytes that are allocated for the buffer. -/
def bufferSize (partitionCount : ℕ) (f : KeyValueFragment) : ℕ :=
  8 * (partitionCount + 1) +
    (f.valuesOffsets f.recordCount - f.valuesOffsets 0 + 2 * 8 * f.recordCount)

end Shuffle

end M3bp
