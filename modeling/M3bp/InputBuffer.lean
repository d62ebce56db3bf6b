import M3bp.ShuffleSort

/-!
What a processor sees of a fragment. An input buffer reads the counts, the tables
of offsets and, for the two sizes, the last entries of the tables.
-/
namespace M3bp

/-- The parts of a `SerializedBuffer` without keys. -/
structure ValueBuffer where
  recordCount : ℕ
  valuesData : ByteMemory
  valuesOffsets : ℕ → ℕ

inductive SerializedBuffer
  | grouped (b : GroupedBuffer)
  | values (b : ValueBuffer)

/-- An `InputBufferImpl`, which is bound to a fragment or not. -/
structure InputBuffer where
  serialized : Option SerializedBuffer

namespace InputBuffer

def bind (fragment : SerializedBuffer) : InputBuffer := { serialized := some fragment }

def keyBufferSize (view : InputBuffer) : ℕ :=
  match view.serialized with
  | none => 0
  | some (.grouped b) => b.keysOffsets b.groupCount
  | some (.values b) => b.valuesOffsets b.recordCount

def valueBufferSize (view : InputBuffer) : ℕ :=
  match view.serialized with
  | some (.grouped b) => b.valuesOffsets b.recordCount
  | _ => 0

def recordCount (view : InputBuffer) : ℕ :=
  match view.serialized with
  | none => 0
  | some (.grouped b) => b.groupCount
  | some (.values b) => b.recordCount

def keyBuffer (view : InputBuffer) : Option ByteMemory :=
  match view.serialized with
  | none => none
  | some (.grouped b) => some b.keysData
  | some (.values b) => some b.valuesData

def keyOffsetTable (view : InputBuffer) : ℕ → ℕ :=
  match view.serialized with
  | none => fun _ => 0
  | some (.grouped b) => b.keysOffsets
  | some (.values b) => b.valuesOffsets

def valueBuffer (view : InputBuffer) : Option ByteMemory :=
  match view.serialized with
  | some (.grouped b) => some b.valuesData
  | _ => none

def valueOffsetTable (view : InputBuffer) : ℕ → ℕ :=
  match view.serialized with
  | some (.grouped b) => b.groupOffsets
  | _ => fun _ => 0

/-- The counts, the sizes and the tables up to the count are the same. -/
structure SameTables (view view' : InputBuffer) : Prop where
  recordCount : view.recordCount = view'.recordCount
  keyBufferSize : view.keyBufferSize = view'.keyBufferSize
  valueBufferSize : view.valueBufferSize = view'.valueBufferSize
  keyOffsetTable : ∀ i ≤ view.recordCount, view.keyOffsetTable i = view'.keyOffsetTable i
  valueOffsetTable : ∀ i ≤ view.recordCount, view.valueOffsetTable i = view'.valueOffsetTable i

end InputBuffer

end M3bp
