import M3bp.ByteMemory

/-!
The profile event logger. A call writes one record, a tag and 64-bit fields, into the
current block; a block that has no room left is chained behind a new one. The JSON dump
walks through the records of each block by their tags.
-/
namespace M3bp.ProfileEventLogger

/-- The kinds of events, in the order of `EventMagic`. -/
inductive EventMagic
  | createPhysicalTask
  | physicalDependency
  | beginPreparation
  | endPreparation
  | beginExecution
  | endExecution
  | allocateMemory
  | releaseMemory
  | lockMemory
  | unlockMemory
  | magicKinds
  deriving DecidableEq, Repr

namespace EventMagic

def number : EventMagic → ℕ
  | createPhysicalTask => 0
  | physicalDependency => 1
  | beginPreparation => 2
  | endPreparation => 3
  | beginExecution => 4
  | endExecution => 5
  | allocateMemory => 6
  | releaseMemory => 7
  | lockMemory => 8
  | unlockMemory => 9
  | magicKinds => 10

/-- `sizeof(EventMagic)`; the enumeration is an `int`. -/
def size : ℕ := 4

def bytes (magic : EventMagic) : List UInt8 :=
  (List.range size).map fun i => UInt8.ofNat (magic.number / 256 ^ i)

end EventMagic

/-- `BinaryLogger<MAGIC, TYPE_NAME, Fields...>`. The type of every field has 64 bits. -/
structure BinaryLogger where
  magic : EventMagic
  typeName : String
  fields : List String
  deriving DecidableEq, Repr

namespace BinaryLoggerImpl

def size : List String → ℕ
  | [] => 0
  | _ :: rest => 8 + size rest

def write (mem : ByteMemory) (dst : ℕ) : List String → List UInt64 → ByteMemory
  | _ :: rest, x :: args =>
    write (mem.write dst (ByteMemory.wordBytes x.toNat)) (dst + 8) rest args
  | _, _ => mem

end BinaryLoggerImpl

namespace BinaryLogger

def size (logger : BinaryLogger) : ℕ := EventMagic.size + BinaryLoggerImpl.size logger.fields

def write (logger : BinaryLogger) (mem : ByteMemory) (dst : ℕ) (args : List UInt64) :
    ByteMemory :=
  BinaryLoggerImpl.write (mem.write dst logger.magic.bytes) (dst + EventMagic.size)
    logger.fields args

end BinaryLogger

def createPhysicalTaskLogger : BinaryLogger :=
  { magic := .createPhysicalTask
    typeName := "create_physical_task"
    fields := ["timestamp", "physical_id", "logical_id"] }

def physicalDependencyLogger : BinaryLogger :=
  { magic := .physicalDependency
    typeName := "physical_dependency"
    fields := ["timestamp", "producer", "consumer"] }

def beginPreparationLogger : BinaryLogger :=
  { magic := .beginPreparation
    typeName := "begin_preparation"
    fields := ["timestamp", "task_id"] }

def endPreparationLogger : BinaryLogger :=
  { magic := .endPreparation
    typeName := "end_preparation"
    fields := ["timestamp", "task_id"] }

def beginExecutionLogger : BinaryLogger :=
  { magic := .beginExecution
    typeName := "begin_execution"
    fields := ["timestamp", "task_id"] }

def endExecutionLogger : BinaryLogger :=
  { magic := .endExecution
    typeName := "end_execution"
    fields := ["timestamp", "task_id"] }

def allocateMemoryLogger : BinaryLogger :=
  { magic := .allocateMemory
    typeName := "allocate_memory"
    fields := ["timestamp", "object_id", "size", "numa_node"] }

def releaseMemoryLogger : BinaryLogger :=
  { magic := .releaseMemory
    typeName := "release_memory"
    fields := ["timestamp", "object_id"] }

def lockMemoryLogger : BinaryLogger :=
  { magic := .lockMemory
    typeName := "lock_memory"
    fields := ["timestamp", "object_id"] }

def unlockMemoryLogger : BinaryLogger :=
  { magic := .unlockMemory
    typeName := "unlock_memory"
    fields := ["timestamp", "object_id"] }

/-- `LOG_BLOCK_SIZE`. -/
def logBlockSize : ℕ := 2 ^ 20

structure LogBlock where
  writtenBytes : ℕ
  logBuffer : ByteMemory
  written_le : writtenBytes ≤ logBlockSize

namespace LogBlock

/-- A new block. Its buffer is not initialized. -/
def new (raw : ByteMemory) : LogBlock :=
  { writtenBytes := 0, logBuffer := raw, written_le := Nat.zero_le _ }

/-- `LogBlock::write`, with `none` where it returns false. -/
def write (b : LogBlock) (logger : BinaryLogger) (args : List UInt64) : Option LogBlock :=
  let remains := logBlockSize - b.writtenBytes
  if hsize : remains < logger.size then none
  else
    some
      { writtenBytes := b.writtenBytes + logger.size
        logBuffer := logger.write b.logBuffer b.writtenBytes args
        written_le := by
          have hle := b.written_le
          omega }

/-- Reading past the written bytes fails. -/
def readBytes (b : LogBlock) (src n : ℕ) : Option (List UInt8) :=
  if src + n ≤ b.writtenBytes then some (b.logBuffer.read src n) else none

end LogBlock

/-- `m_current_block` with its `m_prev_block`s; a disabled logger has none. -/
abbrev Chain := List LogBlock

section Logging

-- What the storage of the `i`-th block holds at first.
variable (raw : ℕ → ByteMemory)

def enable : Chain := [LogBlock.new (raw 0)]

def disable : Chain := []

/-- `write_binary`: new blocks are put in front until one has room. -/
def writeBinary (logger : BinaryLogger) (args : List UInt64) : ℕ → Chain → Option Chain
  | 0, _ => none
  | _ + 1, [] => some []
  | fuel + 1, block :: prev =>
    match block.write logger args with
    | some block => some (block :: prev)
    | none => writeBinary logger args fuel (LogBlock.new (raw (prev.length + 1)) :: block :: prev)

/-- The calls of the logger. -/
inductive LogCall
  | createPhysicalTask (physicalId logicalId : UInt64)
  | physicalDependency (producer consumer : UInt64)
  | beginPreparation (taskId : UInt64)
  | endPreparation (taskId : UInt64)
  | beginExecution (taskId : UInt64)
  | endExecution (taskId : UInt64)
  | allocateMemory (mobjId size : UInt64)
  | allocateMemoryOn (mobjId size numaNode : UInt64)
  | releaseMemory (mobjId : UInt64)
  | lockMemory (mobj : UInt64)
  | unlockMemory (mobj : UInt64)
  deriving DecidableEq, Repr

/-- The `log_*` functions, called at the time `timestamp`. -/
def log (fuel : ℕ) (timestamp : UInt64) (call : LogCall) (chain : Chain) : Option Chain :=
  match call with
  | .createPhysicalTask physicalId logicalId =>
    writeBinary raw createPhysicalTaskLogger [timestamp, physicalId, logicalId] fuel chain
  | .physicalDependency producer consumer =>
    writeBinary raw physicalDependencyLogger [timestamp, producer, consumer] fuel chain
  | .beginPreparation taskId =>
    writeBinary raw beginPreparationLogger [timestamp, taskId] fuel chain
  | .endPreparation taskId =>
    writeBinary raw endPreparationLogger [timestamp, taskId] fuel chain
  | .beginExecution taskId =>
    writeBinary raw beginExecutionLogger [timestamp, taskId] fuel chain
  | .endExecution taskId =>
    writeBinary raw endExecutionLogger [timestamp, taskId] fuel chain
  | .allocateMemory mobjId size =>
    -- the `int` -1 becomes an `identifier_type` when the field is written
    writeBinary raw allocateMemoryLogger [timestamp, mobjId, size, UInt64.ofInt (-1)] fuel chain
  | .allocateMemoryOn mobjId size numaNode =>
    writeBinary raw allocateMemoryLogger [timestamp, mobjId, size, numaNode] fuel chain
  | .releaseMemory mobjId =>
    writeBinary raw releaseMemoryLogger [timestamp, mobjId] fuel chain
  | .lockMemory mobj =>
    writeBinary raw lockMemoryLogger [timestamp, mobj] fuel chain
  | .unlockMemory mobj =>
    writeBinary raw unlockMemoryLogger [timestamp, mobj] fuel chain

/-- One call after the other. -/
def logAll (fuel : ℕ) : List (UInt64 × LogCall) → Chain → Option Chain
  | [], chain => some chain
  | (timestamp, call) :: rest, chain =>
    match log raw fuel timestamp call chain with
    | none => none
    | some chain => logAll fuel rest chain

end Logging

def BinaryLoggerImpl.toJson (b : LogBlock) (os : String) : List String → ℕ → Option String
  | [], _ => some os
  | name :: rest, src =>
    match b.readBytes src 8 with
    | none => none
    | some x =>
      toJson b (os ++ ",\"" ++ name ++ "\":" ++ toString (ByteMemory.word x)) rest (src + 8)

/-- `to_json` of a record, whose tag is asserted to be the logger's. -/
def BinaryLogger.toJson (logger : BinaryLogger) (b : LogBlock) (os : String) (src : ℕ) :
    Option String :=
  match b.readBytes src EventMagic.size with
  | none => none
  | some magic =>
    if ByteMemory.word magic = logger.magic.number then
      (BinaryLoggerImpl.toJson b (os ++ "\x7b\"type\":\"" ++ logger.typeName ++ "\"")
        logger.fields (src + EventMagic.size)).map fun os => os ++ "\x7d"
    else none

/-- `write_json`, with the text and the size of the record. -/
def writeJson (b : LogBlock) (logger : BinaryLogger) (os : String) (src : ℕ) :
    Option (String × ℕ) :=
  (logger.toJson b os src).map fun os => (os, logger.size)

/-- The `switch` of `to_json`. An unknown tag is asserted not to occur. -/
def dispatch (magic : ℕ) (b : LogBlock) (os : String) (p : ℕ) : Option (String × ℕ) :=
  if magic = EventMagic.createPhysicalTask.number then
    writeJson b createPhysicalTaskLogger os p
  else if magic = EventMagic.physicalDependency.number then
    writeJson b physicalDependencyLogger os p
  else if magic = EventMagic.beginPreparation.number then
    writeJson b beginPreparationLogger os p
  else if magic = EventMagic.endPreparation.number then
    writeJson b endPreparationLogger os p
  else if magic = EventMagic.beginExecution.number then
    writeJson b beginExecutionLogger os p
  else if magic = EventMagic.endExecution.number then
    writeJson b endExecutionLogger os p
  else if magic = EventMagic.allocateMemory.number then
    writeJson b allocateMemoryLogger os p
  else if magic = EventMagic.releaseMemory.number then
    writeJson b releaseMemoryLogger os p
  else if magic = EventMagic.lockMemory.number then
    writeJson b lockMemoryLogger os p
  else if magic = EventMagic.unlockMemory.number then
    writeJson b unlockMemoryLogger os p
  else none

/-- The records of a block from `p` on. -/
def blockJson (b : LogBlock) : ℕ → ℕ → String → Option String
  | 0, _, _ => none
  | fuel + 1, p, oss =>
    if p < b.writtenBytes then
      let oss := if p ≠ 0 then oss ++ "," else oss
      match b.readBytes p EventMagic.size with
      | none => none
      | some magic =>
        match dispatch (ByteMemory.word magic) b oss p with
        | none => none
        | some (oss, size) => blockJson b fuel (p + size) oss
    else some oss

/-- The loop over the blocks. The list is `json_blocks` with its back first. -/
def jsonBlocks (fuel : ℕ) : Chain → List String → Option (List String)
  | [], blocks => some blocks
  | block :: prev, blocks =>
    match blockJson block fuel 0 "" with
    | none => none
    | some text => jsonBlocks fuel prev (if text.length > 0 then text :: blocks else blocks)

/-- The texts from the back, with commas between them. -/
def joinBlocks : List String → String → String
  | [], oss => oss
  | text :: blocks, oss =>
    let oss := oss ++ text
    joinBlocks blocks (if blocks.isEmpty then oss else oss ++ ",")

def toJson (fuel : ℕ) (chain : Chain) : Option String :=
  (jsonBlocks fuel chain []).map fun blocks => joinBlocks blocks "[" ++ "]"

end M3bp.ProfileEventLogger
