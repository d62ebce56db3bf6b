import M3bp.JsonText
import M3bp.ProfileEventLogger
import Mathlib.Tactic

/-!
The round trip of the profile event log. The written bytes of a block are the records of
its calls, and the walk of `to_json` comes to each record in turn. The blocks hold the
calls in order, so the dump is the JSON array with one object for each call.
-/
namespace M3bp.ProfileEventLogger

open JsonText

/-- A call of the logger with the time of the call. -/
abbrev Event := UInt64 × LogCall

namespace LogCall

def logger : LogCall → BinaryLogger
  | createPhysicalTask _ _ => createPhysicalTaskLogger
  | physicalDependency _ _ => physicalDependencyLogger
  | beginPreparation _ => beginPreparationLogger
  | endPreparation _ => endPreparationLogger
  | beginExecution _ => beginExecutionLogger
  | endExecution _ => endExecutionLogger
  | allocateMemory _ _ => allocateMemoryLogger
  | allocateMemoryOn _ _ _ => allocateMemoryLogger
  | releaseMemory _ => releaseMemoryLogger
  | lockMemory _ => lockMemoryLogger
  | unlockMemory _ => unlockMemoryLogger

def args (timestamp : UInt64) : LogCall → List UInt64
  | createPhysicalTask physicalId logicalId => [timestamp, physicalId, logicalId]
  | physicalDependency producer consumer => [timestamp, producer, consumer]
  | beginPreparation taskId => [timestamp, taskId]
  | endPreparation taskId => [timestamp, taskId]
  | beginExecution taskId => [timestamp, taskId]
  | endExecution taskId => [timestamp, taskId]
  | allocateMemory mobjId size => [timestamp, mobjId, size, UInt64.ofInt (-1)]
  | allocateMemoryOn mobjId size numaNode => [timestamp, mobjId, size, numaNode]
  | releaseMemory mobjId => [timestamp, mobjId]
  | lockMemory mobj => [timestamp, mobj]
  | unlockMemory mobj => [timestamp, mobj]

/-- What the dump is to say of a call. -/
def object (timestamp : UInt64) : LogCall → Object
  | createPhysicalTask physicalId logicalId =>
    [("type", .text "create_physical_task"), ("timestamp", .number timestamp.toNat),
      ("physical_id", .number physicalId.toNat), ("logical_id", .number logicalId.toNat)]
  | physicalDependency producer consumer =>
    [("type", .text "physical_dependency"), ("timestamp", .number timestamp.toNat),
      ("producer", .number producer.toNat), ("consumer", .number consumer.toNat)]
  | beginPreparation taskId =>
    [("type", .text "begin_preparation"), ("timestamp", .number timestamp.toNat),
      ("task_id", .number taskId.toNat)]
  | endPreparation taskId =>
    [("type", .text "end_preparation"), ("timestamp", .number timestamp.toNat),
      ("task_id", .number taskId.toNat)]
  | beginExecution taskId =>
    [("type", .text "begin_execution"), ("timestamp", .number timestamp.toNat),
      ("task_id", .number taskId.toNat)]
  | endExecution taskId =>
    [("type", .text "end_execution"), ("timestamp", .number timestamp.toNat),
      ("task_id", .number taskId.toNat)]
  | allocateMemory mobjId size =>
    [("type", .text "allocate_memory"), ("timestamp", .number timestamp.toNat),
      ("object_id", .number mobjId.toNat), ("size", .number size.toNat),
      ("numa_node", .number (2 ^ 64 - 1))]
  | allocateMemoryOn mobjId size numaNode =>
    [("type", .text "allocate_memory"), ("timestamp", .number timestamp.toNat),
      ("object_id", .number mobjId.toNat), ("size", .number size.toNat),
      ("numa_node", .number numaNode.toNat)]
  | releaseMemory mobjId =>
    [("type", .text "release_memory"), ("timestamp", .number timestamp.toNat),
      ("object_id", .number mobjId.toNat)]
  | lockMemory mobj =>
    [("type", .text "lock_memory"), ("timestamp", .number timestamp.toNat),
      ("object_id", .number mobj.toNat)]
  | unlockMemory mobj =>
    [("type", .text "unlock_memory"), ("timestamp", .number timestamp.toNat),
      ("object_id", .number mobj.toNat)]

end LogCall

theorem log_eq_writeBinary (raw : ℕ → ByteMemory) (fuel : ℕ) (timestamp : UInt64)
    (call : LogCall) (chain : Chain) : log raw fuel timestamp call chain
      = writeBinary raw call.logger (call.args timestamp) fuel chain := by
  cases call <;> rfl

theorem length_args (timestamp : UInt64) (call : LogCall) :
    (call.args timestamp).length = call.logger.fields.length := by
  cases call <;> rfl

/-- The reader's dispatch agrees with the writer's tag. -/
theorem dispatch_logger (call : LogCall) (b : LogBlock) (os : String) (p : ℕ) :
    dispatch call.logger.magic.number b os p = writeJson b call.logger os p := by
  cases call <;> rfl

theorem object_eq_cons (timestamp : UInt64) (call : LogCall) : call.object timestamp
    = ("type", .text call.logger.typeName) ::
      (call.logger.fields.zip (call.args timestamp)).map fun f => (f.1, .number f.2.toNat) := by
  cases call <;> rfl

def loggers : List BinaryLogger :=
  [createPhysicalTaskLogger, physicalDependencyLogger, beginPreparationLogger,
    endPreparationLogger, beginExecutionLogger, endExecutionLogger, allocateMemoryLogger,
    releaseMemoryLogger, lockMemoryLogger, unlockMemoryLogger]

theorem logger_mem (call : LogCall) : call.logger ∈ loggers := by
  cases call <;> simp [loggers, LogCall.logger]

/-- A new block has room for every record. -/
theorem size_le_of_mem : ∀ logger ∈ loggers, logger.size ≤ logBlockSize := by decide

theorem isPlain_of_mem : ∀ logger ∈ loggers, logger.typeName.toList.all isPlain = true ∧
    ∀ name ∈ logger.fields, name.toList.all isPlain = true := by decide

theorem isPlain_object (timestamp : UInt64) (call : LogCall) :
    ∀ member ∈ call.object timestamp, IsPlainMember member := by
  obtain ⟨htype, hfields⟩ := isPlain_of_mem call.logger (logger_mem call)
  have hname : "type".toList.all isPlain = true := by decide
  rw [object_eq_cons]
  intro member hmember
  rcases List.mem_cons.mp hmember with rfl | hmember
  · exact ⟨List.all_eq_true.mp hname, List.all_eq_true.mp htype⟩
  · obtain ⟨f, hf, rfl⟩ := List.mem_map.mp hmember
    exact ⟨List.all_eq_true.mp (hfields f.1 (List.of_mem_zip hf).1), trivial⟩

section Bytes

variable {mem : ByteMemory} {b b' : LogBlock} {logger : BinaryLogger} {args : List UInt64}

def argsBytes (args : List UInt64) : List UInt8 :=
  args.flatMap fun x => ByteMemory.wordBytes x.toNat

def recordBytes (logger : BinaryLogger) (args : List UInt64) : List UInt8 :=
  logger.magic.bytes ++ argsBytes args

theorem length_argsBytes {fields : List String} (hargs : args.length = fields.length) :
    (argsBytes args).length = BinaryLoggerImpl.size fields := by
  induction args generalizing fields with
  | nil =>
    obtain rfl : fields = [] := List.length_eq_zero_iff.mp hargs.symm
    rfl
  | cons x args ih =>
    cases fields with
    | nil => simp at hargs
    | cons name rest =>
      have hrest := @ih rest (by simpa using hargs)
      simp only [argsBytes, List.flatMap_cons, List.length_append, ByteMemory.length_wordBytes,
        BinaryLoggerImpl.size] at hrest ⊢
      rw [hrest]

theorem length_magicBytes (magic : EventMagic) : magic.bytes.length = EventMagic.size := by
  simp [EventMagic.bytes]

theorem length_recordBytes (hargs : args.length = logger.fields.length) :
    (recordBytes logger args).length = logger.size := by
  rw [recordBytes, List.length_append, length_magicBytes, length_argsBytes hargs]
  rfl

theorem writeImpl_eq {fields : List String} (hargs : args.length = fields.length) (dst : ℕ) :
    BinaryLoggerImpl.write mem dst fields args = mem.write dst (argsBytes args) := by
  induction args generalizing fields dst mem with
  | nil =>
    obtain rfl : fields = [] := List.length_eq_zero_iff.mp hargs.symm
    funext x
    simp [BinaryLoggerImpl.write, argsBytes, ByteMemory.write]
  | cons x args ih =>
    cases fields with
    | nil => simp at hargs
    | cons name rest =>
      simp only [BinaryLoggerImpl.write]
      rw [ih (by simpa using hargs)]
      have hjoin := ByteMemory.write_write mem dst (ByteMemory.wordBytes x.toNat) (argsBytes args)
      rw [ByteMemory.length_wordBytes] at hjoin
      rw [hjoin]
      rfl

/-- The fields are written side by side behind the tag. -/
theorem write_eq (hargs : args.length = logger.fields.length) (dst : ℕ) :
    logger.write mem dst args = mem.write dst (recordBytes logger args) := by
  rw [BinaryLogger.write, writeImpl_eq hargs, ← length_magicBytes logger.magic,
    ByteMemory.write_write]
  rfl

/-- The written bytes of a block. -/
def LogBlock.bytes (b : LogBlock) : List UInt8 := b.logBuffer.read 0 b.writtenBytes

@[simp] theorem length_bytes (b : LogBlock) : b.bytes.length = b.writtenBytes := by
  simp [LogBlock.bytes]

@[simp] theorem bytes_new (raw : ByteMemory) : (LogBlock.new raw).bytes = [] := rfl

theorem write_eq_some (hargs : args.length = logger.fields.length)
    (hsize : b.writtenBytes + logger.size ≤ logBlockSize) :
    ∃ b', b.write logger args = some b' ∧ b'.bytes = b.bytes ++ recordBytes logger args := by
  have hroom : ¬ logBlockSize - b.writtenBytes < logger.size := by omega
  refine ⟨_, dif_neg hroom, ?_⟩
  simp only [LogBlock.bytes]
  rw [ByteMemory.read_add, Nat.zero_add, write_eq hargs,
    ByteMemory.read_write_of_disjoint _ _ (Or.inl (Nat.zero_add _).le),
    ← length_recordBytes hargs, ByteMemory.read_write]

theorem write_eq_none (args : List UInt64) (hsize : logBlockSize < b.writtenBytes + logger.size) :
    b.write logger args = none := by
  have hroom : logBlockSize - b.writtenBytes < logger.size := by
    have hle := b.written_le
    omega
  simp only [LogBlock.write, dif_pos hroom]

/-- Bytes that have been written can be read. -/
theorem readBytes_of_bytes {pre xs post : List UInt8} (hbytes : b.bytes = pre ++ xs ++ post) :
    b.readBytes pre.length xs.length = some xs := by
  have hlength : b.writtenBytes = pre.length + xs.length + post.length := by
    rw [← length_bytes, hbytes, List.length_append, List.length_append]
  have hle : pre.length + xs.length ≤ b.writtenBytes := by omega
  have hread : b.logBuffer.read pre.length xs.length = xs := by
    rw [LogBlock.bytes, hlength, ByteMemory.read_add, ByteMemory.read_add, Nat.zero_add] at hbytes
    have hfront := (List.append_inj hbytes (by simp)).1
    exact (List.append_inj hfront (by simp)).2
  rw [LogBlock.readBytes, if_pos hle, hread]

end Bytes

section Texts

variable {b : LogBlock} {pre post : List UInt8} {os : String}

/-- The text of a record, as the object of its call. -/
def Event.text (e : Event) : String := renderObject (e.2.object e.1)

def Event.record (e : Event) : List UInt8 := recordBytes e.2.logger (e.2.args e.1)

def records (events : List Event) : List UInt8 := events.flatMap Event.record

/-- The members for the fields of a record, each behind a comma. -/
def fieldsText (fields : List String) (args : List UInt64) : String :=
  String.join ((fields.zip args).map fun f => "," ++ renderMember (f.1, .number f.2.toNat))

theorem intercalate_cons (s : String) (l : List String) :
    ",".intercalate (s :: l) = s ++ String.join (l.map fun t => "," ++ t) := by
  induction l generalizing s with
  | nil => simp
  | cons t l ih =>
    rw [String.intercalate_cons_cons, ih, List.map_cons, String.join_cons]
    simp only [String.append_assoc]

theorem memberText_number (name : String) (n : ℕ) :
    "," ++ renderMember (name, .number n) = ",\"" ++ name ++ "\":" ++ toString n := by
  have hopen : ",\"" = "," ++ "\"" := by decide
  have hclose : "\":" = "\"" ++ ":" := by decide
  rw [hopen, hclose]
  simp only [renderMember, quoted, Scalar.render, String.append_assoc]

theorem toJsonImpl_eq (os : String) (pre post : List UInt8) (fields : List String)
    (args : List UInt64) (hargs : args.length = fields.length)
    (hbytes : b.bytes = pre ++ argsBytes args ++ post) :
    BinaryLoggerImpl.toJson b os fields pre.length = some (os ++ fieldsText fields args) := by
  induction fields generalizing os pre args with
  | nil => simp [BinaryLoggerImpl.toJson, fieldsText]
  | cons name rest ih =>
    cases args with
    | nil => simp at hargs
    | cons x args =>
      have hhead : b.bytes = pre ++ ByteMemory.wordBytes x.toNat ++ (argsBytes args ++ post) := by
        rw [hbytes]
        simp [argsBytes]
      have hread := readBytes_of_bytes hhead
      rw [ByteMemory.length_wordBytes] at hread
      have hrest := ih (os ++ ",\"" ++ name ++ "\":" ++ toString x.toNat)
        (pre ++ ByteMemory.wordBytes x.toNat) args (by simpa using hargs) (by rw [hhead]; simp)
      rw [List.length_append, ByteMemory.length_wordBytes] at hrest
      simp only [BinaryLoggerImpl.toJson, hread, ByteMemory.word_wordBytes x.toNat_lt]
      rw [hrest]
      simp only [fieldsText, List.zip_cons_cons, List.map_cons, String.join_cons,
        memberText_number, String.append_assoc]

theorem word_magicBytes (magic : EventMagic) : ByteMemory.word magic.bytes = magic.number := by
  cases magic <;> decide

theorem objectText_eq (e : Event) : e.text
    = "\x7b\"type\":\"" ++ e.2.logger.typeName ++ "\""
      ++ fieldsText e.2.logger.fields (e.2.args e.1) ++ "\x7d" := by
  have hopen : "\x7b\"type\":\"" = "\x7b" ++ "\"" ++ "type" ++ "\"" ++ ":" ++ "\"" := by decide
  rw [hopen, Event.text, renderObject, object_eq_cons, List.map_cons, intercalate_cons]
  simp only [renderMember, quoted, Scalar.render, fieldsText, List.map_map, String.append_assoc,
    Function.comp_def]

/-- A record is dumped as its call. -/
theorem writeJson_record {e : Event} (hbytes : b.bytes = pre ++ e.record ++ post) :
    writeJson b e.2.logger os pre.length = some (os ++ e.text, e.2.logger.size) := by
  have hmagic : b.bytes = pre ++ e.2.logger.magic.bytes
      ++ (argsBytes (e.2.args e.1) ++ post) := by
    rw [hbytes, Event.record, recordBytes]
    simp only [List.append_assoc]
  have hread := readBytes_of_bytes hmagic
  have hfields := toJsonImpl_eq (os ++ "\x7b\"type\":\"" ++ e.2.logger.typeName ++ "\"")
    (pre ++ e.2.logger.magic.bytes) post e.2.logger.fields (e.2.args e.1) (length_args e.1 e.2)
    (by rw [hmagic]; simp only [List.append_assoc])
  rw [List.length_append] at hfields
  rw [length_magicBytes] at hread hfields
  simp only [writeJson, BinaryLogger.toJson, hread, word_magicBytes, if_true, hfields,
    Option.map_some]
  rw [objectText_eq]
  simp only [String.append_assoc]

end Texts

section Blocks

variable {b : LogBlock} {events : List Event} {fuel : ℕ}

theorem length_record (e : Event) : e.record.length = e.2.logger.size :=
  length_recordBytes (length_args e.1 e.2)

theorem size_pos (logger : BinaryLogger) : 0 < logger.size := by
  simp only [BinaryLogger.size, EventMagic.size]
  omega

theorem length_le_records (events : List Event) : events.length ≤ (records events).length := by
  induction events with
  | nil => simp
  | cons e events ih =>
    have hpos := size_pos e.2.logger
    rw [records, List.flatMap_cons, List.length_append, length_record, List.length_cons]
    rw [records] at ih
    omega

/-- The walk goes from one record to the next: the tag leads to the logger that has written
the record. -/
theorem blockJson_record {pre post : List UInt8} {e : Event}
    (hbytes : b.bytes = pre ++ e.record ++ post) (fuel : ℕ) (oss : String) :
    blockJson b (fuel + 1) pre.length oss = blockJson b fuel (pre ++ e.record).length
      ((if pre.length ≠ 0 then oss ++ "," else oss) ++ e.text) := by
  have hin : pre.length < b.writtenBytes := by
    have hpos := size_pos e.2.logger
    rw [← length_bytes, hbytes, List.length_append, List.length_append, length_record]
    omega
  have hmagic : b.bytes = pre ++ e.2.logger.magic.bytes
      ++ (argsBytes (e.2.args e.1) ++ post) := by
    rw [hbytes, Event.record, recordBytes]
    simp only [List.append_assoc]
  have hread := readBytes_of_bytes hmagic
  rw [length_magicBytes] at hread
  rw [List.length_append, length_record]
  simp only [blockJson, if_pos hin, hread, word_magicBytes, dispatch_logger,
    writeJson_record hbytes]

theorem blockJson_end (fuel : ℕ) (oss : String) :
    blockJson b (fuel + 1) b.bytes.length oss = some oss := by
  rw [length_bytes]
  simp only [blockJson, if_neg (lt_irrefl _)]

/-- A comma stands before every record but the first. -/
theorem blockJson_behind {done todo : List Event} (hbytes : b.bytes = records done ++ records todo)
    (hdone : done ≠ []) (hfuel : todo.length < fuel) (oss : String) :
    blockJson b fuel (records done).length oss
      = some (oss ++ String.join (todo.map fun e => "," ++ e.text)) := by
  induction todo generalizing done fuel oss with
  | nil =>
    obtain ⟨fuel, rfl⟩ := Nat.exists_eq_add_one.mpr hfuel
    have hend : records done = b.bytes := by
      rw [hbytes]
      simp [records]
    rw [hend, blockJson_end]
    simp
  | cons e todo ih =>
    obtain ⟨fuel, rfl⟩ := Nat.exists_eq_add_one.mpr (Nat.zero_lt_of_lt hfuel)
    have hpos : (records done).length ≠ 0 := by
      have hle := length_le_records done
      have hlength := List.length_pos_of_ne_nil hdone
      omega
    have hsplit : b.bytes = records done ++ e.record ++ records todo := by
      rw [hbytes]
      simp [records]
    have hnext : records (done ++ [e]) = records done ++ e.record := by simp [records]
    rw [blockJson_record hsplit, if_pos hpos, ← hnext,
      ih (by rw [hnext, hsplit]) (by simp) (Nat.lt_of_succ_lt_succ hfuel), List.map_cons,
      String.join_cons]
    simp only [String.append_assoc]

/-- The text of a block is made of the texts of its calls. -/
theorem blockJson_eq (hbytes : b.bytes = records events) (hfuel : logBlockSize < fuel) :
    blockJson b fuel 0 "" = some (",".intercalate (events.map Event.text)) := by
  have hlength : events.length < fuel := by
    have hle := length_le_records events
    rw [← hbytes, length_bytes] at hle
    have hwritten := b.written_le
    omega
  cases events with
  | nil =>
    obtain ⟨fuel, rfl⟩ := Nat.exists_eq_add_one.mpr hlength
    have hend := blockJson_end (b := b) fuel ""
    rw [hbytes] at hend
    exact hend
  | cons e rest =>
    obtain ⟨fuel, rfl⟩ := Nat.exists_eq_add_one.mpr (Nat.zero_lt_of_lt hlength)
    have hsplit : b.bytes = [] ++ e.record ++ records rest := by
      rw [hbytes]
      simp [records]
    have hone : records [e] = [] ++ e.record := by simp [records]
    have hfirst := blockJson_record hsplit fuel ""
    rw [← hone, blockJson_behind (by rw [hone, hsplit]) (by simp)
      (Nat.lt_of_succ_lt_succ hlength)] at hfirst
    rw [List.map_cons, intercalate_cons, List.map_map]
    simpa [Function.comp_def] using hfirst

end Blocks

section Chains

variable {chain : Chain} {groups : List (List Event)} {events : List Event}
  {fuel : ℕ}

/-- The blocks of an enabled logger, newest first, hold groups of calls that make up the
calls so far. -/
def Logged (chain : Chain) (events : List Event) : Prop :=
  ∃ groups, List.Forall₂ (fun b group => b.bytes = records group) chain groups ∧
    groups.reverse.flatten = events ∧ chain ≠ []

theorem logged_enable (raw : ℕ → ByteMemory) : Logged (enable raw) [] :=
  ⟨[[]], .cons (bytes_new _) .nil, rfl, by simp [enable]⟩

/-- A call adds its record to the current block, or to a new one when there is no room. -/
theorem Logged.log (h : Logged chain events) (raw : ℕ → ByteMemory) (e : Event) (hfuel : 2 ≤ fuel) :
    ∃ chain', log raw fuel e.1 e.2 chain = some chain' ∧ Logged chain' (events ++ [e]) := by
  obtain ⟨groups, hgroups, hevents, hchain⟩ := h
  obtain ⟨fuel, rfl⟩ : ∃ k, fuel = k + 2 := ⟨fuel - 2, by omega⟩
  have hargs := length_args e.1 e.2
  have hfits := size_le_of_mem _ (logger_mem e.2)
  cases hgroups with
  | nil => exact absurd rfl hchain
  | @cons block group prev groups hblock hprev =>
    rw [log_eq_writeBinary]
    by_cases hroom : block.writtenBytes + e.2.logger.size ≤ logBlockSize
    · obtain ⟨block', hwrite, hbytes⟩ := write_eq_some hargs hroom
      refine ⟨block' :: prev, by simp only [writeBinary, hwrite], (group ++ [e]) :: groups,
        .cons ?_ hprev, ?_, by simp⟩
      · rw [hbytes, hblock]
        simp [records, Event.record]
      · rw [← hevents]
        simp
    · have hfull := write_eq_none (e.2.args e.1) (Nat.lt_of_not_le hroom)
      have hnew : (LogBlock.new (raw (prev.length + 1))).writtenBytes + e.2.logger.size
          ≤ logBlockSize := by simpa [LogBlock.new] using hfits
      obtain ⟨block', hwrite, hbytes⟩ := write_eq_some hargs hnew
      refine ⟨block' :: block :: prev, by simp only [writeBinary, hfull, hwrite],
        [e] :: group :: groups, .cons ?_ (.cons hblock hprev), ?_, by simp⟩
      · rw [hbytes, bytes_new]
        simp [records, Event.record]
      · rw [← hevents]
        simp

/-- All calls are logged, in order. -/
theorem Logged.logAll (h : Logged chain events) (raw : ℕ → ByteMemory) (calls : List Event)
    (hfuel : 2 ≤ fuel) : ∃ chain', logAll raw fuel calls chain = some chain' ∧
      Logged chain' (events ++ calls) := by
  induction calls generalizing chain events with
  | nil => exact ⟨chain, rfl, by simpa using h⟩
  | cons e calls ih =>
    obtain ⟨next, hlog, hnext⟩ := h.log raw e hfuel
    obtain ⟨chain', hall, hlogged⟩ := ih hnext
    refine ⟨chain', ?_, by simpa using hlogged⟩
    obtain ⟨timestamp, call⟩ := e
    simp only [ProfileEventLogger.logAll, hlog, hall]

/-- The text of a block. -/
def groupText (group : List Event) : String := ",".intercalate (group.map Event.text)

theorem length_text_pos (e : Event) : 0 < e.text.length := by
  rw [Event.text, renderObject, String.length_append, String.length_append]
  have hopen : "\x7b".length = 1 := by decide
  omega

theorem length_groupText_pos {group : List Event} : 0 < (groupText group).length ↔ group ≠ [] := by
  cases group with
  | nil => simp [groupText]
  | cons e group =>
    rw [groupText, List.map_cons, intercalate_cons, String.length_append]
    have hpos := length_text_pos e
    simp
    omega

theorem jsonBlocks_eq (h : List.Forall₂ (fun b group => b.bytes = records group) chain groups)
    (hfuel : logBlockSize < fuel) (blocks : List String) : jsonBlocks fuel chain blocks
      = some (((groups.filter (· ≠ [])).map groupText).reverse ++ blocks) := by
  induction h generalizing blocks with
  | nil => simp [jsonBlocks]
  | @cons block group prev groups hblock _ ih =>
    have htext := blockJson_eq hblock hfuel
    rw [← groupText] at htext
    simp only [jsonBlocks, htext]
    rw [ih]
    by_cases hne : group = []
    · have hlength : ¬ (groupText group).length > 0 := fun h => length_groupText_pos.mp h hne
      rw [if_neg hlength, List.filter_cons_of_neg (by simpa using hne)]
    · have hlength : (groupText group).length > 0 := length_groupText_pos.mpr hne
      rw [if_pos hlength, List.filter_cons_of_pos (by simpa using hne)]
      simp

theorem joinBlocks_eq (blocks : List String) (oss : String) :
    joinBlocks blocks oss = oss ++ ",".intercalate blocks := by
  induction blocks generalizing oss with
  | nil => simp [joinBlocks]
  | cons text blocks ih =>
    simp only [joinBlocks]
    rw [ih]
    cases blocks with
    | nil => simp
    | cons next blocks => simp [String.append_assoc]

theorem groupText_append {group rest : List Event} (hgroup : group ≠ []) (hrest : rest ≠ []) :
    groupText (group ++ rest) = groupText group ++ "," ++ groupText rest := by
  rw [groupText, List.map_append,
    String.intercalate_append_of_ne_nil (by simpa using hgroup) (by simpa using hrest)]
  rfl

/-- Joining the blocks is joining all their calls. -/
theorem intercalate_groupText {groups : List (List Event)} (hne : ∀ group ∈ groups, group ≠ []) :
    ",".intercalate (groups.map groupText) = groupText groups.flatten := by
  induction groups with
  | nil => simp [groupText]
  | cons group groups ih =>
    have hrest := ih fun g hg => hne g (List.mem_cons_of_mem _ hg)
    have hgroup := hne group List.mem_cons_self
    cases groups with
    | nil => simp
    | cons next groups =>
      have hflat : (next :: groups).flatten ≠ [] := by
        have hnext := hne next (by simp)
        simp [hnext]
      rw [List.map_cons, String.intercalate_cons_of_ne_nil (by simp), hrest]
      exact (groupText_append hgroup hflat).symm

theorem Logged.toJson (h : Logged chain events) (hfuel : logBlockSize < fuel) :
    toJson fuel chain = some (renderArray (events.map fun e => e.2.object e.1)) := by
  obtain ⟨groups, hgroups, rfl, -⟩ := h
  have hjoin : ",".intercalate ((groups.filter (· ≠ [])).map groupText).reverse
      = groupText groups.reverse.flatten := by
    rw [← List.map_reverse, ← List.filter_reverse, intercalate_groupText, List.flatten_filter_ne_nil]
    intro group hgroup
    simpa using (List.mem_filter.mp hgroup).2
  rw [ProfileEventLogger.toJson, jsonBlocks_eq hgroups hfuel, List.append_nil, Option.map_some,
    joinBlocks_eq, hjoin, renderArray, List.map_map]
  rfl

end Chains

/-- A disabled logger takes no block, whatever is logged, and its text is an empty array. -/
theorem toJson_logAll_disable (raw : ℕ → ByteMemory) (calls : List Event) {fuel : ℕ}
    (hfuel : 0 < fuel) :
    logAll raw fuel calls disable = some disable ∧ toJson fuel disable = some "[]" := by
  obtain ⟨fuel, rfl⟩ : ∃ n, fuel = n + 1 := ⟨fuel - 1, by omega⟩
  refine ⟨?_, rfl⟩
  induction calls with
  | nil => rfl
  | cons call calls ih =>
    obtain ⟨timestamp, call⟩ := call
    have hlog : log raw (fuel + 1) timestamp call disable = some disable := by
      cases call <;> rfl
    rw [logAll, hlog]
    exact ih

/-- For every sequence of calls on an enabled logger, `to_json` terminates, meets only the
written bytes of a block and the tags of the calls, and returns the JSON array with one
object for each call in order. Reading the array back gives these objects. -/
theorem to_json_log (raw : ℕ → ByteMemory) (calls : List Event) {fuel : ℕ}
    (hfuel : logBlockSize < fuel) :
    ∃ chain text, logAll raw fuel calls (enable raw) = some chain ∧
      toJson fuel chain = some text ∧
      text = renderArray (calls.map fun e => e.2.object e.1) ∧
      readArray text = some (calls.map fun e => e.2.object e.1) := by
  have hloop : 2 ≤ fuel := by
    have htwo : 2 ≤ logBlockSize := by decide
    omega
  obtain ⟨chain, hlog, hlogged⟩ := (logged_enable raw).logAll raw calls hloop
  refine ⟨chain, _, hlog, hlogged.toJson hfuel, rfl, readArray_render ?_⟩
  intro o ho
  obtain ⟨e, -, rfl⟩ := List.mem_map.mp ho
  exact isPlain_object e.1 e.2

/-- An allocation without a node, behind the creation of a task. -/
theorem to_json_log_allocation : ∃ chain,
    logAll (fun _ _ => 0) (logBlockSize + 1)
        [(3, .createPhysicalTask 1 2), (4, .allocateMemory 1 64)] (enable fun _ _ => 0)
      = some chain ∧
    toJson (logBlockSize + 1) chain = some ("[\x7b\"type\":\"create_physical_task\","
      ++ "\"timestamp\":3,\"physical_id\":1,\"logical_id\":2\x7d,"
      ++ "\x7b\"type\":\"allocate_memory\",\"timestamp\":4,\"object_id\":1,\"size\":64,"
      ++ "\"numa_node\":18446744073709551615\x7d]") := by
  obtain ⟨chain, text, hlog, hjson, htext, -⟩ := to_json_log (fun _ _ => 0)
    [(3, .createPhysicalTask 1 2), (4, .allocateMemory 1 64)] (Nat.lt_succ_self logBlockSize)
  refine ⟨chain, hlog, ?_⟩
  rw [hjson, htext]
  decide +kernel

end M3bp.ProfileEventLogger
