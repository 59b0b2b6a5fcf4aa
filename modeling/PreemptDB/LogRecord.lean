/-
Log blocks and log records (`dbcore/dlog-defs.h`, `dbcore/dlog-tx.h`) and
reading a tuple back from the log (`Object::LoadFromStorage`).

A log block is a page-sized header followed by a payload, an array of log
records.  A log record is a 24-byte header (type, FID, OID, four bytes of
padding, CSN) followed by the image of a `dbtuple`: a 4-byte size and that many
bytes of value.

* `recordAt_writeRecord` — what a new record carries, as a reader of the log sees it;
* `writeRecord_frame` — what lies before a new record stays as it is;
* `loadFromStorage_record` — a record whose image is complete is rebuilt.
-/
import PreemptDB.ByteMem
import PreemptDB.FatPtr
import PreemptDB.SizeEncode

open ByteMem

namespace PreemptDB

/-- `log_record::logrec_type`. -/
inductive LogrecType
  | insert
  | update
  deriving DecidableEq, Repr

/-- The value of the enumerator, as it is stored. -/
def LogrecType.code : LogrecType → ℕ
  | insert => 0
  | update => 1

/-- `sizeof(dlog::log_record)`. -/
def sizeofLogRecord : ℕ := 24

/-- `sizeof(dbtuple)` in the SI build. -/
def sizeofDbtuple : ℕ := 4

/-- `PAGE_SIZE` (the default of the build), which is also `sizeof(log_block)`. -/
def pageSize : ℕ := 2048

/-- The bytes that a log record of `size` bytes of data occupies in a block. -/
def logrecSize (size : ℕ) : ℕ := alignUp (size + sizeofLogRecord) defaultAlignment

theorem le_logrecSize (size : ℕ) : size + sizeofLogRecord ≤ logrecSize size :=
  le_alignUp (by decide)

/-- `log_block`; the payload is memory, because a new block lies on whatever
the log buffer held before. -/
structure LogBlock where
  csn : ℕ
  payloadSize : ℕ
  capacity : ℕ
  payload : ℕ → UInt8

/-- The memory of a `dbtuple`: its size, its value, and then whatever follows it. -/
def tupleImage (value : List UInt8) (beyond : ℕ → UInt8) : ℕ → UInt8 :=
  store beyond 0 (leBytes 4 value.length ++ value)

/-- The payload after the header fields and `size` bytes of the image have been
copied to offset `off`, field by field. -/
def writeRecord (m : ℕ → UInt8) (off : ℕ) (type : LogrecType) (fid oid csn : ℕ)
    (afterImage : ℕ → UInt8) (size : ℕ) : ℕ → UInt8 :=
  let m := store m off (leBytes 4 type.code)
  let m := store m (off + 4) (leBytes 4 fid)
  let m := store m (off + 8) (leBytes 4 oid)
  let m := store m (off + 16) (leBytes 8 csn)
  store m (off + sizeofLogRecord) (load afterImage 0 size)

/-- `populate_log_record`: the offset of the new record and the block, or `none`
where the process is stopped because the block is too small.  `payload_size` and
`size` are 32-bit integers. -/
def populateLogRecord (type : LogrecType) (block : LogBlock) (fid oid : ℕ)
    (afterImage : ℕ → UInt8) (size : ℕ) : Option (ℕ × LogBlock) :=
  if block.capacity < (block.payloadSize + size) % 2 ^ 32 then none
  else some (block.payloadSize,
    { block with
      payload := writeRecord block.payload block.payloadSize type fid oid block.csn
        afterImage size
      payloadSize := (block.payloadSize + logrecSize size) % 2 ^ 32 })

theorem populateLogRecord_eq_some {type : LogrecType} {block block' : LogBlock} {fid oid : ℕ}
    {img : ℕ → UInt8} {size off : ℕ}
    (h : populateLogRecord type block fid oid img size = some (off, block')) :
    off = block.payloadSize ∧ block' = { block with
      payload := writeRecord block.payload block.payloadSize type fid oid block.csn img size
      payloadSize := (block.payloadSize + logrecSize size) % 2 ^ 32 } := by
  rw [populateLogRecord, Option.ite_none_left_eq_some, Option.some_inj, Prod.mk.injEq] at h
  exact ⟨h.2.1.symm, h.2.2.symm⟩

/-- What a log record says, with `size` bytes of its data. -/
structure LogRecord where
  type : ℕ
  fid : ℕ
  oid : ℕ
  csn : ℕ
  data : List UInt8
  deriving DecidableEq, Repr

/-- The log record at offset `off`, read with `size` bytes of data. -/
def recordAt (m : ℕ → UInt8) (off size : ℕ) : LogRecord where
  type := leValue (load m off 4)
  fid := leValue (load m (off + 4) 4)
  oid := leValue (load m (off + 8) 4)
  csn := leValue (load m (off + 16) 8)
  data := load m (off + sizeofLogRecord) size

theorem recordAt_congr {m m' : ℕ → UInt8} {off off' size : ℕ}
    (h : ∀ i < sizeofLogRecord + size, m (off + i) = m' (off' + i)) :
    recordAt m off size = recordAt m' off' size := by
  have hload : ∀ a n, a + n ≤ sizeofLogRecord + size →
      load m (off + a) n = load m' (off' + a) n := by
    intro a n hle
    refine load_congr fun i hi => ?_
    rw [Nat.add_assoc, Nat.add_assoc]
    exact h (a + i) (by omega)
  have h24 : sizeofLogRecord = 24 := rfl
  simp only [recordAt, LogRecord.mk.injEq]
  refine ⟨?_, ?_, ?_, ?_, hload _ _ le_rfl⟩
  · exact congrArg leValue (hload 0 4 (by omega))
  · exact congrArg leValue (hload 4 4 (by omega))
  · exact congrArg leValue (hload 8 4 (by omega))
  · exact congrArg leValue (hload 16 8 (by omega))

/-- What is read at a freshly written record: the fields are stored in 4, 4, 4
and 8 bytes, the data is the copied image. -/
theorem recordAt_writeRecord (m : ℕ → UInt8) (off : ℕ) (type : LogrecType)
    (fid oid csn : ℕ) (img : ℕ → UInt8) (size : ℕ) :
    recordAt (writeRecord m off type fid oid csn img size) off size =
      { type := type.code, fid := fid % 2 ^ 32, oid := oid % 2 ^ 32, csn := csn % 2 ^ 64,
        data := load img 0 size } := by
  have hword : ∀ (mem : ℕ → UInt8) a w v,
      leValue (load (store mem a (leBytes w v)) a w) = v % 256 ^ w := by
    intro mem a w v
    have h := load_store mem a (leBytes w v)
    rw [length_leBytes] at h
    rw [h, leValue_leBytes]
  have hdata : ∀ mem : ℕ → UInt8, load (store mem (off + 24) (load img 0 size)) (off + 24) size
      = load img 0 size := by
    intro mem
    have h := load_store mem (off + 24) (load img 0 size)
    rwa [length_load] at h
  have htype : type.code % 256 ^ 4 = type.code := by cases type <;> rfl
  -- every field lies below the fields that are written after it
  simp (disch := simp) only [recordAt, writeRecord, sizeofLogRecord, hdata,
    load_store_of_disjoint, hword, htype]
  norm_num

/-- A record is written behind the offset it starts at. -/
theorem writeRecord_frame {m : ℕ → UInt8} {off a : ℕ} {type : LogrecType}
    {fid oid csn : ℕ} {img : ℕ → UInt8} {size : ℕ} (h : a < off) :
    writeRecord m off type fid oid csn img size a = m a := by
  simp only [writeRecord]
  rw [store_apply_of_disjoint (by omega), store_apply_of_disjoint (by omega),
    store_apply_of_disjoint (by omega), store_apply_of_disjoint (by omega),
    store_apply_of_disjoint (by omega)]

/-! ### Reading a tuple back -/

/-- A log segment: where it starts in its log, and its file. -/
structure LogSegment where
  startOffset : ℕ
  bytes : ℕ → UInt8
  fileSize : ℕ

/-- The offset in the segment file of a log offset, in 64-bit arithmetic. -/
def LogSegment.offsetInSeg (seg : LogSegment) (loffset : ℕ) : ℕ :=
  (loffset + 2 ^ 64 - seg.startOffset) % 2 ^ 64

theorem LogSegment.offsetInSeg_eq {seg : LogSegment} {loffset : ℕ}
    (h : seg.startOffset ≤ loffset) (hlt : loffset < 2 ^ 64) :
    seg.offsetInSeg loffset = loffset - seg.startOffset := by
  rw [offsetInSeg]
  omega

/-- The offset and the number of bytes that `LoadFromStorage` reads: whole pages
with direct I/O. -/
def readRange (directIo : Bool) (pageSize offsetInSeg dataSz : ℕ) : ℕ × ℕ :=
  if directIo then
    (alignDown offsetInSeg pageSize, alignUp (offsetInSeg % pageSize + dataSz) pageSize)
  else (offsetInSeg, dataSz)

theorem readRange_covers (directIo : Bool) {pageSize : ℕ} (hp : 0 < pageSize)
    (offsetInSeg dataSz : ℕ) :
    (readRange directIo pageSize offsetInSeg dataSz).1 ≤ offsetInSeg ∧
      offsetInSeg + dataSz ≤ (readRange directIo pageSize offsetInSeg dataSz).1
        + (readRange directIo pageSize offsetInSeg dataSz).2 := by
  cases directIo with
  | false => exact ⟨le_rfl, le_rfl⟩
  | true =>
    refine ⟨alignDown_le _ _, ?_⟩
    have hup : offsetInSeg % pageSize + dataSz ≤
        alignUp (offsetInSeg % pageSize + dataSz) pageSize :=
      le_alignUp hp
    have hdiv : offsetInSeg / pageSize * pageSize + offsetInSeg % pageSize = offsetInSeg :=
      Nat.div_add_mod' _ _
    simp only [readRange, alignDown, if_true] at hup ⊢
    omega

/-- A tuple rebuilt by `LoadFromStorage`, with the CSN it stamps on the object. -/
structure LoadedTuple where
  size : ℕ
  value : List UInt8
  csn : ℕ
  deriving DecidableEq, Repr

/-- `Object::LoadFromStorage`.  The buffer is taken from the transaction's arena,
so behind the bytes read it holds `scratch`.  A short read stops the process. -/
def loadFromStorage (directIo : Bool) (pageSize : ℕ) (getSegment : ℕ → ℕ → LogSegment)
    (scratch : ℕ → UInt8) (pdest : FatPtr) : Option LoadedTuple :=
  if pdest.asiType = FatPtr.asiLog then
    let lsn := LSN.fromPtr pdest
    let segment := getSegment lsn.logid lsn.segment
    let offsetInSeg := segment.offsetInSeg lsn.loffset
    let range := readRange directIo pageSize offsetInSeg (decodeSizeAligned pdest.sizeCode)
    if range.1 + range.2 ≤ segment.fileSize then
      let buffer := store scratch 0 (load segment.bytes range.1 range.2)
      let off := offsetInSeg - range.1
      let logrec := recordAt buffer off sizeofDbtuple
      let size := leValue logrec.data
      some
        { size := size
          value := load buffer (off + sizeofLogRecord + sizeofDbtuple) size
          csn := (CSN.make logrec.csn).offset }
    else none
  else none

/-- What the reader finds in its buffer is the record in the file. -/
theorem load_buffer (directIo : Bool) {pageSize dataSz i n : ℕ} (off : ℕ)
    (file scratch : ℕ → UInt8) (hp : 0 < pageSize) (hi : i + n ≤ dataSz) :
    load (store scratch 0 (load file (readRange directIo pageSize off dataSz).1
        (readRange directIo pageSize off dataSz).2))
      (off - (readRange directIo pageSize off dataSz).1 + i) n = load file (off + i) n := by
  obtain ⟨h1, h2⟩ := readRange_covers directIo hp off dataSz
  generalize readRange directIo pageSize off dataSz = range at h1 h2 ⊢
  have hcopy := load_store_load scratch file range.1 0
    (show (off - range.1 + i) + n ≤ range.2 by omega)
  rw [Nat.zero_add] at hcopy
  rw [hcopy, show range.1 + (off - range.1 + i) = off + i by omega]

section

variable {directIo : Bool} {pageSize : ℕ} {getSegment : ℕ → ℕ → LogSegment}
  {scratch : ℕ → UInt8} {lsn : LSN} {code : ℕ}

/-- **Loading a complete record.**  At an encodable address, if the file holds
a record whose data is the image of `value` and the size code covers it, the
tuple is rebuilt exactly when the file holds the whole range that is read. -/
theorem loadFromStorage_record (hp : 0 < pageSize) (henc : lsn.Encodable) (hcode : code < 2 ^ 8)
    {seg : LogSegment} (hseg : getSegment lsn.logid lsn.segment = seg)
    {value : List UInt8} (hlen : value.length < 2 ^ 32)
    (hcover : sizeofLogRecord + (sizeofDbtuple + value.length) ≤ decodeSizeAligned code)
    (hdata : (recordAt seg.bytes (seg.offsetInSeg lsn.loffset)
      (sizeofDbtuple + value.length)).data = leBytes 4 value.length ++ value) :
    loadFromStorage directIo pageSize getSegment scratch (lsn.toPtr code) =
      if (readRange directIo pageSize (seg.offsetInSeg lsn.loffset) (decodeSizeAligned code)).1
        + (readRange directIo pageSize (seg.offsetInSeg lsn.loffset) (decodeSizeAligned code)).2
          ≤ seg.fileSize then
        some
          { size := value.length
            value := value
            csn := (CSN.make (recordAt seg.bytes (seg.offsetInSeg lsn.loffset) 0).csn).offset }
      else none := by
  have h24 : sizeofLogRecord = 24 := rfl
  have h4 : sizeofDbtuple = 4 := rfl
  rw [h24, h4] at hcover
  simp only [recordAt, h24, h4] at hdata
  rw [load_append] at hdata
  obtain ⟨hsize, hvalue⟩ := List.append_inj hdata (by simp)
  rw [Nat.add_assoc _ 24 4] at hvalue
  rw [loadFromStorage, if_pos (LSN.toPtr_asiType henc hcode)]
  simp only [LSN.from_toPtr henc hcode, LSN.toPtr_sizeCode henc hcode, hseg, recordAt, h24, h4]
  set off := seg.offsetInSeg lsn.loffset
  have hbuf : ∀ i n, i + n ≤ decodeSizeAligned code → _ :=
    fun i n h => load_buffer directIo (i := i) (n := n) off seg.bytes scratch hp h
  have hszval : leValue (leBytes 4 value.length) = value.length := by
    rw [leValue_leBytes]
    exact Nat.mod_eq_of_lt (by omega)
  rw [hbuf 24 4 (by omega), hsize, hszval, hbuf 16 8 (by omega), Nat.add_assoc _ 24 4,
    hbuf (24 + 4) value.length (by omega), hvalue]

end

end PreemptDB
