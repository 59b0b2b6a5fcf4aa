/-
One thread-local log (`dbcore/dlog.h`, `dbcore/dlog.cpp`): two log buffers, the
segments, one outstanding write, and the durable CSN that the log publishes.

Every call takes the lock of the log, so calls do not overlap; within a call
`proceed` runs to the next point at which other threads can see a difference or
the call has to wait.  Those points are the store of the dirty flag, the polling
of a completion (which stores the durable CSN) and the end of the call.  The
write itself completes at any time (`complete`).

The log device is not null.  Three fields are ghosts that no action reads: the
blocks in the active buffer, the writes polled so far, and all blocks returned.
-/
import PreemptDB.LogRecord
import PreemptDB.StepRun

namespace PreemptDB

/-- The parameters of a log. -/
structure LogConfig where
  logbufSize : ℕ
  segmentSize : ℕ
  directIo : Bool

/-- `dlog::segment`: where it begins in the log, and the bytes written and
expected to be written to its file. -/
structure Segment where
  startOffset : ℕ
  size : ℕ
  expectedSize : ℕ
  deriving DecidableEq, Repr

/-- A block as `allocate_log_block` returns it: its LSN, segment number and CSN,
and where it lies in the log buffer. -/
structure Block where
  lsn : ℕ
  segnum : ℕ
  csn : ℕ
  bufOffset : ℕ
  size : ℕ
  deriving DecidableEq, Repr

/-- A write submitted to the ring: the beginning of a log buffer goes to `offset`
of the file of a segment. -/
structure Write where
  segment : ℕ
  offset : ℕ
  size : ℕ
  blocks : List Block
  deriving DecidableEq, Repr

/-- Where the holder of the lock of a log is. -/
inductive LogPc
  /-- nobody holds the lock -/
  | unlocked
  /-- `allocate_log_block`, after the dirty flag is set -/
  | allocate (payload csn : ℕ)
  /-- `allocate_log_block` in `issue_flush` -/
  | allocateFlush (payload csn : ℕ) (newSegment : Bool)
  /-- `enqueue_flush`, or `last_flush` -/
  | flush (last : Bool)
  /-- `last_flush` waits for its own write -/
  | lastPoll
  deriving DecidableEq, Repr

/-- `tls_log`; `old` are the closed segments and `current` is the open one, `ring`
holds the outstanding write, which has `completed` or not, and `durableCsn` is the
word of the log in `_tls_durable_csn`. -/
structure TlsLog where
  flushing : Bool
  active : Bool
  lastCsns : Bool → ℕ
  latestCsn : ℕ
  logbufOffset : ℕ
  durableLsn : ℕ
  currentLsn : ℕ
  old : List Segment
  current : Segment
  ring : Option Write
  completed : Bool
  durableCsn : ℕ
  pc : LogPc
  buffered : List Block
  written : List Write
  allocated : List Block

/-- `DIRTY_FLAG`. -/
def dirtyFlag : ℕ := 1 <<< 63

/-- The size of a block with the given payload, a 32-bit integer. -/
def allocSize (payload : ℕ) : ℕ := (payload + pageSize) % 2 ^ 32

namespace TlsLog

/-- After `initialize`. -/
def init : TlsLog where
  flushing := false
  active := false
  lastCsns := fun _ => 0
  latestCsn := 0
  logbufOffset := 0
  durableLsn := 0
  currentLsn := 0
  old := []
  current := ⟨0, 0, 0⟩
  ring := none
  completed := false
  durableCsn := 0
  pc := .unlocked
  buffered := []
  written := []
  allocated := []

def segments (L : TlsLog) : List Segment := L.old ++ [L.current]

/-- All writes submitted so far. -/
def submitted (L : TlsLog) : List Write := L.written ++ L.ring.toList

/-- `set_dirty_flag`. -/
def setDirtyFlag (L : TlsLog) : TlsLog := { L with durableCsn := L.durableCsn ||| dirtyFlag }

/-- `switch_log_buffers`. -/
def switchLogBuffers (L : TlsLog) : TlsLog :=
  { L with active := !L.active, logbufOffset := 0, buffered := [] }

/-- `create_segment`, and the start offset of the new segment. -/
def createSegment (L : TlsLog) : TlsLog :=
  { L with old := L.old ++ [L.current], current := ⟨L.currentLsn, 0, 0⟩ }

/-- `align_up_flush_size`; a size beyond the log buffer stops the process. -/
def alignUpFlushSize (cfg : LogConfig) (size : ℕ) : Option ℕ :=
  if cfg.directIo then
    if cfg.logbufSize < alignUp size pageSize then none else some (alignUp size pageSize)
  else some size

/-- The padding before a flush; `logbuf_offset` is a 32-bit integer. -/
def pad (cfg : LogConfig) (L : TlsLog) : Option TlsLog :=
  (alignUpFlushSize cfg L.logbufOffset).map fun aligned =>
    { L with
      currentLsn := L.currentLsn + (aligned - L.logbufOffset)
      logbufOffset := aligned % 2 ^ 32 }

/-- `poll_flush`, which waits for the completion, and the reset of `flushing` by
its caller.  The bytes are added to the segment that is open now. -/
def pollFlush (L : TlsLog) : Option TlsLog :=
  match L.ring with
  | some w =>
    if L.completed then
      some { L with
        flushing := false
        ring := none
        written := L.written ++ [w]
        durableLsn := L.durableLsn + w.size
        current := { L.current with size := L.current.size + w.size }
        durableCsn := L.lastCsns (!L.active) }
    else none
  | none => none

/-- `issue_flush` of the active buffer, when no write is outstanding. -/
def issueFlush (L : TlsLog) : TlsLog :=
  { L with
    flushing := true
    ring := some
      { segment := L.old.length
        offset := L.current.size
        size := L.logbufOffset
        blocks := L.buffered }
    completed := false
    current := { L.current with expectedSize := L.current.expectedSize + L.logbufOffset } }

/-- The end of `allocate_log_block`: the block is taken from the active buffer. -/
def place (L : TlsLog) (payload csn : ℕ) : TlsLog :=
  let lb : Block := ⟨L.currentLsn, L.old.length, csn, L.logbufOffset, allocSize payload⟩
  { L with
    logbufOffset := (L.logbufOffset + allocSize payload) % 2 ^ 32
    currentLsn := L.currentLsn + allocSize payload
    latestCsn := csn
    lastCsns := Function.update L.lastCsns L.active csn
    pc := .unlocked
    buffered := L.buffered ++ [lb]
    allocated := L.allocated ++ [lb] }

/-- The block would go beyond the segment; the two 32-bit sizes are added as such. -/
def needsSegment (cfg : LogConfig) (L : TlsLog) (payload : ℕ) : Bool :=
  cfg.segmentSize < (allocSize payload + L.logbufOffset) % 2 ^ 32 + L.current.expectedSize

/-- The block does not fit into the rest of the buffer. -/
def needsBuffer (cfg : LogConfig) (L : TlsLog) (payload : ℕ) : Bool :=
  cfg.logbufSize < (allocSize payload + L.logbufOffset) % 2 ^ 32

/-- `allocate_log_block` after a flush. -/
def finishAllocate (L : TlsLog) (payload csn : ℕ) (newSegment : Bool) : TlsLog :=
  (if newSegment then L.createSegment else L).place payload csn

/-- The holder of the lock runs on. -/
def proceed (cfg : LogConfig) (L : TlsLog) : Option TlsLog :=
  match L.pc with
  | .unlocked => none
  | .allocate payload csn =>
    if cfg.logbufSize < allocSize payload then none
    else if (needsBuffer cfg L payload || needsSegment cfg L payload) ∧ L.logbufOffset ≠ 0 then
      (L.pad cfg).map fun L' =>
        { L' with pc := .allocateFlush payload csn (needsSegment cfg L payload) }
    else some (L.finishAllocate payload csn (needsSegment cfg L payload))
  | .allocateFlush payload csn newSegment =>
    if L.flushing then L.pollFlush
    else some (L.issueFlush.switchLogBuffers.finishAllocate payload csn newSegment)
  | .flush last =>
    if L.flushing then L.pollFlush
    else if L.logbufOffset ≠ 0 then
      (L.pad cfg).map fun L' =>
        { L'.issueFlush.switchLogBuffers with pc := if last then .lastPoll else .unlocked }
    else some { L with pc := .unlocked }
  | .lastPoll => L.pollFlush.map fun L' => { L' with pc := .unlocked }

end TlsLog

/-- What happens on one log. -/
inductive LogAct
  /-- a call of `allocate_log_block` for a payload that is not empty -/
  | allocate (payload csn : ℕ)
  /-- a call of `enqueue_flush` or `last_flush` -/
  | flush (last : Bool)
  /-- the outstanding write completes -/
  | complete
  /-- the holder of the lock runs on -/
  | proceed
  deriving DecidableEq, Repr

/-- One step of a log. -/
def logStep (cfg : LogConfig) (L : TlsLog) : LogAct → Option TlsLog
  | .allocate payload csn =>
    if L.pc = .unlocked ∧ 0 < payload ∧ payload < 2 ^ 32 then
      some { L.setDirtyFlag with pc := .allocate payload csn }
    else none
  | .flush last =>
    if L.pc = .unlocked then some { L with pc := .flush last } else none
  | .complete =>
    if L.ring.isSome ∧ L.completed = false then some { L with completed := true } else none
  | .proceed => L.proceed cfg

/-- What a step of a log does, branch by branch. -/
inductive LogMove (cfg : LogConfig) (L : TlsLog) : LogAct → TlsLog → Prop
  | allocate (payload csn : ℕ) (hpc : L.pc = .unlocked) :
      LogMove cfg L (.allocate payload csn) { L.setDirtyFlag with pc := .allocate payload csn }
  | flush (last : Bool) (hpc : L.pc = .unlocked) :
      LogMove cfg L (.flush last) { L with pc := .flush last }
  | complete (hring : L.ring.isSome) (hdone : L.completed = false) :
      LogMove cfg L .complete { L with completed := true }
  | pad (payload csn : ℕ) (M : TlsLog) (hpc : L.pc = .allocate payload csn)
      (hsize : ¬ cfg.logbufSize < allocSize payload)
      (hfull : (L.needsBuffer cfg payload || L.needsSegment cfg payload) ∧ L.logbufOffset ≠ 0)
      (hM : L.pad cfg = some M) : LogMove cfg L .proceed
        { M with pc := .allocateFlush payload csn (L.needsSegment cfg payload) }
  | place (payload csn : ℕ) (hpc : L.pc = .allocate payload csn)
      (hsize : ¬ cfg.logbufSize < allocSize payload)
      (hroom : ¬ ((L.needsBuffer cfg payload || L.needsSegment cfg payload) ∧
        L.logbufOffset ≠ 0)) :
      LogMove cfg L .proceed (L.finishAllocate payload csn (L.needsSegment cfg payload))
  | pollAllocate (payload csn : ℕ) (n : Bool) (M : TlsLog)
      (hpc : L.pc = .allocateFlush payload csn n) (hf : L.flushing = true)
      (hM : L.pollFlush = some M) : LogMove cfg L .proceed M
  | switch (payload csn : ℕ) (n : Bool) (hpc : L.pc = .allocateFlush payload csn n)
      (hf : L.flushing = false) :
      LogMove cfg L .proceed (L.issueFlush.switchLogBuffers.finishAllocate payload csn n)
  | poll (last : Bool) (M : TlsLog) (hpc : L.pc = .flush last) (hf : L.flushing = true)
      (hM : L.pollFlush = some M) : LogMove cfg L .proceed M
  | issue (last : Bool) (M : TlsLog) (hpc : L.pc = .flush last) (hf : L.flushing = false)
      (h0 : L.logbufOffset ≠ 0) (hM : L.pad cfg = some M) : LogMove cfg L .proceed
        { M.issueFlush.switchLogBuffers with pc := if last then .lastPoll else .unlocked }
  | empty (last : Bool) (hpc : L.pc = .flush last) (hf : L.flushing = false)
      (h0 : L.logbufOffset = 0) : LogMove cfg L .proceed { L with pc := .unlocked }
  | lastPoll (M : TlsLog) (hpc : L.pc = .lastPoll) (hM : L.pollFlush = some M) :
      LogMove cfg L .proceed { M with pc := .unlocked }

theorem logStep_move {cfg : LogConfig} {L L' : TlsLog} {a : LogAct}
    (hs : logStep cfg L a = some L') : LogMove cfg L a L' := by
  cases a with
  | allocate payload csn =>
    obtain ⟨hg, hs⟩ := Option.ite_none_right_eq_some.mp hs
    cases hs
    exact .allocate _ _ hg.1
  | flush last =>
    obtain ⟨hpc, hs⟩ := Option.ite_none_right_eq_some.mp hs
    cases hs
    exact .flush _ hpc
  | complete =>
    obtain ⟨hg, hs⟩ := Option.ite_none_right_eq_some.mp hs
    cases hs
    exact .complete hg.1 hg.2
  | proceed =>
    simp only [logStep] at hs
    revert hs
    fun_cases TlsLog.proceed cfg L
    case case1 | case2 => rintro ⟨⟩
    case case3 payload csn hpc hsize hfull =>
      intro hs
      obtain ⟨M, hM, rfl⟩ := Option.map_eq_some_iff.mp hs
      exact .pad _ _ M hpc hsize hfull hM
    case case4 payload csn hpc hsize hroom =>
      rintro ⟨⟩
      exact .place _ _ hpc hsize hroom
    case case5 payload csn n hpc hf => exact .pollAllocate _ _ _ _ hpc hf
    case case6 payload csn n hpc hf =>
      rintro ⟨⟩
      exact .switch _ _ _ hpc (Bool.eq_false_iff.mpr hf)
    case case7 last hpc hf => exact .poll _ _ hpc hf
    case case8 last hpc hf h0 =>
      intro hs
      obtain ⟨M, hM, rfl⟩ := Option.map_eq_some_iff.mp hs
      exact .issue _ M hpc (Bool.eq_false_iff.mpr hf) h0 hM
    case case9 last hpc hf h0 =>
      rintro ⟨⟩
      exact .empty _ hpc (Bool.eq_false_iff.mpr hf) (not_not.mp h0)
    case case10 hpc =>
      intro hs
      obtain ⟨M, hM, rfl⟩ := Option.map_eq_some_iff.mp hs
      exact .lastPoll M hpc hM

end PreemptDB
