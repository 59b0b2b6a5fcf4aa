/-
Pipelined commit (`dbcore/pcommit.h`, `dbcore/pcommit.cpp`).

Any number of logs with their owners, who take a CSN, then call
`allocate_log_block` and then enqueue the transaction, and any number of threads
in `dequeue_committed_xcts`, which read the durable CSNs of the logs one after
the other and then release queue entries.  Flushes are issued by anybody.

A thread that runs `dequeue_committed_xcts` from `poll_flush` is one of those
threads; that the caller waits for it is not modelled.
-/
import Mathlib.Data.List.TakeWhile
import PreemptDB.TlsLog

namespace PreemptDB

open Function

/-- `commit_queue`: a ring of CSNs. -/
structure CommitQueue where
  queue : ℕ → ℕ
  start : ℕ
  items : ℕ
  length : ℕ

/-- What `push_back` reads and writes through its pointers. -/
structure PushFlags where
  flush : Bool
  insert : Bool
  deriving DecidableEq, Repr

namespace CommitQueue

/-- The slot of the entry `j`; indices have 32 bits. -/
def slot (q : CommitQueue) (j : ℕ) : ℕ := (q.start + j) % 2 ^ 32 % q.length

/-- `items >= length * 0.8`; the product is exact where it is whole. -/
def nearlyFull (q : CommitQueue) : Bool := 4 * q.length ≤ 5 * q.items

def stores (q : CommitQueue) (f : PushFlags) : Bool := f.insert && q.items < q.length

/-- `push_back`, with what it leaves in the flags. -/
def pushBack (q : CommitQueue) (csn : ℕ) (f : PushFlags) : CommitQueue × PushFlags :=
  let flush := f.flush || q.nearlyFull
  if q.stores f then
    ({ q with queue := Function.update q.queue (q.slot q.items) csn, items := q.items + 1 },
      ⟨flush, false⟩)
  else (q, ⟨flush, f.insert⟩)

/-- `extend` -/
def extend (q : CommitQueue) : CommitQueue :=
  { q with
    queue := fun i => if i < q.length then q.queue i else 0
    length := q.length * 2 % 2 ^ 32 }

/-- The entries as the loop of `dequeue_committed_xcts` reads them. -/
def entries (q : CommitQueue) : List ℕ := (List.range q.items).map fun j => q.queue (q.slot j)

def released (q : CommitQueue) (upto : ℕ) : List ℕ := q.entries.takeWhile (· ≤ upto)

/-- `dequeue_committed_xcts` up to a durable CSN; `%` traps on an empty array. -/
def dequeue (q : CommitQueue) (upto : ℕ) : Option CommitQueue :=
  if q.length = 0 then none
  else
    some { q with
      items := q.items - (q.released upto).length
      start := q.slot (q.released upto).length }

/-- A new queue. -/
def init (length : ℕ) : CommitQueue := ⟨fun _ => 0, 0, 0, length⟩

theorem le_of_mem_released {q : CommitQueue} {upto k : ℕ} (h : k ∈ q.released upto) :
    k ≤ upto := by
  simpa using List.mem_takeWhile_imp h

end CommitQueue

/-- A thread in `tls_committer::dequeue_committed_xcts` of the log `target`. -/
inductive Dequeuer
  /-- the loop of `get_global_durable_csn`, before it reads the word of log `i` -/
  | scanning (target i : ℕ) (found : Bool) (minDirty maxClean : ℕ)
  /-- `get_global_durable_csn` has returned -/
  | returned (target upto : ℕ)
  deriving DecidableEq, Repr

/-- One iteration of the loop of `get_global_durable_csn`. -/
def readDurableCsn (csn : ℕ) (target i : ℕ) (found : Bool) (minDirty maxClean : ℕ) : Dequeuer :=
  if csn ≠ 0 then
    if csn &&& dirtyFlag ≠ 0 then
      .scanning target (i + 1) true (min (csn &&& (dirtyFlag - 1)) minDirty) maxClean
    else if maxClean < csn then .scanning target (i + 1) found minDirty csn
    else .scanning target (i + 1) found minDirty maxClean
  else .scanning target (i + 1) found minDirty maxClean

/-- How many logs and dequeuing threads there are, and how the logs are set up. -/
structure PipeConfig where
  logs : ℕ
  threads : ℕ
  log : LogConfig

/-- The CSN counter, the logs with their queues, the CSNs that owners have taken
and not yet passed to `allocate_log_block`, and the dequeuing threads. -/
structure Pipeline where
  currentCsn : ℕ
  globalDurableCsn : ℕ
  log : ℕ → TlsLog
  drawn : ℕ → Option ℕ
  queue : ℕ → CommitQueue
  dequeuer : ℕ → Option Dequeuer

/-- The state before the first transaction; queues have room for `length` entries, and
`words` is what `malloc` has left in `_tls_durable_csn`. -/
def Pipeline.init (length : ℕ) (words : ℕ → UInt64) : Pipeline where
  currentCsn := 0
  globalDurableCsn := 0
  log := fun i => { TlsLog.init with durableCsn := (words i).toNat }
  drawn := fun _ => none
  queue := fun _ => .init length
  dequeuer := fun _ => none

/-- What happens in the pipeline. -/
inductive PipeAct
  /-- the owner of log `i` takes a CSN -/
  | draw (i : ℕ)
  /-- the owner of log `i` calls `allocate_log_block` -/
  | allocate (i payload : ℕ)
  /-- somebody calls `enqueue_flush` or `last_flush` of log `i` -/
  | flush (i : ℕ) (last : Bool)
  /-- the outstanding write of log `i` completes -/
  | complete (i : ℕ)
  /-- the holder of the lock of log `i` runs on -/
  | proceed (i : ℕ)
  /-- a transaction with CSN `csn` joins the queue of log `i` -/
  | enqueue (i csn : ℕ)
  | extend (i : ℕ)
  /-- thread `r` calls `dequeue_committed_xcts` of log `target` -/
  | scan (r target : ℕ)
  /-- thread `r` reads the next durable CSN -/
  | read (r : ℕ)
  /-- `get_global_durable_csn` returns in thread `r` -/
  | finish (r : ℕ)
  /-- thread `r` releases queue entries -/
  | release (r : ℕ)
  deriving DecidableEq, Repr

/-- The CSN of the block that the holder of the lock is allocating. -/
def LogPc.csn? : LogPc → Option ℕ
  | .allocate _ csn => some csn
  | .allocateFlush _ csn _ => some csn
  | _ => none

namespace Pipeline

/-- A step of log `i`. -/
def stepLog (P : PipeConfig) (s : Pipeline) (i : ℕ) (a : LogAct) : Option Pipeline :=
  if i < P.logs then
    (logStep P.log (s.log i) a).map fun L => { s with log := Function.update s.log i L }
  else none

def setDequeuer (s : Pipeline) (r : ℕ) (d : Option Dequeuer) : Pipeline :=
  { s with dequeuer := Function.update s.dequeuer r d }

/-- One step of the pipeline.  The owner of a log is one thread, so it takes no CSN
while it is in `allocate_log_block`. -/
def step (P : PipeConfig) (s : Pipeline) : PipeAct → Option Pipeline
  | .draw i =>
    if i < P.logs ∧ s.drawn i = none ∧ (s.log i).pc.csn? = none then
      some { s with
        currentCsn := s.currentCsn + 1
        drawn := Function.update s.drawn i (some s.currentCsn) }
    else none
  | .allocate i payload =>
    match s.drawn i with
    | some csn =>
      ({ s with drawn := Function.update s.drawn i none } : Pipeline).stepLog P i
        (.allocate payload csn)
    | none => none
  | .flush i last => s.stepLog P i (.flush last)
  | .complete i => s.stepLog P i .complete
  | .proceed i => s.stepLog P i .proceed
  | .enqueue i csn =>
    some { s with queue := Function.update s.queue i ((s.queue i).pushBack csn ⟨false, true⟩).1 }
  | .extend i => some { s with queue := Function.update s.queue i (s.queue i).extend }
  | .scan r target =>
    if r < P.threads ∧ s.dequeuer r = none then
      some (s.setDequeuer r (some (.scanning target 0 false (2 ^ 64 - 1) 0)))
    else none
  | .read r =>
    match s.dequeuer r with
    | some (.scanning target i found minDirty maxClean) =>
      if i < P.logs then
        some (s.setDequeuer r
          (some (readDurableCsn (s.log i).durableCsn target i found minDirty maxClean)))
      else none
    | _ => none
  | .finish r =>
    match s.dequeuer r with
    | some (.scanning target i found minDirty maxClean) =>
      if i < P.logs then none
      else
        let upto := if found then minDirty else maxClean
        some ({ s with globalDurableCsn := upto }.setDequeuer r (some (.returned target upto)))
    | _ => none
  | .release r =>
    match s.dequeuer r with
    | some (.returned target upto) =>
      ((s.queue target).dequeue upto).map fun q =>
        ({ s with queue := Function.update s.queue target q } : Pipeline).setDequeuer r none
    | _ => none

end Pipeline

end PreemptDB
