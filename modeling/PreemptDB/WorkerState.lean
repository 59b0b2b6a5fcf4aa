/-
The state of a worker thread (`uintr.cc`, `dbcore/epoch.cpp`, `dbcore/xid.cpp`).

A worker runs its main context on one OS thread.  What only that context writes
is `Own`: its lock counter and the locks it owns, its thread-local and local
variables, and its transaction.  The rest is `Shared`.  The primitives of the
program are few: the operations of `pcontext`, `lock` and `unlock` of a mutex,
an access to memory, and a change of the transaction.  By its type a memory
access keeps the locks and the transaction.

The worker's context has id 0 in both epoch managers, and log 0 is its own.
The lock counter is a natural number: it is as large as the calls are nested.
-/
import PreemptDB.Mvcc
import PreemptDB.Command

namespace PreemptDB

open Command

/-- The epoch managers `xid_epochs` and `mm_epochs`. -/
inductive EpochMgr
  | xid
  | mm
  deriving DecidableEq, Repr

/-- The locks that a transaction may block on. -/
inductive Lock
  /-- `tls_log::lock` of a log -/
  | tlsLog (i : ℕ)
  /-- `commit_queue::lock` of a log -/
  | commitQueue (i : ℕ)
  | tlogLock
  | tlsLogLock
  | pcommitDaemonLock
  | epochMutex (m : EpochMgr)
  | xidMutex
  /-- `sm_oid_mgr::mutexen` -/
  | oidFile (i : ℕ)
  | oidMutex
  /-- `mutex` of the thread's OID caches -/
  | oidContext
  deriving DecidableEq, Repr

/-- `epoch_mgr::context_state`. -/
structure ContextState where
  beginEpoch : ℕ
  endEpoch : ℕ
  straggler : Bool
  initialized : Bool
  deriving DecidableEq, Repr

/-- `epoch_mgr::private_state`, with the storage of all contexts. -/
structure EpochState where
  beginEpoch : ℕ
  endEpoch : ℕ
  readyForSafePoint : Bool
  nstragglers : ℕ
  /-- the registered contexts -/
  contexts : List ℕ
  context : ℕ → ContextState

/-- What other threads, and the preemptive context, may write. -/
structure Shared where
  /-- the locks they own -/
  taken : List Lock
  epochs : EpochMgr → EpochState
  /-- `xid_bitmaps[i].widx` -/
  widx : ℕ → ℕ
  /-- the version numbers of the masstree leaves -/
  nodeVersion : ℕ → ℕ
  currentCsn : ℕ
  /-- `tlogs.size()` -/
  tlogs : ℕ

/-- Change one epoch manager. -/
def Shared.modify (g : Shared) (m : EpochMgr) (f : EpochState → EpochState) : Shared :=
  { g with epochs := Function.update g.epochs m (f (g.epochs m)) }

/-- Change one context of an epoch manager. -/
def EpochState.modifyContext (E : EpochState) (c : ℕ) (f : ContextState → ContextState) :
    EpochState :=
  { E with context := Function.update E.context c (f (E.context c)) }

/-- The context of the worker. -/
def EpochState.self (E : EpochState) : ContextState := E.context 0

/-- `context_is_active`. -/
def ContextState.isActive (C : ContextState) : Bool := C.endEpoch < C.beginEpoch

/-- The contexts that an epoch change from `n` flags as stragglers. -/
def EpochState.stragglers (E : EpochState) (n : ℕ) : List ℕ :=
  E.contexts.filter fun c =>
    (E.context c).beginEpoch + 1 = n && (E.context c).endEpoch < (E.context c).beginEpoch

/-- Set the straggler flag of some contexts. -/
def EpochState.notify (E : EpochState) (cs : List ℕ) : EpochState :=
  { E with
    nstragglers := cs.length
    context := fun c =>
      if c ∈ cs then { E.context c with straggler := true } else E.context c }

/-- `pcontext`: may a user interrupt be delivered, and the lock counter; with
the locks the context owns. -/
structure Pcontext where
  /-- the handler is registered and UIF is set -/
  uintr : Bool
  lockCounter : ℕ
  owned : List Lock
  deriving DecidableEq, Repr

/-- Thread-local variables, and the local variables of the functions below. -/
structure Regs where
  /-- the thread has OID caches -/
  cls : Bool
  -- `xid_context_data`
  xidInitialized : Bool
  epoch : ℕ
  bitmap : ℕ
  baseId : ℕ
  -- `context_enter` and `context_exit`
  tmp : ℕ
  tmp2 : ℕ
  retry : Bool
  /-- the stragglers left, in `straggler_ended` -/
  left : ℕ
  -- `new_epoch`, and what it returned
  N : ℕ
  stragglers : List ℕ
  reclaimDirectly : Bool
  opened : Bool
  -- `xid_alloc`
  e : ℕ
  i : ℕ
  got : Bool
  /-- the CSN that `fetch_add` returned -/
  csn : ℕ
  /-- `old_version` in `insert_info` -/
  oldVersion : ℕ
  -- `enqueue_committed_xct`
  flush : Bool
  insert : Bool
  count : ℕ
  deriving DecidableEq, Repr

/-- The running transaction with its context. -/
structure WorkerTxn where
  state : TxnState
  xid : XID
  beginEpoch : ℕ
  beginCsn : ℕ
  endCsn : ℕ
  /-- the context still belongs to the transaction -/
  live : Bool
  readOnly : Bool
  cswitch : Bool
  /-- `log` is not NULL -/
  log : Bool
  writeSet : List Entry
  /-- the loop variable of `si_commit` and `Abort` -/
  idx : ℕ
  /-- the CSN of the version under construction -/
  obj : CsnPtr
  /-- the versions it has linked as chain heads, with their CSN -/
  linked : List (Entry × CsnPtr)
  /-- `masstree_absent_set` -/
  absentSet : List (ℕ × ℕ)
  /-- `si_commit` returned `RC_TRUE` -/
  ret : Bool
  deriving DecidableEq, Repr

/-- What only the main context writes. -/
structure Own where
  pc : Pcontext
  /-- `initialized` of `GetLog` -/
  logInitialized : Bool
  regs : Regs
  txn : WorkerTxn
  deriving DecidableEq, Repr

/-- The primitives. -/
inductive Op
  /-- `pcontext::lock` -/
  | lock
  /-- `pcontext::unlock` -/
  | unlock
  | clui
  | stui
  | acquire (l : Lock)
  | release (l : Lock)
  /-- `initialized = true` in `GetLog` -/
  | initLog
  /-- an access to memory; `none` is a failed `DIE_IF` -/
  | mem (f : Regs → WorkerTxn → Shared → Option (Regs × Shared))
  /-- a change of the transaction, its context or its versions -/
  | txn (f : Regs → WorkerTxn → Shared → Option WorkerTxn)

/-- The tests.  Two of them are named, because runs are told apart by them. -/
inductive Test
  /-- `end < tmp` in `straggler_check` -/
  | endBefore (m : EpochMgr) (tmp : Regs → ℕ)
  /-- `phantom_prot && !MasstreeCheckPhantom()` in `si_commit` -/
  | phantom
  | cond (f : Own → Shared → Bool)

/-- The settings of `config` that the functions below read. -/
structure WorkerConfig where
  phantomProt : Bool
  tlsAlloc : Bool
  pcommit : Bool
  pcommitThread : Bool
  deriving DecidableEq, Repr

/-- `MasstreeCheckPhantom`. -/
def masstreeCheckPhantom (absentSet : List (ℕ × ℕ)) (g : Shared) : Bool :=
  absentSet.all fun r => g.nodeVersion r.1 = r.2

/-- `lock` of a mutex waits while anyone owns it, this context included. -/
def Op.exec : Op → Own → Shared → Option (Own × Shared)
  | lock, o, g => some ({ o with pc.lockCounter := o.pc.lockCounter + 1 }, g)
  | unlock, o, g => some ({ o with pc.lockCounter := o.pc.lockCounter - 1 }, g)
  | clui, o, g => some ({ o with pc.uintr := false }, g)
  | stui, o, g => some ({ o with pc.uintr := true }, g)
  | acquire l, o, g =>
    if l ∈ o.pc.owned ∨ l ∈ g.taken then none
    else some ({ o with pc.owned := l :: o.pc.owned }, g)
  | release l, o, g => some ({ o with pc.owned := o.pc.owned.erase l }, g)
  | initLog, o, g => some ({ o with logInitialized := true }, g)
  | mem f, o, g => (f o.regs o.txn g).map fun r => ({ o with regs := r.1 }, r.2)
  | txn f, o, g => (f o.regs o.txn g).map fun t => ({ o with txn := t }, g)

/-- The value of a test. -/
def Test.eval (cfg : WorkerConfig) : Test → Own → Shared → Bool
  | endBefore m tmp, o, g => (g.epochs m).endEpoch < tmp o.regs
  | phantom, o, g => cfg.phantomProt && !masstreeCheckPhantom o.txn.absentSet g
  | cond f, o, g => f o g

/-- The machine a worker runs on. -/
def workerMachine (cfg : WorkerConfig) : Machine Op Test Own Shared where
  exec := Op.exec
  test := Test.eval cfg

/-- A piece of the worker's program. -/
abbrev Prog := Cmd Op Test

/-- What the others do that the worker can notice.  An epoch change is four
steps: `begin` moves first, then stragglers are flagged, then `end` follows, all
with the mutex held, and the epoch is reclaimed later. -/
inductive OtherAct
  | acquire (l : Lock)
  | release (l : Lock)
  | openEpoch (m : EpochMgr)
  | flagStragglers (m : EpochMgr)
  | closeEpoch (m : EpochMgr)
  | quiesce (m : EpochMgr)
  /-- another context enters or leaves -/
  | context (m : EpochMgr) (c : ℕ) (C : ContextState)
  | insertNode (n : ℕ)
  | takeWord (b : ℕ)
  | drawCsn
  | addLog
  deriving DecidableEq, Repr

/-- A step of the others, while the worker owns the locks `owned`. -/
def Shared.step (owned : List Lock) (g : Shared) : OtherAct → Option Shared
  | .acquire l =>
    if l ∈ owned ∨ l ∈ g.taken then none else some { g with taken := l :: g.taken }
  | .release l =>
    if l ∈ g.taken then some { g with taken := g.taken.erase l } else none
  | .openEpoch m =>
    let E := g.epochs m
    if .epochMutex m ∈ g.taken ∧ E.readyForSafePoint ∧ E.endEpoch = E.beginEpoch then
      some (g.modify m fun E =>
        { E with beginEpoch := E.beginEpoch + 1, readyForSafePoint := false })
    else none
  | .flagStragglers m =>
    let E := g.epochs m
    if .epochMutex m ∈ g.taken ∧ E.endEpoch < E.beginEpoch then
      some (g.modify m fun E => E.notify (E.stragglers E.endEpoch))
    else none
  | .closeEpoch m =>
    let E := g.epochs m
    if .epochMutex m ∈ g.taken ∧ E.endEpoch < E.beginEpoch then
      some (g.modify m fun E => { E with endEpoch := E.beginEpoch })
    else none
  | .quiesce m => some (g.modify m fun E => { E with readyForSafePoint := true })
  | .context m c C =>
    if c = 0 then none else some (g.modify m fun E => E.modifyContext c fun _ => C)
  | .insertNode n =>
    some { g with nodeVersion := Function.update g.nodeVersion n (g.nodeVersion n + 1) }
  | .takeWord b => some { g with widx := Function.update g.widx b (g.widx b + 1) }
  | .drawCsn => some { g with currentCsn := g.currentCsn + 1 }
  | .addLog => some { g with tlogs := g.tlogs + 1 }

end PreemptDB
