/-
The program of a worker thread (`uintr.cc`, `engine.cc`, `engine.h`, `txn.cc`,
`dbcore/epoch.cpp`, `dbcore/xid.cpp`, `dbcore/sm-oid.cpp`, `dbcore/sm-alloc.cpp`,
`dbcore/dlog.cpp`, `dbcore/pcommit.cpp`, `benchmarks/tpcc/tpcc-sequential.cc`).

Every function is the command it executes, down to the loop of `MyWork`.  A
`goto retry` is a loop over a flag.  A branch on data that is not part of the
state (a full cache, a full commit queue, the records a transaction finds) is a
choice, and so are the requests themselves: what holds of all choices holds of
all such data.  Reads of records and of the index touch none of the state and
are left out.

* `Worker.step` — the main context takes a step, others do, a user interrupt
  arrives, or the preemptive context swaps back.
-/
import PreemptDB.WorkerState

namespace PreemptDB

open Command Command.Cmd

/-- Change local and thread-local variables. -/
def assign (f : Regs → Shared → Regs) : Prog := .prim (.mem fun r _ g => some (f r g, g))

/-- Write to shared memory. -/
def store (f : Regs → Shared → Shared) : Prog := .prim (.mem fun r _ g => some (r, f r g))

/-- Write to the worker's context in an epoch manager. -/
def storeSelf (m : EpochMgr) (f : Regs → ContextState → ContextState) : Prog :=
  store fun r g => g.modify m fun E => E.modifyContext 0 (f r)

/-- `DIE_IF (not b)`. -/
def dieUnless (b : Shared → Bool) : Prog :=
  .prim (.mem fun r _ g => if b g then some (r, g) else none)

/-- Change the transaction. -/
def setTxn (f : Regs → WorkerTxn → WorkerTxn) : Prog := .prim (.txn fun r t _ => some (f r t))

/-- One of two ways to go on. -/
def choice (c d : Prog) : Prog := .pick fun i => if i = 0 then c else d

/-- A test on local variables and shared memory. -/
def onRegs (f : Regs → Shared → Bool) : Test := .cond fun o g => f o.regs g

/-- A test on the transaction. -/
def onTxn (f : WorkerTxn → Bool) : Test := .cond fun o _ => f o.txn

/-- `pcontext::lock(); c; pcontext::unlock();` -/
def locked (c : Prog) : Prog := block [.prim .lock, c, .prim .unlock]

/-- A scope that owns `l`. -/
def criticalSection (l : Lock) (c : Prog) : Prog :=
  block [.prim (.acquire l), c, .prim (.release l)]

/-- `pcontext::lock(); l.lock(); DEFER({l.unlock(); pcontext::unlock();}); c` -/
def deferUnlock (l : Lock) (c : Prog) : Prog := locked (criticalSection l c)

/-- `pcontext::lock(); std::lock_guard guard(l); c; pcontext::unlock();` in one
scope: the guard goes out of scope last, so `l` is owned a little longer than
the counter is raised. -/
def lockGuard (l : Lock) (c : Prog) : Prog :=
  block [.prim .lock, .prim (.acquire l), c, .prim .unlock, .prim (.release l)]

section EpochMgr

variable (m : EpochMgr)

/-- `global_quiesce`. -/
def globalQuiesce : Prog :=
  store fun _ g => g.modify m fun E => { E with readyForSafePoint := true }

/-- `straggler_ended`. -/
def stragglerEnded : Prog :=
  block [
    .prim (.mem fun r _ g =>
      let n := (g.epochs m).nstragglers - 1
      some ({ r with left := n }, g.modify m fun E => { E with nstragglers := n })),
    .ite (onRegs fun r _ => r.left = 0) (globalQuiesce m) .skip]

/-- `straggler_check`: an epoch change in progress is waited for by taking its
mutex. -/
def stragglerCheck (tmp : Regs → ℕ) : Prog :=
  block [
    .ite (.endBefore m tmp) (criticalSection (.epochMutex m) .skip) .skip,
    .ite (onRegs fun _ g => (g.epochs m).self.straggler)
      (block [storeSelf m fun _ C => { C with straggler := false }, stragglerEnded m])
      .skip]

/-- `new_epoch`. -/
def newEpoch : Prog :=
  block [
    criticalSection (.epochMutex m)
      (.ite (onRegs fun _ g => (g.epochs m).readyForSafePoint)
        (block [
          assign fun r g => { r with N := (g.epochs m).beginEpoch },
          store fun r g => g.modify m fun E => { E with beginEpoch := r.N + 1 },
          store fun _ g => g.modify m fun E => { E with readyForSafePoint := false },
          assign fun r g => { r with stragglers := (g.epochs m).stragglers r.N },
          .ite (onRegs fun r _ => !r.stragglers.isEmpty)
            (store fun r g => g.modify m fun E => E.notify r.stragglers) .skip,
          store fun r g => g.modify m fun E => { E with endEpoch := r.N + 1 },
          assign fun r _ =>
            { r with reclaimDirectly := r.stragglers.isEmpty, opened := true }])
        (assign fun r _ => { r with reclaimDirectly := false, opened := false })),
    -- declared before the critical section, so it runs after it
    .ite (onRegs fun r _ => r.reclaimDirectly) (globalQuiesce m) .skip]

/-- `context_init`, with the callback `context_registered`. -/
def contextInit : Prog :=
  block [
    dieUnless fun g => !(g.epochs m).self.initialized,
    storeSelf m fun _ C => { C with initialized := true },
    criticalSection (.epochMutex m)
      (block [
        store fun _ g => g.modify m fun E => { E with contexts := 0 :: E.contexts },
        assign fun r _ =>
          if m = .xid then { r with xidInitialized := true, epoch := 0, bitmap := 0, baseId := 0 }
          else r])]

/-- `context_enter`; the epoch is returned in `tmp`. -/
def contextEnter : Prog :=
  block [
    dieUnless fun g => (g.epochs m).self.initialized,
    dieUnless fun g => !(g.epochs m).self.isActive,
    assign fun r _ => { r with retry := true },
    .loop (onRegs fun r _ => r.retry)
      (block [
        assign fun r g => { r with tmp := (g.epochs m).beginEpoch },
        storeSelf m fun _ C => { C with endEpoch := 0 },
        storeSelf m fun r C => { C with beginEpoch := r.tmp },
        assign fun r g => { r with tmp2 := (g.epochs m).beginEpoch },
        -- `switch (tmp2 - tmp)`
        .ite (onRegs fun r _ => r.tmp2 - r.tmp < 2)
          (block [
            assign fun r _ => { r with retry := false },
            .ite (onRegs fun _ g => (g.epochs m).self.straggler)
              (block [
                assign fun r _ => { r with retry := true },
                storeSelf m fun r C => { C with endEpoch := r.tmp2 },
                stragglerCheck m Regs.tmp2])
              .skip])
          (block [
            storeSelf m fun r C => { C with endEpoch := r.tmp2 },
            .ite (onRegs fun r _ => r.tmp2 - r.tmp = 2) (stragglerCheck m Regs.tmp2) .skip])])]

/-- `context_exit`. -/
def contextExit : Prog :=
  block [
    dieUnless fun g => (g.epochs m).self.isActive,
    assign fun r g => { r with tmp := (g.epochs m).beginEpoch },
    storeSelf m fun r C => { C with endEpoch := r.tmp },
    .ite (onRegs fun r g => r.tmp < (g.epochs m).self.beginEpoch + 2)
      (block [
        assign fun r g => { r with tmp := (g.epochs m).endEpoch },
        .ite (onRegs fun r g => r.tmp < (g.epochs m).self.beginEpoch + 2) .skip
          (stragglerCheck m Regs.tmp)])
      (stragglerCheck m Regs.tmp)]

end EpochMgr

/-- The number of transaction contexts. -/
def ncontexts : ℕ := 128 * 32768

/-- The words of a bitmap. -/
def nwords : ℕ := ncontexts / 2 / 64

/-- `take_one`: the lowest set bit of the word names the context. -/
def takeOne : Prog :=
  block [
    setTxn fun r t =>
      { t with
        xid := r.epoch * ncontexts + r.baseId +
          Nat.log2 (r.bitmap ^^^ (r.bitmap &&& (r.bitmap - 1)))
        live := true
        endCsn := 0
        state := .active
        linked := [] },
    assign fun r _ => { r with bitmap := r.bitmap &&& (r.bitmap - 1) }]

/-- `xid_alloc`; the word it swaps out of a bitmap may be any, also 0. -/
def xidAlloc : Prog :=
  block [
    locked (.ite (onRegs fun r _ => !r.xidInitialized) (contextInit .xid) .skip),
    .loop (onRegs fun r _ => r.bitmap = 0)
      (block [
        contextEnter .xid,
        assign fun r _ => { r with e := r.tmp },
        assign fun r g => { r with i := g.widx (r.e % 4), got := false },
        .loop (onRegs fun r _ => r.i < nwords && !r.got)
          (.prim (.mem fun r _ g =>
            let b := r.e % 4
            if g.widx b = r.i then
              some ({ r with got := true },
                { g with widx := Function.update g.widx b (r.i + 1) })
            else some ({ r with i := g.widx b }, g))),
        .ite (onRegs fun r _ => r.i = nwords)
          (block [
            contextExit .xid,
            deferUnlock .xidMutex
              (.ite (onRegs fun r g => r.e = (g.epochs .xid).beginEpoch)
                (block [
                  store fun r g => { g with widx := Function.update g.widx ((r.e + 1) % 4) 0 },
                  assign fun r _ => { r with opened := false },
                  .loop (onRegs fun r _ => !r.opened) (newEpoch .xid)])
                .skip)])
          (block [
            assign fun r _ =>
              { r with epoch := r.e, baseId := (r.e % 2) * ncontexts / 2 + r.i * 64 },
            .pick fun w => assign fun r _ => { r with bitmap := w % 2 ^ 64 },
            contextExit .xid])]),
    takeOne]

/-- `xid_free`. -/
def xidFree : Prog := setTxn fun _ t => { t with live := false }

/-- `tls_log::initialize`. -/
def tlsLogInitialize : Prog := lockGuard .tlsLogLock .skip

/-- `GetLog`. -/
def getLog : Prog :=
  .ite (.cond fun o _ => !o.logInitialized)
    (lockGuard .tlogLock
      (block [
        tlsLogInitialize,
        .prim .initLog,
        store fun _ g => { g with tlogs := g.tlogs + 1 }]))
    .skip

/-- `sm_oid_mgr::lock_file` of the mutex for a file. -/
def fileMutex (f : ℕ) : Lock := .oidFile (f % 256)

/-- `context_revoke_caches`. -/
def contextRevokeCaches : Prog :=
  block [
    .star (.pick fun f => deferUnlock (fileMutex f) .skip),
    deferUnlock .oidContext .skip]

/-- `context_cache`, with `context_init` of the OID manager. -/
def contextCache : Prog :=
  block [
    locked (.ite (onRegs fun r _ => !r.cls)
      (deferUnlock .oidMutex (assign fun r _ => { r with cls := true })) .skip),
    choice .skip contextRevokeCaches]

/-- `alloc_oid`, with `context_allocate`; an OID of 0 is thrown away. -/
def allocOid (f : ℕ) : Prog :=
  let contextAllocate := block [contextCache, choice .skip (deferUnlock (fileMutex f) .skip)]
  block [contextAllocate, .star contextAllocate]

/-- The constructor of `transaction`. -/
def newTransaction (cfg : WorkerConfig) (readOnly cswitch : Bool) : Prog :=
  block [
    setTxn fun _ t =>
      { t with readOnly := readOnly, cswitch := cswitch, log := false, writeSet := [],
               absentSet := [] },
    xidAlloc,
    if !cswitch && cfg.tlsAlloc then
      block [contextEnter .mm, setTxn fun r t => { t with beginEpoch := r.tmp }]
    else setTxn fun _ t => { t with beginEpoch := 0 },
    getLog,
    .prim (.txn fun _ t g => some { t with log := true, beginCsn := g.currentCsn })]

/-- `MM::epoch_exit`; whether enough was allocated for a new epoch is a choice. -/
def epochExit : Prog :=
  block [
    .ite (onTxn fun t => t.endCsn ≠ 0)
      (choice .skip
        (.ite (onRegs fun _ g => (g.epochs .mm).readyForSafePoint) (newEpoch .mm) .skip))
      .skip,
    contextExit .mm]

/-- `transaction::uninitialize`. -/
def uninitialize (cfg : WorkerConfig) : Prog :=
  block [
    if cfg.tlsAlloc then .ite (onTxn fun t => t.cswitch) .skip epochExit else .skip,
    xidFree]

/-- `SetCSN` on the head of the chain of the current write-set entry. -/
def WorkerTxn.setCsn (t : WorkerTxn) (c : CsnPtr) : WorkerTxn :=
  { t with linked := t.linked.map fun v => if t.writeSet[t.idx]? = some v.1 then (v.1, c) else v }

/-- `UnlinkTuple` of the current write-set entry. -/
def WorkerTxn.unlinkTuple (t : WorkerTxn) : WorkerTxn :=
  { t with linked := t.linked.filter fun v => t.writeSet[t.idx]? ≠ some v.1 }

/-- Make the version under construction the head of the chain of `e`. -/
def WorkerTxn.link (t : WorkerTxn) (e : Entry) : WorkerTxn :=
  { t with linked := (e, t.obj) :: t.linked.filter fun v => v.1 ≠ e }

/-- A loop over the write set. -/
def forWriteSet (c : Prog) : Prog :=
  block [
    setTxn fun _ t => { t with idx := 0 },
    .loop (onTxn fun t => t.idx < t.writeSet.length)
      (block [c, setTxn fun _ t => { t with idx := t.idx + 1 }])]

/-- `allocate_log_block`; what it does to the log is in `TlsLog`. -/
def allocateLogBlock : Prog := lockGuard (.tlsLog 0) .skip

/-- `si_commit`; the result is in `ret`. -/
def siCommit : Prog :=
  .ite (onTxn fun t => !t.log && (t.readOnly || t.writeSet.isEmpty))
    (setTxn fun _ t => { t with state := .cmmtd, ret := true })
    (.ite .phantom
      (setTxn fun _ t => { t with ret := false })
      (block [
        .ite (onTxn fun t => !t.writeSet.isEmpty)
          (block [
            .prim (.mem fun r _ g =>
              some ({ r with csn := g.currentCsn }, { g with currentCsn := g.currentCsn + 1 })),
            setTxn fun r t => { t with endCsn := r.csn },
            allocateLogBlock])
          (setTxn fun _ t => { t with endCsn := t.beginCsn }),
        forWriteSet (setTxn fun _ t => t.setCsn (.generate t.endCsn)),
        setTxn fun _ t => { t with state := .cmmtd, ret := true }]))

/-- `tls_log::enqueue_flush` of a log. -/
def enqueueFlush (i : ℕ) : Prog := lockGuard (.tlsLog i) .skip

/-- `dlog::wakeup_commit_daemon`. -/
def wakeupCommitDaemon : Prog := deferUnlock .pcommitDaemonLock .skip

/-- `dlog::dequeue_committed_xcts`, over all logs. -/
def dequeueCommittedXcts : Prog :=
  lockGuard .tlogLock (.star (.pick fun i => criticalSection (.commitQueue i) .skip))

/-- `commit_queue::push_back`; how full the queue is decides both flags. -/
def pushBack : Prog :=
  criticalSection (.commitQueue 0)
    (.pick fun i => assign fun r _ =>
      { r with flush := r.flush || i % 2 = 1, insert := r.insert && i < 2 })

/-- `tls_log::enqueue_committed_xct`. -/
def enqueueCommittedXct (cfg : WorkerConfig) : Prog :=
  block [
    assign fun r _ => { r with flush := false, insert := true, count := 0, retry := true },
    .loop (onRegs fun r _ => r.retry)
      (block [
        .ite (onRegs fun r _ => r.flush)
          (block [
            .star (.pick fun i => .ite (onRegs fun _ g => i < g.tlogs) (enqueueFlush i) .skip),
            if cfg.pcommitThread then wakeupCommitDaemon else dequeueCommittedXcts,
            assign fun r _ => { r with flush := false }])
          .skip,
        pushBack,
        .ite (onRegs fun r _ => 10 ≤ r.count)
          (block [pushBack, assign fun r _ => { r with count := 0 }]) .skip,
        assign fun r _ =>
          { r with retry := r.flush, count := if r.flush then r.count + 1 else r.count }])]

/-- `transaction::commit`. -/
def commit (cfg : WorkerConfig) : Prog :=
  block [
    .prim (.txn fun _ t _ =>
      if t.state = .active then some { t with state := .committing } else none),
    siCommit,
    .ite (onTxn fun t => t.ret)
      (block [
        uninitialize cfg,
        if cfg.pcommit then .ite (onTxn fun t => t.log) (enqueueCommittedXct cfg) .skip
        else .skip])
      .skip]

/-- `transaction::Abort`. -/
def abort : Prog :=
  block [
    setTxn fun _ t => { t with state := .abrtd },
    forWriteSet
      (block [
        setTxn fun _ t => t.setCsn .null,
        setTxn fun _ t => t.unlinkTuple])]

/-- `Engine::Commit`. -/
def engineCommit (cfg : WorkerConfig) : Prog := locked (commit cfg)

/-- `Engine::Abort`. -/
def engineAbort (cfg : WorkerConfig) : Prog := locked (block [abort, uninitialize cfg])

/-- `Object::Create` and `SetCSN(xid)`. -/
def createVersion : Prog :=
  block [
    setTxn fun _ t => { t with obj := .null },
    setTxn fun _ t => { t with obj := .xid t.xid }]

/-- `add_to_write_set`. -/
def addToWriteSet (e : Entry) : Prog := setTxn fun _ t => { t with writeSet := t.writeSet ++ [e] }

/-- `transaction::Insert`. -/
def insertTuple (e : Entry) : Prog :=
  block [createVersion, allocOid e.fid.toNat, setTxn fun _ t => t.link e, addToWriteSet e]

/-- `transaction::Update`: the first updater of a record may fail; a version of
its own the transaction overwrites. -/
def updateTuple (e : Entry) : Prog :=
  .ite (onTxn fun t => t.linked.any fun v => v.1 = e)
    (block [createVersion, setTxn fun _ t => t.link e])
    (choice .skip (block [createVersion, setTxn fun _ t => t.link e, addToWriteSet e]))

/-- `InsertIfAbsent` into a leaf that changes. -/
def insertIfAbsent (cfg : WorkerConfig) (n : ℕ) : Prog :=
  block [
    locked (.prim (.mem fun r _ g =>
      some ({ r with oldVersion := g.nodeVersion n },
        { g with nodeVersion := Function.update g.nodeVersion n (g.nodeVersion n + 1) }))),
    if cfg.phantomProt then
      setTxn fun r t =>
        { t with absentSet := t.absentSet.map fun p =>
            if p = (n, r.oldVersion) then (n, r.oldVersion + 1) else p }
    else .skip]

/-- `DoNodeRead` of a leaf. -/
def doNodeRead (cfg : WorkerConfig) (n : ℕ) : Prog :=
  if cfg.phantomProt then
    .prim (.txn fun _ t g =>
      if t.absentSet.any (fun p => p.1 = n) then some t
      else some { t with absentSet := (n, g.nodeVersion n) :: t.absentSet })
  else .skip

/-- `InsertOID`; the key may be there. -/
def insertOid (cfg : WorkerConfig) (n : ℕ) : Prog := choice (insertIfAbsent cfg n) .skip

/-- One operation of a transaction; `InsertOID` on its own is for a secondary index. -/
def operation (cfg : WorkerConfig) : Prog :=
  .pick fun f => .pick fun o =>
    let e : Entry := ⟨.ofNat f, .ofNat o⟩
    choice (updateTuple e)
      (choice (doNodeRead cfg o)
        (choice (block [insertTuple e, insertOid cfg o]) (insertOid cfg o)))

/-- A transaction, as the workloads run it: a commit that fails is followed by
an abort, and so is an operation that fails. -/
def runTransaction (cfg : WorkerConfig) : Prog :=
  block [
    .pick fun i => newTransaction cfg (i % 2 = 1) (2 ≤ i),
    .star (operation cfg),
    choice
      (block [engineCommit cfg, .ite (onTxn fun t => !t.ret) (engineAbort cfg) .skip])
      (engineAbort cfg)]

/-- `do_workload_function`. -/
def doWorkloadFunction (cfg : WorkerConfig) : Prog :=
  block [runTransaction cfg, .star (runTransaction cfg)]

/-- `MyWork` under policy 2: from the registration of the handler on, interrupts
may arrive; they are off while the queues are looked at and while the main
context serves a request of the preemptive queue. -/
def myWork (cfg : WorkerConfig) : Prog :=
  block [
    getLog,
    .prim .stui,
    .star
      (block [
        .prim .clui,
        choice .skip
          (choice (doWorkloadFunction cfg)
            (block [.prim .stui, doWorkloadFunction cfg]))])]

/-- Which context runs on the thread. -/
inductive Running
  | main
  | preemptive
  deriving DecidableEq, Repr

/-- `handler_helper`: the context to continue with. -/
def handlerHelper (p : Pcontext) : Running := if 0 < p.lockCounter then .main else .preemptive

/-- A worker thread and its surroundings. -/
structure Worker where
  cmd : Prog
  own : Own
  shared : Shared
  current : Running

/-- What may happen. -/
inductive WorkerAct
  /-- the main context takes a step; `i` resolves its choices -/
  | main (i : ℕ)
  | others (a : OtherAct)
  /-- a user interrupt is delivered -/
  | interrupt
  /-- the preemptive context calls `swap_context` -/
  | resume
  deriving DecidableEq, Repr

/-- One step. -/
def Worker.step (cfg : WorkerConfig) (s : Worker) : WorkerAct → Option Worker
  | .main i =>
    if s.current = .main then
      (s.cmd.step (workerMachine cfg) i s.own s.shared).map fun r =>
        { s with cmd := r.1, own := r.2.1, shared := r.2.2 }
    else none
  | .others a =>
    (s.shared.step s.own.pc.owned a).map fun g => { s with shared := g }
  | .interrupt =>
    if s.current = .main ∧ s.own.pc.uintr then
      some { s with current := handlerHelper s.own.pc }
    else none
  | .resume => if s.current = .preemptive then some { s with current := .main } else none

/-- A worker that is about to start `MyWork`. -/
def Worker.start (cfg : WorkerConfig) (g : Shared) : Worker where
  cmd := myWork cfg
  own :=
    { pc := { uintr := false, lockCounter := 0, owned := [] }
      logInitialized := false
      regs :=
        { cls := false, xidInitialized := false, epoch := 0,
          bitmap := 0, baseId := 0, tmp := 0, tmp2 := 0, retry := false, left := 0, N := 0,
          stragglers := [], reclaimDirectly := false, opened := false, e := 0, i := 0,
          got := false, csn := 0, oldVersion := 0, flush := false, insert := false, count := 0 }
      txn :=
        { state := .abrtd, xid := 0, beginEpoch := 0, beginCsn := 0, endCsn := 0,
          live := false, readOnly := false, cswitch := false, log := false, writeSet := [],
          idx := 0, obj := .null, linked := [], absentSet := [], ret := false } }
  shared := g
  current := .main

end PreemptDB
