/-
Transactions over version chains (`txn.cc`, `txn.h`, `dbcore/sm-oid.cpp`).

The state is the OID arrays, the heap of versions and the transactions with
their contexts and write sets; `step s a` performs one atomic action of one
transaction.  An action that would spin, wait for another transaction or stop
the process is impossible (`none`), so a run contains the actions that do
something and nothing is assumed about scheduling.

Atomic actions are: the constructor, a whole `Insert`, a whole `Update`, each
load of `oid_get_version`, the CSN `fetch_add`, the allocation of the log block,
the stamping of one write-set entry, the publication of `TXN_CMMTD`, the
unlinking of one entry by `Abort`, and `uninitialize`.

All records are memory-resident, so `is_cold` and loading are left out, and
XIDs are never reissued: `xid_alloc` promises a globally unique one.  Three
fields are ghosts that no action reads: an object's `creator` and `home`, and a
transaction's `written`.
-/
import PreemptDB.LogRecord
import PreemptDB.StepRun

namespace PreemptDB

/-- A transaction id. -/
abbrev XID := ℕ

/-- The address of an object in memory. -/
abbrev Ptr := ℕ

/-- An entry of an OID array, named by its file and object ids. -/
structure Entry where
  fid : UInt32
  oid : UInt32
  deriving DecidableEq, Repr

/-- What the CSN field of an object holds: `NULL_PTR`, an XID or a CSN. -/
inductive CsnPtr
  | null
  | xid (x : XID)
  | csn (c : ℕ)
  deriving DecidableEq, Repr

/-- `GenerateCsnPtr`: only the value bits of a CSN survive. -/
def CsnPtr.generate (c : ℕ) : CsnPtr := .csn (CSN.make c).offset

/-- A version: an `Object` with its `dbtuple`. -/
structure Object where
  nextVolatile : Option Ptr
  nextPdest : FatPtr
  csn : CsnPtr
  pdest : FatPtr
  value : List UInt8
  /-- The transaction that created the version. -/
  creator : XID
  /-- The entry the version was created for. -/
  home : Entry

/-- `txn_state`; `TXN_INVALID` is never stored. -/
inductive TxnState
  | active
  | committing
  | cmmtd
  | abrtd
  deriving DecidableEq, Repr

/-- `write_record_t`: the array entry (with its FID and OID), the bytes to log,
and whether it was an insert. -/
structure WriteRecord where
  entry : Entry
  size : ℕ
  isInsert : Bool
  deriving DecidableEq, Repr

/-- Where a transaction is. -/
inductive Pc
  /-- between two calls -/
  | idle
  /-- `oid_get_version` at `start_over` -/
  | readEntry (e : Entry)
  /-- about to load `next_volatile_` of a version -/
  | readNext (e : Entry) (p : Ptr)
  /-- about to load the CSN of a version -/
  | readCsn (e : Entry) (p : Ptr) (next : Option Ptr)
  /-- at `wait_for_commit`, with the XID found in the version -/
  | readHolder (e : Entry) (p : Ptr) (next : Option Ptr) (holder : XID)
  /-- `oid_get_version` has returned -/
  | returned (e : Entry) (r : Option Ptr)
  /-- in `si_commit`, before the CSN is taken -/
  | precommit
  /-- `commit` has returned `RC_ABORT_PHANTOM` -/
  | commitFailed
  /-- the CSN is taken, the log block is not yet allocated -/
  | drawn
  /-- in the loop over the write set -/
  | postcommit
  /-- `TXN_CMMTD` is published -/
  | committed
  /-- in the loop of `Abort` -/
  | aborting
  /-- the XID is released (or was never issued) -/
  | finished
  deriving DecidableEq, Repr

/-- The transaction is between two calls, so its owner may start another one. -/
def Pc.canCall : Pc → Bool
  | idle => true
  | returned .. => true
  | _ => false

/-- A transaction with its context. -/
structure Txn where
  /-- the context still belongs to this XID -/
  live : Bool
  beginCsn : ℕ
  endCsn : ℕ
  state : TxnState
  writeSet : List WriteRecord
  logSize : ℕ
  pc : Pc
  /-- the loop variable of `si_commit` and `Abort` -/
  idx : ℕ
  lb : Option LogBlock
  lbLsn : LSN
  /-- the CSN is taken; from here on `si_commit` cannot fail -/
  isSealed : Bool
  /-- the latest version the transaction has installed in an entry -/
  written : Entry → Option Ptr

/-- A transaction that was never started. -/
def Txn.unborn : Txn where
  live := false
  beginCsn := 0
  endCsn := 0
  state := .abrtd
  writeSet := []
  logSize := 0
  pc := .finished
  idx := 0
  lb := none
  lbLsn := ⟨0, 0, 0⟩
  isSealed := false
  written := fun _ => none

/-- The constructor: a fresh context (`take_one`), then `begin := current_csn`. -/
def Txn.start (currentCsn : ℕ) : Txn :=
  { Txn.unborn with live := true, beginCsn := currentCsn, state := .active, pc := .idle }

/-- The CSN that `commit` passes to `enqueue_committed_xct`. -/
def Txn.enqueuedCsn (T : Txn) : ℕ :=
  if T.endCsn = 0 ∨ T.writeSet ≠ [] then T.endCsn else T.endCsn - 1

/-- The entries of the write set. -/
def Txn.entries (T : Txn) : List Entry := T.writeSet.map WriteRecord.entry

/-- The entries that the commit or abort loop has not reached. -/
def Txn.todo (T : Txn) : List Entry := T.entries.drop T.idx

structure Db where
  currentCsn : ℕ
  entry : Entry → Option Ptr
  heap : Ptr → Object
  nextPtr : Ptr
  txn : XID → Txn
  nextXid : XID
  /-- the OIDs handed out by `alloc_oid` -/
  allocated : Entry → Bool

/-- An object that was never allocated. -/
def Object.blank : Object where
  nextVolatile := none
  nextPdest := FatPtr.null
  csn := .null
  pdest := FatPtr.null
  value := []
  creator := 0
  home := ⟨0, 0⟩

/-- The empty database. -/
def Db.init : Db where
  currentCsn := 0
  entry := fun _ => none
  heap := fun _ => Object.blank
  nextPtr := 0
  txn := fun _ => Txn.unborn
  nextXid := 0
  allocated := fun _ => false

namespace Db

def setTxn (s : Db) (t : XID) (T : Txn) : Db :=
  { s with txn := Function.update s.txn t T }

/-- Make `p`, a new object `o`, the head of entry `e`. -/
def link (s : Db) (e : Entry) (o : Object) : Db :=
  { s with
    entry := Function.update s.entry e (some s.nextPtr)
    heap := Function.update s.heap s.nextPtr o
    nextPtr := s.nextPtr + 1
    allocated := Function.update s.allocated e true }

/-- `Object::SetCSN`. -/
def setCsn (s : Db) (p : Ptr) (c : CsnPtr) : Db :=
  { s with heap := Function.update s.heap p { s.heap p with csn := c } }

/-- `Object::SetPersistentAddress`. -/
def setPersistentAddress (s : Db) (p : Ptr) (d : FatPtr) : Db :=
  { s with heap := Function.update s.heap p { s.heap p with pdest := d } }

def setEntry (s : Db) (e : Entry) (r : Option Ptr) : Db :=
  { s with entry := Function.update s.entry e r }

/-- The follower of an object in its chain. -/
def next (s : Db) (p : Ptr) : Option Ptr := (s.heap p).nextVolatile

end Db

/-- `data_sz`, a 32-bit integer. -/
def dataSz (value : List UInt8) : ℕ := value.length % 2 ^ 32

/-- `Object::Create` followed by `SetCSN(xid)`. -/
def Object.create (t : XID) (e : Entry) (value : List UInt8) (next : Option Ptr)
    (nextPdest : FatPtr) : Object where
  nextVolatile := next
  nextPdest := nextPdest
  csn := .xid t
  pdest := FatPtr.null
  value := value.take (dataSz value)
  creator := t
  home := e

/-- `write_set_t::kMaxEntries`. -/
def kMaxEntries : ℕ := 256

/-- `add_to_write_set`; a full write set stops the process.  Both `log_size` and
the `size` parameter of `emplace_back` are 32-bit integers. -/
def Txn.addToWriteSet (T : Txn) (e : Entry) (size : ℕ) (isInsert : Bool) : Option Txn :=
  if T.writeSet.length < kMaxEntries then
    some { T with
      logSize := (T.logSize + logrecSize (size + sizeofDbtuple)) % 2 ^ 32
      writeSet := T.writeSet ++ [⟨e, (size + sizeofDbtuple) % 2 ^ 32, isInsert⟩] }
  else none

/-- The transaction after it has installed version `p` in entry `e`. -/
def Txn.wrote (T : Txn) (e : Entry) (p : Ptr) : Txn :=
  { T with pc := .idle, written := Function.update T.written e (some p) }

/-- `transaction::Insert`.  The OID comes from `alloc_oid`: unused and not 0. -/
def insert (s : Db) (t : XID) (e : Entry) (value : List UInt8) : Option Db :=
  if (s.txn t).pc.canCall ∧ s.allocated e = false ∧ e.oid ≠ 0 then
    ((s.txn t).addToWriteSet e (dataSz value) true).map fun T =>
      (s.link e (Object.create t e value none FatPtr.null)).setTxn t (T.wrote e s.nextPtr)
  else none

/-- What `UpdateTuple` decides about the head of a chain. -/
inductive UpdateDecision
  /-- it starts over or waits -/
  | again
  | fail
  /-- the head is the updater's own version -/
  | overwrite (head : Ptr)
  | install (head : Ptr)
  deriving DecidableEq, Repr

/-- The install of `UpdateTuple` waits for the persistent address of the old head. -/
def installOver (s : Db) (q : Ptr) : UpdateDecision :=
  if (s.heap q).pdest = FatPtr.null then .again else .install q

/-- `UpdateTuple` up to the label `install`.  An empty entry is dereferenced,
which stops the process. -/
def updateDecision (s : Db) (t : XID) (e : Entry) : UpdateDecision :=
  match s.entry e with
  | none => .again
  | some q =>
    match (s.heap q).csn with
    | .null => .again
    | .xid x =>
      if x = t then .overwrite q
      else if (s.txn x).live then
        match (s.txn x).state with
        | .committing => .again
        | .cmmtd => if (s.txn t).beginCsn ≤ (s.txn x).endCsn then .fail else installOver s q
        | _ => .fail
      else .again
    | .csn c => if (s.txn t).beginCsn ≤ c then .fail else installOver s q

/-- `transaction::Update` and `SyncUpdate`: only the first write to an entry
enters the write set. -/
def update (s : Db) (t : XID) (e : Entry) (value : List UInt8) : Option Db :=
  if (s.txn t).pc.canCall then
    match updateDecision s t e with
    | .again => none
    | .fail => some (s.setTxn t { s.txn t with pc := .idle })
    | .overwrite q =>
      some ((s.link e (Object.create t e value (s.heap q).nextVolatile
        (s.heap q).nextPdest)).setTxn t ((s.txn t).wrote e s.nextPtr))
    | .install q =>
      ((s.txn t).addToWriteSet e (dataSz value) false).map fun T =>
        (s.link e (Object.create t e value (some q) (s.heap q).pdest)).setTxn t
          (T.wrote e s.nextPtr)
  else none

/-- The end of the loop body of `oid_get_version` for an invisible version:
`ptr = tentative_next`. -/
def skipVersion (e : Entry) : Option Ptr → Pc
  | none => .returned e none
  | some q => .readNext e q

/-- `TestVisibility` and its caller, from the load of the CSN on. -/
def testCsn (s : Db) (t : XID) (e : Entry) (p : Ptr) (next : Option Ptr) : Pc :=
  match (s.heap p).csn with
  | .null => .readEntry e
  | .xid x => if x = t then .returned e (some p) else .readHolder e p next x
  | .csn c =>
    if c ≤ (s.txn t).beginCsn then .returned e (some p) else skipVersion e next

/-- `TestVisibility` at `wait_for_commit`; `none` while the holder is committing. -/
def testHolder (s : Db) (t : XID) (e : Entry) (p : Ptr) (next : Option Ptr) (x : XID) :
    Option Pc :=
  if (s.txn x).live then
    match (s.txn x).state with
    | .committing => none
    | .cmmtd =>
      if (s.txn x).endCsn < (s.txn t).beginCsn then some (.returned e (some p))
      else some (skipVersion e next)
    | _ => some (skipVersion e next)
  else some (.readEntry e)

/-- One step of `oid_get_version`. -/
def readStep (s : Db) (t : XID) : Option Db :=
  let goto pc := s.setTxn t { s.txn t with pc := pc }
  match (s.txn t).pc with
  | .readEntry e =>
    match s.entry e with
    | none => some (goto (.returned e none))
    | some p => some (goto (.readNext e p))
  | .readNext e p => some (goto (.readCsn e p (s.next p)))
  | .readCsn e p next => some (goto (testCsn s t e p next))
  | .readHolder e p next x => (testHolder s t e p next x).map goto
  | _ => none

/-- The CSN of `si_commit`: read-only transactions take none. -/
def drawCsn (s : Db) (t : XID) : Option Db :=
  let T := s.txn t
  if T.pc = .precommit then
    if T.writeSet = [] then
      some (s.setTxn t { T with endCsn := T.beginCsn, isSealed := true, pc := .postcommit })
    else
      some (({ s with currentCsn := s.currentCsn + 1 } : Db).setTxn t
        { T with endCsn := s.currentCsn, isSealed := true, pc := .drawn })
  else none

/-- `allocate_log_block`, as `si_commit` sees it: a block of `log_size` bytes on
top of stale bytes, or `nullptr` for size 0. -/
def allocBlock (s : Db) (t : XID) (lsn : LSN) (stale : ℕ → UInt8) : Option Db :=
  let T := s.txn t
  if T.pc = .drawn then
    some (s.setTxn t { T with
      lb := if T.logSize = 0 then none
        else some { csn := T.endCsn, payloadSize := 0, capacity := T.logSize, payload := stale }
      lbLsn := lsn
      pc := .postcommit })
  else none

/-- The persistent address of the record at payload offset `off`. -/
def persistentAddress (T : Txn) (off size : ℕ) : FatPtr :=
  ({ T.lbLsn with loffset := T.lbLsn.loffset + pageSize + off } : LSN).toPtr
    (defaultSizeCode (logrecSize size))

/-- One iteration of the loop of `si_commit`: log the version at the head of the
entry, give it its persistent address, stamp it.  `beyond` is the memory behind
the tuple. -/
def stamp (s : Db) (t : XID) (beyond : ℕ → UInt8) : Option Db :=
  let T := s.txn t
  if T.pc = .postcommit then
    match T.writeSet[T.idx]?, T.lb with
    | some w, some lb =>
      match s.entry w.entry with
      | none => none
      | some p =>
        match populateLogRecord (if w.isInsert then .insert else .update) lb
            w.entry.fid.toNat w.entry.oid.toNat (tupleImage (s.heap p).value beyond) w.size with
        | none => none
        | some (off, lb') =>
          if lb'.payloadSize ≤ lb'.capacity then
            some (((s.setPersistentAddress p (persistentAddress T off w.size)).setCsn p
              (CsnPtr.generate T.endCsn)).setTxn t { T with idx := T.idx + 1, lb := some lb' })
          else none
    | _, _ => none
  else none

/-- The end of `si_commit`. -/
def publish (s : Db) (t : XID) : Option Db :=
  let T := s.txn t
  if T.pc = .postcommit ∧ T.idx = T.writeSet.length ∧
      (∀ lb ∈ T.lb, lb.payloadSize = lb.capacity) then
    some (s.setTxn t { T with state := .cmmtd, pc := .committed })
  else none

/-- One iteration of the loop of `Abort`: invalidate the head, then unlink it. -/
def unlink (s : Db) (t : XID) : Option Db :=
  let T := s.txn t
  if T.pc = .aborting then
    match T.writeSet[T.idx]? with
    | none => none
    | some w =>
      match s.entry w.entry with
      | none => none
      | some p =>
        some (((s.setCsn p .null).setEntry w.entry (s.next p)).setTxn t
          { T with idx := T.idx + 1 })
  else none

/-- An atomic action. -/
inductive Act
  | begin
  | insert (t : XID) (e : Entry) (value : List UInt8)
  | update (t : XID) (e : Entry) (value : List UInt8)
  /-- `oid_get_version` is called -/
  | readCall (t : XID) (e : Entry)
  | readStep (t : XID)
  /-- `commit` sets `TXN_COMMITTING` -/
  | commit (t : XID)
  /-- the phantom check of `si_commit` fails -/
  | phantom (t : XID)
  | drawCsn (t : XID)
  | allocBlock (t : XID) (lsn : LSN) (stale : ℕ → UInt8)
  | stamp (t : XID) (beyond : ℕ → UInt8)
  | publish (t : XID)
  /-- `Abort` sets `TXN_ABRTD` -/
  | abort (t : XID)
  | unlink (t : XID)
  /-- `uninitialize` -/
  | finish (t : XID)

/-- One atomic action. -/
def step (s : Db) : Act → Option Db
  | .begin => some
      { s with
        nextXid := s.nextXid + 1
        txn := Function.update s.txn s.nextXid (Txn.start s.currentCsn) }
  | .insert t e value => insert s t e value
  | .update t e value => update s t e value
  | .readCall t e =>
    if (s.txn t).pc.canCall then some (s.setTxn t { s.txn t with pc := .readEntry e }) else none
  | .readStep t => readStep s t
  | .commit t =>
    if (s.txn t).pc.canCall then
      some (s.setTxn t { s.txn t with state := .committing, pc := .precommit })
    else none
  | .phantom t =>
    if (s.txn t).pc = .precommit then some (s.setTxn t { s.txn t with pc := .commitFailed })
    else none
  | .drawCsn t => drawCsn s t
  | .allocBlock t lsn stale => allocBlock s t lsn stale
  | .stamp t beyond => stamp s t beyond
  | .publish t => publish s t
  | .abort t =>
    if (s.txn t).pc.canCall ∨ (s.txn t).pc = .commitFailed then
      some (s.setTxn t { s.txn t with state := .abrtd, pc := .aborting })
    else none
  | .unlink t => unlink s t
  | .finish t =>
    if (s.txn t).pc = .committed ∨
        ((s.txn t).pc = .aborting ∧ (s.txn t).idx = (s.txn t).writeSet.length) then
      some (s.setTxn t { s.txn t with live := false, pc := .finished })
    else none

/-- The states that a run from the empty database reaches. -/
def Reached (acts : List Act) (s : Db) : Prop := StepRun.run step Db.init acts = some s

end PreemptDB
