/-
Indexes over version chains (`engine.cc`, `masstree/masstree_btree.h`).

An index maps keys to OIDs.  `InsertRecord` puts a record into the table and then its OID
into the index; `UpdateRecord` and `RemoveRecord` look the OID up and then call `Update`;
`GetRecord` looks it up and then calls `oid_get_version`.  Other transactions run in
between, so each of these functions is split where it goes from the table to the index or
back.  Masstree is a map whose operations are atomic; an entry stays when the transaction
that made it aborts.

* `State` — the database, the indexes of one table, and the calls under way;
* `step` — one access of one transaction;
* `emit` — what the call that a step ends has returned.

Phantom protection and checkpoints are off.
-/
import PreemptDB.ReturnCode
import PreemptDB.VersionChain

namespace PreemptDB

namespace Engine

variable {ι κ : Type}

/-- `UpdateRecord` with a value, or `RemoveRecord`. -/
inductive Modification
  | update (value : List UInt8)
  | remove
  deriving DecidableEq, Repr

/-- The new version; an empty one is a tombstone. -/
def Modification.value : Modification → List UInt8
  | update value => value
  | remove => []

/-- Where a transaction is in an index function. -/
inductive Call (ι κ : Type)
  | none
  /-- `InsertRecord`, after `Insert` -/
  | insertOid (i : ι) (k : κ) (value : List UInt8) (e : Entry)
  /-- `UpdateRecord` or `RemoveRecord`, after `GetOID` -/
  | modify (i : ι) (k : κ) (m : Modification) (e : Entry)
  /-- `GetRecord`, after `search` -/
  | read (i : ι) (k : κ) (e : Entry)
  deriving DecidableEq, Repr

/-- The step of a transaction may be taken from here: within a call only `oid_get_version`
goes on, and tables are accessed through an index. -/
def Call.admits : Call ι κ → Act → Bool
  | .read _ _ _, .readStep _ => true
  | .none, .insert _ _ _ | .none, .update _ _ _ | .none, .readCall _ _ | .none, .readStep _ => false
  | .none, _ => true
  | _, _ => false

/-- The database, and the indexes of a table by name.  `inserter` is a ghost: the
transaction that put the first version into an entry. -/
structure State (ι κ : Type) where
  db : Db
  index : ι → κ → Option Entry
  call : XID → Call ι κ
  inserter : Entry → Option XID

inductive EngineAct (ι κ : Type)
  /-- a step of a transaction outside of the index functions, or of `oid_get_version` -/
  | mvcc (a : Act)
  /-- `InsertRecord` up to the insertion into the table -/
  | insertRecord (t : XID) (i : ι) (k : κ) (value : List UInt8) (e : Entry)
  /-- its `InsertOID` -/
  | insertOid (t : XID)
  /-- `InsertOID` on a secondary index -/
  | registerOid (t : XID) (i : ι) (k : κ) (e : Entry)
  /-- the `GetOID` of `UpdateRecord` or `RemoveRecord` -/
  | getOid (t : XID) (i : ι) (k : κ) (m : Modification)
  /-- their `Update` -/
  | update (t : XID)
  /-- the `search` of `GetRecord` -/
  | getRecord (t : XID) (i : ι) (k : κ)
  /-- the end of `GetRecord` -/
  | readReturn (t : XID)

/-- What a call has returned. -/
inductive Event (ι κ : Type)
  | begun (t : XID)
  | inserted (t : XID) (i : ι) (k : κ) (value : List UInt8) (e : Entry) (rc : Rc)
  | registered (t : XID) (i : ι) (k : κ) (e : Entry) (ok : Bool)
  | modified (t : XID) (i : ι) (k : κ) (m : Modification) (rc : Rc)
  | got (t : XID) (i : ι) (k : κ) (rc : Rc) (value : List UInt8)
  | committed (t : XID)
  | aborted (t : XID)
  deriving DecidableEq, Repr

namespace State

def init : State ι κ where
  db := Db.init
  index _ _ := none
  call _ := .none
  inserter _ := none

/-- `oid_get_latest_version`: whether the array entry is not null. -/
def hasLatestVersion (s : State ι κ) (e : Entry) : Bool := (s.db.entry e).isSome

/-- `mbtree::insert_if_absent` inserts: the key is not there, or the index is a primary one
and the version chain is empty. -/
def inserts (s : State ι κ) (isPrimary : ι → Bool) (i : ι) (k : κ) : Bool :=
  match s.index i k with
  | none => true
  | some e => isPrimary i && !s.hasLatestVersion e

/-- The end of `GetRecord`. -/
def readResult (s : State ι κ) : Option Ptr → Rc × List UInt8
  | none => (.rcFalse, [])
  | some p => doTupleRead (s.db.heap p).value

/-- What `transaction::Update` returns when it does. -/
def updateRc (s : State ι κ) (t : XID) (e : Entry) : Rc :=
  match updateDecision s.db t e with
  | .overwrite _ | .install _ => .rcTrue
  | .fail | .again => .rcAbortSiConflict

variable [DecidableEq ι] [DecidableEq κ]

/-- `InsertIfAbsent`. -/
def insertIfAbsent (s : State ι κ) (isPrimary : ι → Bool) (i : ι) (k : κ) (e : Entry) :
    State ι κ :=
  if s.inserts isPrimary i k then
    { s with index := Function.update s.index i (Function.update (s.index i) k (some e)) }
  else s

def setCall (s : State ι κ) (t : XID) (c : Call ι κ) : State ι κ :=
  { s with call := Function.update s.call t c }

end State

variable [DecidableEq ι] [DecidableEq κ]

/-- The transaction may call an index function. -/
def State.ready (s : State ι κ) (t : XID) : Bool :=
  s.call t = .none && (s.db.txn t).pc.canCall

def step (isPrimary : ι → Bool) (s : State ι κ) : EngineAct ι κ → Option (State ι κ)
  | .mvcc a =>
    if (s.call (a.actor s.db)).admits a then
      (PreemptDB.step s.db a).map fun db => { s with db := db }
    else none
  | .insertRecord t i k value e =>
    if s.ready t ∧ isPrimary i then
      (insert s.db t e value).map fun db =>
        { s with
          db := db
          call := Function.update s.call t (.insertOid i k value e)
          inserter := Function.update s.inserter e (some t) }
    else none
  | .insertOid t =>
    match s.call t with
    | .insertOid i k _ e => some ((s.insertIfAbsent isPrimary i k e).setCall t .none)
    | _ => none
  | .registerOid t i k e =>
    if s.ready t ∧ isPrimary i = false then some (s.insertIfAbsent isPrimary i k e) else none
  | .getOid t i k m =>
    if s.ready t ∧ isPrimary i then
      match s.index i k with
      | none => some s
      | some e => some (s.setCall t (.modify i k m e))
    else none
  | .update t =>
    match s.call t with
    | .modify _ _ m e =>
      (PreemptDB.update s.db t e m.value).map fun db =>
        { s with db := db, call := Function.update s.call t .none }
    | _ => none
  | .getRecord t i k =>
    if s.ready t then
      match s.index i k with
      | none => some s
      | some e =>
        (PreemptDB.step s.db (.readCall t e)).map fun db =>
          { s with db := db, call := Function.update s.call t (.read i k e) }
    else none
  | .readReturn t =>
    match s.call t, (s.db.txn t).pc with
    | .read _ _ _, .returned _ _ => some (s.setCall t .none)
    | _, _ => none

def emit (isPrimary : ι → Bool) (s : State ι κ) : EngineAct ι κ → List (Event ι κ)
  | .mvcc .begin => [.begun s.db.nextXid]
  | .mvcc (.publish t) => [.committed t]
  | .mvcc (.abort t) => [.aborted t]
  | .mvcc _ => []
  | .insertRecord _ _ _ _ _ => []
  | .insertOid t =>
    match s.call t with
    | .insertOid i k value e =>
      [.inserted t i k value e (if s.inserts isPrimary i k then .rcTrue else .rcAbortInternal)]
    | _ => []
  | .registerOid t i k e => [.registered t i k e (s.inserts isPrimary i k)]
  | .getOid t i k m =>
    match s.index i k with
    | none => [.modified t i k m .rcAbortInternal]
    | some _ => []
  | .update t =>
    match s.call t with
    | .modify i k m e => [.modified t i k m (s.updateRc t e)]
    | _ => []
  | .getRecord t i k =>
    match s.index i k with
    | none => [.got t i k .rcFalse []]
    | some _ => []
  | .readReturn t =>
    match s.call t, (s.db.txn t).pc with
    | .read i k _, .returned _ r => [.got t i k (s.readResult r).1 (s.readResult r).2]
    | _, _ => []

variable {isPrimary : ι → Bool} {s s' : State ι κ} {a : EngineAct ι κ}

/-- The action of the database below, if there is one. -/
def dbAct (s : State ι κ) : EngineAct ι κ → Option Act
  | .mvcc a => some a
  | .insertRecord t _ _ value e => some (.insert t e value)
  | .update t =>
    match s.call t with
    | .modify _ _ m e => some (.update t e m.value)
    | _ => none
  | .getRecord t i k => (s.index i k).map (.readCall t)
  | .insertOid _ | .registerOid _ _ _ _ | .getOid _ _ _ _ | .readReturn _ => none

theorem insertIfAbsent_db (s : State ι κ) (i : ι) (k : κ) (e : Entry) :
    (s.insertIfAbsent isPrimary i k e).db = s.db := by
  rw [State.insertIfAbsent]
  split <;> rfl

/-- Below the indexes the database runs as it does alone. -/
theorem step_db (hs : step isPrimary s a = some s') :
    (dbAct s a = none → s'.db = s.db) ∧ ∀ b ∈ dbAct s a, PreemptDB.step s.db b = some s'.db := by
  cases a with
  | mvcc a =>
    obtain ⟨-, hs⟩ := Option.ite_none_right_eq_some.mp hs
    obtain ⟨db, hdb, rfl⟩ := Option.map_eq_some_iff.mp hs
    simpa [dbAct] using hdb
  | insertRecord t i k value e =>
    obtain ⟨-, hs⟩ := Option.ite_none_right_eq_some.mp hs
    obtain ⟨db, hdb, rfl⟩ := Option.map_eq_some_iff.mp hs
    simpa [dbAct, PreemptDB.step] using hdb
  | insertOid t =>
    simp only [step] at hs
    split at hs
    · cases hs
      simp [dbAct, State.setCall, insertIfAbsent_db]
    · cases hs
  | registerOid t i k e =>
    obtain ⟨-, hs⟩ := Option.ite_none_right_eq_some.mp hs
    cases hs
    simp [dbAct, insertIfAbsent_db]
  | getOid t i k m =>
    obtain ⟨-, hs⟩ := Option.ite_none_right_eq_some.mp hs
    split at hs <;> cases hs <;> simp [dbAct, State.setCall]
  | update t =>
    simp only [step] at hs
    split at hs
    · next i k m e hcall =>
      obtain ⟨db, hdb, rfl⟩ := Option.map_eq_some_iff.mp hs
      simpa [dbAct, hcall, PreemptDB.step] using hdb
    · cases hs
  | getRecord t i k =>
    obtain ⟨-, hs⟩ := Option.ite_none_right_eq_some.mp hs
    split at hs
    · next hi =>
      cases hs
      simp [dbAct, hi]
    · next e hi =>
      obtain ⟨db, hdb, rfl⟩ := Option.map_eq_some_iff.mp hs
      simpa [dbAct, hi] using hdb
  | readReturn t =>
    simp only [step] at hs
    split at hs
    · cases hs
      simp [dbAct, State.setCall]
    · cases hs

end Engine

end PreemptDB
