/-
Transaction contexts and who looks at them (`dbcore/xid.h`, `dbcore/sm-oid.cpp`).

A context belongs to one XID after the other: `take_one` stores a new owner and
resets `end` and `state`, `xid_free` clears the owner.  `UpdateTuple` and
`TestVisibility` look up the context of the XID that they have found in a version
and read its fields one at a time; every read is an action of its own, and
everything else can happen in between.

`commitCsn` is a ghost, the CSN that a transaction has taken.  An XID is issued
once: `xid_alloc` promises globally unique ones.
-/
import PreemptDB.Mvcc

namespace PreemptDB

/-- An XID: the epoch in which it was issued, and the number of its context. -/
structure Xid where
  epoch : ℕ
  localId : ℕ
  deriving DecidableEq, Repr

/-- `xid_context`, with the fields that others read; an owner of 0 is `none`. -/
structure XidContext where
  owner : Option Xid
  state : TxnState
  endCsn : ℕ
  deriving DecidableEq, Repr

/-- How far the transaction with an XID has come. -/
inductive Stage
  | fresh
  /-- `take_one` has stored the owner -/
  | owned
  /-- `take_one` has reset `end` -/
  | reset
  | active
  | committing
  /-- the CSN is taken, but not yet stored -/
  | drawn
  | ended
  | cmmtd
  | abrtd
  | freed
  deriving DecidableEq, Repr

/-- The transaction with an XID. -/
structure Incarnation where
  stage : Stage
  commitCsn : Option ℕ
  deriving DecidableEq, Repr

/-- Who looks at a context. -/
inductive Caller
  | updateTuple
  | testVisibility
  deriving DecidableEq, Repr

/-- What the caller makes of the `end` of a committed holder: `UpdateTuple`
installs, `TestVisibility` finds the version visible. -/
def Caller.accepts : Caller → (holderEnd begin : ℕ) → Bool
  | updateTuple, holderEnd, begin => if begin ≤ holderEnd then false else true
  | testVisibility, holderEnd, begin => if holderEnd < begin then true else false

/-- Where a caller is in its XID branch. -/
inductive ProbePc
  | startOver
  /-- at `wait_for_commit` -/
  | getContext (x : Xid)
  | readState (x : Xid)
  | readOwner (x : Xid) (state : TxnState)
  | readEnd (x : Xid)
  | decided (x : Xid) (accept : Bool)
  deriving DecidableEq, Repr

/-- A reader or updater with its snapshot. -/
structure Probe where
  caller : Caller
  begin : ℕ
  pc : ProbePc
  deriving DecidableEq, Repr

structure Contexts where
  currentCsn : ℕ
  ctx : ℕ → XidContext
  txn : Xid → Incarnation
  probe : ℕ → Probe

/-- No XID has been issued. -/
def Contexts.init : Contexts where
  currentCsn := 0
  ctx := fun _ => ⟨none, .active, 0⟩
  txn := fun _ => ⟨.fresh, none⟩
  probe := fun _ => ⟨.updateTuple, 0, .startOver⟩

/-- An access to a context. -/
inductive CtxAct
  /-- `take_one` stores the owner -/
  | claim (x : Xid)
  | resetEnd (x : Xid)
  | activate (x : Xid)
  /-- `commit` stores `TXN_COMMITTING` -/
  | commit (x : Xid)
  | draw (x : Xid)
  | storeEnd (x : Xid)
  | publish (x : Xid)
  /-- `Abort` stores `TXN_ABRTD` -/
  | abort (x : Xid)
  /-- `xid_free` -/
  | free (x : Xid)
  /-- reader `o` takes its snapshot -/
  | start (o : ℕ) (caller : Caller)
  /-- reader `o` finds `x` in a version -/
  | readCsn (o : ℕ) (x : Xid)
  | getContext (o : ℕ)
  | readState (o : ℕ)
  | readOwner (o : ℕ)
  | readEnd (o : ℕ)
  deriving DecidableEq, Repr

/-- The transaction was active, so versions can carry its XID. -/
def Stage.started : Stage → Bool
  | fresh | owned | reset => false
  | _ => true

namespace Contexts

/-- The transaction `x` moves on and changes its context. -/
def set (s : Contexts) (x : Xid) (T : Incarnation) (C : XidContext) : Contexts :=
  { s with
    ctx := Function.update s.ctx x.localId C
    txn := Function.update s.txn x T }

def goto (s : Contexts) (o : ℕ) (pc : ProbePc) : Contexts :=
  { s with probe := Function.update s.probe o { s.probe o with pc := pc } }

/-- `xid_get_context` finds a context. -/
def xidGetContext (s : Contexts) (x : Xid) : Bool :=
  match (s.ctx x.localId).owner with
  | none => false
  | some w => if w.epoch < x.epoch ∨ x.epoch + 3 ≤ w.epoch then false else true

/-- The end of the XID branch, when the owner is still `x`. -/
def afterOwner (x : Xid) : TxnState → ProbePc
  | .committing => .getContext x
  | .cmmtd => .readEnd x
  | _ => .decided x false

/-- One access. -/
def step (s : Contexts) : CtxAct → Option Contexts
  | .claim x =>
    if (s.txn x).stage = .fresh ∧ (s.ctx x.localId).owner = none then
      some (s.set x { s.txn x with stage := .owned } { s.ctx x.localId with owner := some x })
    else none
  | .resetEnd x =>
    if (s.txn x).stage = .owned then
      some (s.set x { s.txn x with stage := .reset } { s.ctx x.localId with endCsn := 0 })
    else none
  | .activate x =>
    if (s.txn x).stage = .reset then
      some (s.set x { s.txn x with stage := .active } { s.ctx x.localId with state := .active })
    else none
  | .commit x =>
    if (s.txn x).stage = .active then
      some (s.set x { s.txn x with stage := .committing }
        { s.ctx x.localId with state := .committing })
    else none
  | .draw x =>
    if (s.txn x).stage = .committing then
      some ({ s with currentCsn := s.currentCsn + 1 }.set x ⟨.drawn, some s.currentCsn⟩
        (s.ctx x.localId))
    else none
  | .storeEnd x =>
    match (s.txn x).stage, (s.txn x).commitCsn with
    | .drawn, some csn =>
      some (s.set x { s.txn x with stage := .ended } { s.ctx x.localId with endCsn := csn })
    | _, _ => none
  | .publish x =>
    if (s.txn x).stage = .ended then
      some (s.set x { s.txn x with stage := .cmmtd } { s.ctx x.localId with state := .cmmtd })
    else none
  | .abort x =>
    -- also after a failed phantom check
    if (s.txn x).stage = .active ∨ (s.txn x).stage = .committing then
      some (s.set x { s.txn x with stage := .abrtd } { s.ctx x.localId with state := .abrtd })
    else none
  | .free x =>
    if (s.txn x).stage = .cmmtd ∨ (s.txn x).stage = .abrtd then
      some (s.set x { s.txn x with stage := .freed } { s.ctx x.localId with owner := none })
    else none
  | .start o caller =>
    some { s with probe := Function.update s.probe o ⟨caller, s.currentCsn, .startOver⟩ }
  | .readCsn o x =>
    match (s.probe o).pc with
    | .startOver | .decided .. =>
      if (s.txn x).stage.started then some (s.goto o (.getContext x)) else none
    | _ => none
  | .getContext o =>
    match (s.probe o).pc with
    | .getContext x => some (s.goto o (if s.xidGetContext x then .readState x else .startOver))
    | _ => none
  | .readState o =>
    match (s.probe o).pc with
    | .readState x => some (s.goto o (.readOwner x (s.ctx x.localId).state))
    | _ => none
  | .readOwner o =>
    match (s.probe o).pc with
    | .readOwner x st =>
      some (s.goto o
        (if (s.ctx x.localId).owner = some x then afterOwner x st else .startOver))
    | _ => none
  | .readEnd o =>
    match (s.probe o).pc with
    | .readEnd x =>
      some (s.goto o (.decided x
        ((s.probe o).caller.accepts (s.ctx x.localId).endCsn (s.probe o).begin)))
    | _ => none

end Contexts

end PreemptDB
