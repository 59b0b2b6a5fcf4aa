/-
Return codes, and the two reads that end in one (`sm-rc.h`, `txn.cc`, `engine.cc`).

Every access to a record ends in `DoTupleRead`, and, if there is no record and phantom
protection is on, in `DoNodeRead`, which looks the leaf up in the absent set of the
transaction.

* `Rc` — `rc_t`;
* `doTupleRead` — a version that is not empty is a record;
* `AbsentSet`, `doNodeRead` — the leaves that a transaction has seen.
-/
import Mathlib.Data.Finset.Insert
import Mathlib.Logic.Function.Basic

namespace PreemptDB

/-- `rc_t` -/
inductive Rc
  | invalid
  | rcTrue
  | rcFalse
  | rcAbortInternal
  | rcAbortSiConflict
  | rcAbortSerial
  | rcAbortRwConflict
  | rcAbortPhantom
  | rcAbortUser
  deriving DecidableEq, Repr

/-- `IsAbort` -/
def Rc.isAbort : Rc → Bool
  | invalid | rcTrue | rcFalse => false
  | _ => true

/-- `masstree_absent_set`: leaves with the versions they had. -/
structure AbsentSet (ν : Type*) where
  nodes : Finset ν
  version : ν → ℕ

namespace AbsentSet

variable {ν : Type*}

def empty : AbsentSet ν := ⟨∅, fun _ => 0⟩

def set [DecidableEq ν] (absent : AbsentSet ν) (node : ν) (version : ℕ) : AbsentSet ν :=
  ⟨insert node absent.nodes, Function.update absent.version node version⟩

end AbsentSet

namespace Engine

/-- `DoTupleRead`, with the value argument. -/
def doTupleRead (value : List UInt8) : Rc × List UInt8 :=
  (if 0 < value.length then .rcTrue else .rcFalse, value)

variable {ν : Type*} [DecidableEq ν]

/-- `DoNodeRead` -/
def doNodeRead (absent : AbsentSet ν) (node : ν) (version : ℕ) : Rc × AbsentSet ν :=
  if node ∉ absent.nodes then (.rcTrue, absent.set node version)
  else if absent.version node ≠ version then (.rcAbortPhantom, absent)
  else (.rcTrue, absent)

/-- `DoNodeRead` has one abort code, for a leaf that is there with another version. -/
theorem doNodeRead_rc (absent : AbsentSet ν) (node : ν) (version : ℕ) :
    (doNodeRead absent node version).1 =
      if node ∈ absent.nodes ∧ absent.version node ≠ version then .rcAbortPhantom
      else .rcTrue := by
  by_cases hn : node ∈ absent.nodes
  · by_cases hv : absent.version node = version
    · simp [doNodeRead, hn, hv]
    · simp [doNodeRead, hn, hv]
  · simp [doNodeRead, hn]

theorem doNodeRead_isAbort (absent : AbsentSet ν) (node : ν) (version : ℕ) :
    (doNodeRead absent node version).1.isAbort ↔
      node ∈ absent.nodes ∧ absent.version node ≠ version := by
  rw [doNodeRead_rc]
  split
  · next h => exact iff_of_true rfl h
  · next h => exact iff_of_false Bool.false_ne_true h

/-- The absent set gets leaves that it does not have. -/
theorem doNodeRead_absent (absent : AbsentSet ν) (node : ν) (version : ℕ) :
    (doNodeRead absent node version).2 =
      if node ∈ absent.nodes then absent else absent.set node version := by
  by_cases hn : node ∈ absent.nodes
  · by_cases hv : absent.version node = version
    · simp [doNodeRead, hn, hv]
    · simp [doNodeRead, hn, hv]
  · simp [doNodeRead, hn]

end Engine

end PreemptDB
