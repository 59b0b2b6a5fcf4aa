/-
`GetRecord` with phantom protection (`engine.cc`).

A call searches the index, then looks for a visible version, with steps of other
transactions at every point (`GetRun`).  What it returns at the end comes from
`DoTupleRead`, or, if there is no version, from `DoNodeRead` or a constant.
`DoNodeRead` says `RC_TRUE` for a leaf that it has recorded.

* `getRecord` — the end of the call, with phantom protection on or off;
* `get_record_phantom_iff` — when the two answers agree;
* `miss_returns_true` — a key that is not there.
-/
import PreemptDB.CommitRound
import PreemptDB.Engine

namespace PreemptDB

open StepRun

namespace Engine

variable {ν ι κ : Type}

/-- What a call of `GetRecord` leaves behind: its code, the value argument if it was
written, the OID argument, and the absent set. -/
structure GetResult (ν : Type) where
  rc : Rc
  value : Option (List UInt8)
  oid : Option Entry
  absent : AbsentSet ν

/-- The end of `GetRecord`, when the search has returned `oid` and the leaf `sinfo`, and
`oid_get_version` the tuple. -/
def getRecord [DecidableEq ν] (phantomProt : Bool) (absent : AbsentSet ν) (sinfo : ν × ℕ)
    (oid : Option Entry) (tuple : Option (List UInt8)) : GetResult ν :=
  match tuple with
  | some value =>
    ⟨(doTupleRead value).1, some (doTupleRead value).2, oid, absent⟩
  | none =>
    if phantomProt then
      ⟨(doNodeRead absent sinfo.1 sinfo.2).1, none, oid, (doNodeRead absent sinfo.1 sinfo.2).2⟩
    else ⟨.rcFalse, none, oid, absent⟩

section

variable [DecidableEq ι] [DecidableEq κ] {isPrimary : ι → Bool}

/-- A call of `GetRecord` for `k` by `t` leads from `s` to `s'`, where it has found `r`. -/
inductive GetRun (isPrimary : ι → Bool) (s : State ι κ) (t : XID) (i : ι) (k : κ) :
    State ι κ → Option Ptr → Prop
  /-- the key is not in the index -/
  | miss (hready : s.ready t) (hk : s.index i k = none) : GetRun isPrimary s t i k s none
  /-- `oid_get_version` has returned, after steps of any transactions -/
  | hit {e : Entry} {acts : List (EngineAct ι κ)} {s' : State ι κ} {r : Option Ptr}
      (hk : s.index i k = some e)
      (hrun : run (step isPrimary) s (.getRecord t i k :: acts) = some s')
      (hown : ∀ a ∈ acts, a ≠ .readReturn t) (hpc : (s'.db.txn t).pc = .returned e r) :
      GetRun isPrimary s t i k s' r

/-- The call has found the visible version `p`. -/
def Finds (s s' : State ι κ) (t : XID) (i : ι) (k : κ) (p : Ptr) : Prop :=
  ∃ e, s.index i k = some e ∧ (s'.db.txn t).pc = .returned e (some p)

theorem GetRun.finds {s s' : State ι κ} {t : XID} {i : ι} {k : κ} {p : Ptr}
    (h : GetRun isPrimary s t i k s' (some p)) : Finds s s' t i k p := by
  cases h with
  | hit hk _ _ hpc => exact ⟨_, hk, hpc⟩

/-- What phantom protection may change: nothing but an abort.  `RC_TRUE` means that a
visible version that is not empty was written to the value argument. -/
def SameAnswer (s s' : State ι κ) (t : XID) (i : ι) (k : κ) (on off : GetResult ν) : Prop :=
  on.rc.isAbort ∨ on.rc = off.rc ∧ (on.rc = .rcTrue → on.value = off.value ∧
    ∃ p, Finds s s' t i k p ∧ (s'.db.heap p).value ≠ [] ∧ on.value = some (s'.db.heap p).value)

/-- **Phantom protection.**  For every state, transaction, key and interleaving of a call of
`GetRecord`, and every absent set: the answer is the same as without phantom protection, or
an abort code, if and only if a visible version was found, or the leaf of the search is in
the absent set with another version. -/
theorem get_record_phantom_iff [DecidableEq ν] {s s' : State ι κ} {t : XID} {i : ι} {k : κ}
    {r : Option Ptr} (h : GetRun isPrimary s t i k s' r) (absent : AbsentSet ν) (sinfo : ν × ℕ) :
    SameAnswer s s' t i k
        (getRecord true absent sinfo (s.index i k) (r.map fun p => (s'.db.heap p).value))
        (getRecord false absent sinfo (s.index i k) (r.map fun p => (s'.db.heap p).value)) ↔
      r ≠ none ∨ sinfo.1 ∈ absent.nodes ∧ absent.version sinfo.1 ≠ sinfo.2 := by
  cases r with
  | some p =>
    refine iff_of_true (.inr ⟨rfl, fun hrc => ⟨rfl, p, h.finds, ?_, rfl⟩⟩) (.inl (by simp))
    -- the code is the one of `DoTupleRead`
    rintro hnil
    simp [getRecord, doTupleRead, hnil] at hrc
  | none =>
    simp only [Option.map_none, getRecord, doNodeRead_rc, SameAnswer, if_true]
    by_cases hv : sinfo.1 ∈ absent.nodes ∧ absent.version sinfo.1 ≠ sinfo.2
    · simp [hv, Rc.isAbort]
    · simp [hv, Rc.isAbort]

end

/-- A transaction reads the record that it has inserted. -/
def readOwnActs : List (EngineAct Unit ℕ) :=
  [.mvcc .begin, .insertRecord 0 () 5 [1] roundEntry, .insertOid 0]

theorem get_record_phantom_own :
    ∃ s s' : State Unit ℕ, run (step fun _ => true) State.init readOwnActs = some s ∧
      GetRun (fun _ => true) s 0 () 5 s' (some 0) ∧
      SameAnswer s s' 0 () 5
        (getRecord true (AbsentSet.empty : AbsentSet Bool) (true, 3) (s.index () 5)
          (some (s'.db.heap 0).value))
        (getRecord false (AbsentSet.empty : AbsentSet Bool) (true, 3) (s.index () 5)
          (some (s'.db.heap 0).value)) := by
  have hrun : GetRun (fun _ => true)
      ((run (step fun _ => true) (State.init : State Unit ℕ) readOwnActs).get rfl) 0 () 5
      ((run (step fun _ => true) (State.init : State Unit ℕ) (readOwnActs ++
        [.getRecord 0 () 5, .mvcc (.readStep 0), .mvcc (.readStep 0), .mvcc (.readStep 0)])).get
          rfl) (some 0) := by
    refine @GetRun.hit _ _ _ _ _ _ _ _ _ roundEntry (List.replicate 3 (.mvcc (.readStep 0))) _ _
      rfl rfl (fun a ha => ?_) rfl
    rw [List.eq_of_mem_replicate ha]
    intro heq
    cases heq
  exact ⟨_, _, (Option.some_get rfl).symm, hrun,
    (get_record_phantom_iff hrun (AbsentSet.empty : AbsentSet Bool) (true, 3)).mpr (.inl (by simp))⟩

/-- The key is not in the index, and its leaf is new to the transaction: with phantom
protection the code is `RC_TRUE`, and no value is written. -/
theorem miss_returns_true :
    ∃ s : State Unit ℕ, run (step fun _ => true) State.init [.mvcc .begin] = some s ∧
      GetRun (fun _ => true) s 0 () 5 s none ∧
      (getRecord true (AbsentSet.empty : AbsentSet Bool) (true, 3) (s.index () 5) none).rc =
        .rcTrue ∧
      (getRecord true (AbsentSet.empty : AbsentSet Bool) (true, 3) (s.index () 5) none).value =
        none ∧
      (getRecord false (AbsentSet.empty : AbsentSet Bool) (true, 3) (s.index () 5) none).rc =
        .rcFalse :=
  ⟨_, rfl, .miss rfl rfl, rfl, rfl, rfl⟩

end Engine

end PreemptDB
