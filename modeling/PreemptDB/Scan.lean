/-
`Scan` and `ReverseScan` (`engine.cc`).

Masstree reports every leaf to `on_resp_node` and every visible tuple to `invoke`, and
stops when `invoke` says so.  Both write one `return_code`: `on_resp_node` if it aborts,
`invoke` always.  So the last tuple decides, and an abort of `on_resp_node` neither stops
the scan nor survives the next tuple.

* `scan`, `reverseScan` — the callbacks of one call, in the order masstree issues them;
* `outcomes` — what each of them did;
* `returnCode_eq` — the code is that of the last callback that wrote it;
* `Orderly` — a sequence of leaves and tuples, an absent set and a user callback for which
  this is the code that the callbacks add up to;
* `outcomesFrom_getElem?` — what a callback does, from the sequence alone;
* `scan_reports_iff` — a scan reports what happened exactly for orderly sequences.
-/
import Mathlib.Data.List.GetD
import PreemptDB.GetRecord

namespace PreemptDB

namespace Engine

variable {ν κ : Type}

/-- A callback of masstree. -/
inductive ScanCall (ν κ : Type)
  /-- `on_resp_node` -/
  | respNode (n : ν) (version : ℕ)
  /-- `invoke` -/
  | tuple (k : κ) (value : List UInt8)

/-- `SearchRangeCallback`, the absent set, and what the user callback has got. -/
structure ScanState (ν κ : Type) where
  returnCode : Rc
  absent : AbsentSet ν
  delivered : List (κ × List UInt8)

def ScanState.init (absent : AbsentSet ν) : ScanState ν κ := ⟨.rcFalse, absent, []⟩

/-- What a callback did: nothing to the code, or it aborted, delivered a record, or found a
tombstone. -/
inductive Outcome
  | quiet
  | abort
  | record
  | tombstone
  deriving DecidableEq, Repr

section

variable [DecidableEq ν] (phantomProt : Bool)

/-- `on_resp_node` -/
def onRespNode (s : ScanState ν κ) (n : ν) (version : ℕ) : ScanState ν κ :=
  if phantomProt then
    let r := doNodeRead s.absent n version
    if r.1.isAbort then { s with returnCode := r.1, absent := r.2 } else { s with absent := r.2 }
  else s

/-- `invoke`, and whether the scan goes on.  The user callback decides on what it has got
so far. -/
def invoke (upcall : List (κ × List UInt8) → Bool) (s : ScanState ν κ) (k : κ)
    (value : List UInt8) : ScanState ν κ × Bool :=
  let r := doTupleRead value
  if r.1 = .rcTrue then
    ({ s with returnCode := r.1, delivered := s.delivered ++ [(k, r.2)] },
      upcall (s.delivered ++ [(k, r.2)]))
  else ({ s with returnCode := r.1 }, !r.1.isAbort)

variable (upcall : List (κ × List UInt8) → Bool)

/-- One callback, and whether the scan goes on. -/
def callback (s : ScanState ν κ) : ScanCall ν κ → ScanState ν κ × Bool
  | .respNode n version => (onRespNode phantomProt s n version, true)
  | .tuple k value => invoke upcall s k value

/-- The loop of `basic_table::scan`. -/
def callbacks (s : ScanState ν κ) : List (ScanCall ν κ) → ScanState ν κ
  | [] => s
  | c :: cs =>
    let r := callback phantomProt upcall s c
    if r.2 then callbacks r.1 cs else r.1

/-- What one callback does in a state. -/
def outcome (s : ScanState ν κ) : ScanCall ν κ → Outcome
  | .respNode n version =>
    if phantomProt ∧ (doNodeRead s.absent n version).1.isAbort then .abort else .quiet
  | .tuple _ value => if 0 < value.length then .record else .tombstone

/-- What the callbacks do, one after the other. -/
def outcomesFrom (s : ScanState ν κ) : List (ScanCall ν κ) → List Outcome
  | [] => []
  | c :: cs =>
    let r := callback phantomProt upcall s c
    outcome phantomProt s c :: if r.2 then outcomesFrom r.1 cs else []

/-- A call on a range that may be empty. -/
def searchRange (isEmpty : Bool) (absent : AbsentSet ν) (calls : List (ScanCall ν κ)) :
    ScanState ν κ :=
  if isEmpty then .init absent else callbacks phantomProt upcall (.init absent) calls

def outcomes (isEmpty : Bool) (absent : AbsentSet ν) (calls : List (ScanCall ν κ)) :
    List Outcome :=
  if isEmpty then [] else outcomesFrom phantomProt upcall (.init absent) calls

variable [LinearOrder κ]

/-- The range from `startKey` up to `endKey` is empty. -/
def emptyRange (startKey : κ) (endKey : Option κ) : Bool :=
  endKey.any fun endKey => endKey ≤ startKey

/-- The range from `startKey` down to `endKey` is empty. -/
def emptyReverseRange (startKey : κ) (endKey : Option κ) : Bool :=
  endKey.any fun endKey => startKey ≤ endKey

/-- `Scan`, where masstree issues `calls`. -/
def scan (startKey : κ) (endKey : Option κ) (absent : AbsentSet ν) (calls : List (ScanCall ν κ)) :
    ScanState ν κ :=
  searchRange phantomProt upcall (emptyRange startKey endKey) absent calls

/-- `ReverseScan`, where masstree issues `calls`. -/
def reverseScan (startKey : κ) (endKey : Option κ) (absent : AbsentSet ν)
    (calls : List (ScanCall ν κ)) : ScanState ν κ :=
  searchRange phantomProt upcall (emptyReverseRange startKey endKey) absent calls

end

/-- The code that a callback with this outcome writes. -/
def Outcome.code? : Outcome → Option Rc
  | quiet => none
  | abort => some .rcAbortPhantom
  | record => some .rcTrue
  | tombstone => some .rcFalse

/-- `rc` is the code of the last outcome that writes one, or else `rc₀`. -/
def LastWrite (os : List Outcome) (rc₀ rc : Rc) : Prop :=
  ((∀ o ∈ os, o = .quiet) ∧ rc = rc₀) ∨
    ∃ (j : ℕ) (o : Outcome), os[j]? = some o ∧ o.code? = some rc ∧
      ∀ i > j, ∀ o ∈ os[i]?, o = .quiet

theorem LastWrite.cons {o : Outcome} {os : List Outcome} {rc₀ rc : Rc}
    (h : LastWrite os (o.code?.getD rc₀) rc) : LastWrite (o :: os) rc₀ rc := by
  rcases h with ⟨hquiet, hrc⟩ | ⟨j, p, hj, hrc, hquiet⟩
  · cases ho : o.code? with
    | none =>
      have hq : o = .quiet := by cases o <;> first | rfl | cases ho
      refine .inl ⟨List.forall_mem_cons.mpr ⟨hq, hquiet⟩, ?_⟩
      rw [hrc, ho, Option.getD_none]
    | some rc' =>
      rw [ho, Option.getD_some] at hrc
      refine .inr ⟨0, o, rfl, hrc ▸ ho, fun i hi p hp => ?_⟩
      obtain ⟨i, rfl⟩ : ∃ i', i = i' + 1 := ⟨i - 1, by omega⟩
      exact hquiet p (List.mem_of_getElem? hp)
  · refine .inr ⟨j + 1, p, hj, hrc, fun i hi q hq => ?_⟩
    obtain ⟨i, rfl⟩ : ∃ i', i = i' + 1 := ⟨i - 1, by omega⟩
    exact hquiet i (by omega) q hq

/-- What a scan promises: an abort code if a callback aborted, otherwise whether a record was
delivered; and no record after an abort. -/
structure Reports (os : List Outcome) (s : ScanState ν κ) : Prop where
  aborts : .abort ∈ os → s.returnCode.isAbort
  records : .abort ∉ os → s.delivered ≠ [] → s.returnCode = .rcTrue
  nothing : .abort ∉ os → s.delivered = [] → s.returnCode = .rcFalse
  stops : os.Pairwise fun a b => a = .abort → b ≠ .record

/-! ### Sequences of leaves and tuples -/

/-- The record that a tuple hands to the user callback. -/
def ScanCall.record? : ScanCall ν κ → Option (κ × List UInt8)
  | .respNode _ _ => none
  | .tuple k value => if value = [] then none else some (k, value)

/-- The version with which a leaf is reported. -/
def ScanCall.versionOf [DecidableEq ν] (n : ν) : ScanCall ν κ → Option ℕ
  | .respNode m version => if m = n then some version else none
  | .tuple _ _ => none

/-- The version that a report of the leaf is compared with: the one in the absent set, or
else the first one that was reported. -/
def knownVersion [DecidableEq ν] (absent : AbsentSet ν) (before : List (ScanCall ν κ)) (n : ν) :
    Option ℕ :=
  if n ∈ absent.nodes then some (absent.version n) else before.findSome? (·.versionOf n)

section

variable (calls : List (ScanCall ν κ)) (i : ℕ)

/-- The call at `i` reports a leaf that is known with another version. -/
def Conflict [DecidableEq ν] (phantomProt : Bool) (absent : AbsentSet ν) : Prop :=
  phantomProt ∧ ∃ n version known, calls[i]? = some (.respNode n version) ∧
    knownVersion absent (calls.take i) n = some known ∧ known ≠ version

/-- The call at `i` has a value. -/
def IsRecord : Prop := ∃ k value, calls[i]? = some (.tuple k value) ∧ value ≠ []

/-- The call at `i` is about a deleted tuple. -/
def IsTombstone : Prop := ∃ k, calls[i]? = some (.tuple k [])

/-- The user callback, which has got `got` before, wants more after every record before `i`. -/
def Issued (upcall : List (κ × List UInt8) → Bool) (got : List (κ × List UInt8)) : Prop :=
  ∀ j < i, ∀ c ∈ calls[j]?, c.record?.isSome →
    upcall (got ++ (calls.take (j + 1)).filterMap ScanCall.record?)

end

/-- Among the calls up to the record at which the user callback stops: no record follows a
conflict, and a tombstone with neither a conflict nor a tuple behind it has neither a
conflict nor a record before it. -/
structure Orderly [DecidableEq ν] (phantomProt : Bool) (upcall : List (κ × List UInt8) → Bool)
    (absent : AbsentSet ν) (calls : List (ScanCall ν κ)) : Prop where
  conflict : ∀ i, Conflict calls i phantomProt absent →
    ∀ j > i, Issued calls j upcall [] → ¬ IsRecord calls j
  tombstone : ∀ j, Issued calls j upcall [] → IsTombstone calls j →
    (∀ i > j, Issued calls i upcall [] →
      ¬ Conflict calls i phantomProt absent ∧ ¬ IsRecord calls i ∧ ¬ IsTombstone calls i) →
    ∀ i < j, ¬ Conflict calls i phantomProt absent ∧ ¬ IsRecord calls i

section

variable [DecidableEq ν] (phantomProt : Bool) (upcall : List (κ × List UInt8) → Bool)

/-- One callback writes the code of its outcome, and delivers only records. -/
theorem callback_spec (s : ScanState ν κ) (c : ScanCall ν κ) :
    (callback phantomProt upcall s c).1.returnCode =
        ((outcome phantomProt s c).code?).getD s.returnCode ∧
      ∃ l, (callback phantomProt upcall s c).1.delivered = s.delivered ++ l ∧
        (l ≠ [] ↔ outcome phantomProt s c = .record) := by
  cases c with
  | respNode n version =>
    simp only [callback, onRespNode, outcome, doNodeRead_rc]
    by_cases hp : phantomProt
    · by_cases ha : n ∈ s.absent.nodes ∧ s.absent.version n ≠ version
      · simp [hp, ha, Rc.isAbort, Outcome.code?]
      · simp [hp, ha, Rc.isAbort, Outcome.code?]
    · simp [hp, Outcome.code?]
  | tuple k value =>
    simp only [callback, invoke, outcome, doTupleRead]
    by_cases hv : 0 < value.length
    · simp [hv, Outcome.code?]
    · simp [hv, Outcome.code?]

/-- The code is that of the last callback that wrote it. -/
theorem returnCode_eq (s : ScanState ν κ) (calls : List (ScanCall ν κ)) :
    LastWrite (outcomesFrom phantomProt upcall s calls) s.returnCode
      (callbacks phantomProt upcall s calls).returnCode := by
  induction calls generalizing s with
  | nil => exact .inl ⟨fun o ho => absurd ho List.not_mem_nil, rfl⟩
  | cons c cs ih =>
    rw [outcomesFrom, callbacks]
    refine LastWrite.cons ?_
    rw [← (callback_spec phantomProt upcall s c).1]
    split
    · exact ih _
    · exact .inl ⟨fun o ho => absurd ho List.not_mem_nil, rfl⟩

/-- The user callback has got something if and only if a record came by. -/
theorem delivered_iff (s : ScanState ν κ) (calls : List (ScanCall ν κ)) :
    (callbacks phantomProt upcall s calls).delivered ≠ [] ↔
      s.delivered ≠ [] ∨ .record ∈ outcomesFrom phantomProt upcall s calls := by
  induction calls generalizing s with
  | nil => simp [callbacks, outcomesFrom]
  | cons c cs ih =>
    obtain ⟨l, hl, hrec⟩ := (callback_spec phantomProt upcall s c).2
    have hone : (callback phantomProt upcall s c).1.delivered ≠ [] ↔
        s.delivered ≠ [] ∨ outcome phantomProt s c = .record := by
      rw [hl, ← hrec, ne_eq, List.append_eq_nil_iff, not_and_or]
    rw [callbacks, outcomesFrom]
    split
    · rw [ih, hone, List.mem_cons, or_assoc, eq_comm]
    · rw [hone, List.mem_singleton, eq_comm]

/-- The call at `i` has this outcome, if masstree comes to it. -/
def HasOutcome (absent : AbsentSet ν) (calls : List (ScanCall ν κ)) (i : ℕ) : Outcome → Prop
  | .abort => Conflict calls i phantomProt absent
  | .record => IsRecord calls i
  | .tombstone => IsTombstone calls i
  | .quiet => (∃ n version, calls[i]? = some (.respNode n version)) ∧
      ¬ Conflict calls i phantomProt absent

/-- What the first callback does. -/
theorem outcome_eq_iff (s : ScanState ν κ) (c : ScanCall ν κ) (cs : List (ScanCall ν κ))
    (o : Outcome) :
    outcome phantomProt s c = o ↔ HasOutcome phantomProt s.absent (c :: cs) 0 o := by
  cases c with
  | respNode n version =>
    have hconf : Conflict (.respNode n version :: cs) 0 phantomProt s.absent ↔
        phantomProt ∧ (doNodeRead s.absent n version).1.isAbort := by
      simp [Conflict, knownVersion, doNodeRead_isAbort]
    by_cases ha : phantomProt ∧ (doNodeRead s.absent n version).1.isAbort
    · cases o <;> simp only [HasOutcome, hconf] <;> simp [outcome, IsRecord, IsTombstone, ha]
    · cases o <;> simp only [HasOutcome, hconf] <;> simp [outcome, IsRecord, IsTombstone, ha]
  | tuple k value =>
    by_cases hv : value = []
    · cases o <;> simp [outcome, HasOutcome, Conflict, IsRecord, IsTombstone, hv]
    · cases o <;> simp [outcome, HasOutcome, Conflict, IsRecord, IsTombstone, hv,
        List.length_pos_iff]

/-- The known versions go over to the state of the scan. -/
theorem conflict_succ (s : ScanState ν κ) (c : ScanCall ν κ) (cs : List (ScanCall ν κ)) (i : ℕ) :
    Conflict (c :: cs) (i + 1) phantomProt s.absent ↔
      Conflict cs i phantomProt (callback phantomProt upcall s c).1.absent := by
  cases phantomProt with
  | false => simp [Conflict]
  | true =>
    have hknown : ∀ n, knownVersion s.absent (c :: cs.take i) n =
        knownVersion (callback true upcall s c).1.absent (cs.take i) n := by
      intro n
      cases c with
      | tuple k value =>
        have habsent : (invoke upcall s k value).1.absent = s.absent := by
          simp only [invoke]
          split <;> rfl
        simp [knownVersion, ScanCall.versionOf, callback, habsent]
      | respNode m version =>
        have habsent : (onRespNode true s m version).absent =
            if m ∈ s.absent.nodes then s.absent else s.absent.set m version := by
          rw [← doNodeRead_absent]
          simp only [onRespNode, if_true]
          split <;> rfl
        simp only [callback, habsent]
        by_cases hm : m ∈ s.absent.nodes
        · by_cases hn : n ∈ s.absent.nodes
          · simp [knownVersion, hm, hn]
          · have hne : m ≠ n := fun h => hn (h ▸ hm)
            simp [knownVersion, ScanCall.versionOf, hm, hn, hne]
        · by_cases hne : n = m
          · subst hne
            simp [knownVersion, ScanCall.versionOf, AbsentSet.set, hm]
          · simp [knownVersion, ScanCall.versionOf, AbsentSet.set, hm, hne, Ne.symm hne]
    simp only [Conflict, List.getElem?_cons_succ, List.take_succ_cons, hknown]

theorem issued_succ (s : ScanState ν κ) (c : ScanCall ν κ) (cs : List (ScanCall ν κ)) (i : ℕ) :
    Issued (c :: cs) (i + 1) upcall s.delivered ↔
      (callback phantomProt upcall s c).2 ∧
        Issued cs i upcall (callback phantomProt upcall s c).1.delivered := by
  rw [Issued, Nat.forall_lt_succ_left]
  cases c with
  | respNode n version =>
    have hdel : (onRespNode phantomProt s n version).delivered = s.delivered := by
      simp only [onRespNode]
      split
      · split <;> rfl
      · rfl
    simp [callback, hdel, Issued, List.filterMap_cons, ScanCall.record?]
  | tuple k value =>
    by_cases hv : value = []
    · simp [callback, invoke, doTupleRead, hv, Issued, ScanCall.record?, Rc.isAbort]
    · simp [callback, invoke, doTupleRead, hv, Issued, ScanCall.record?, List.length_pos_iff]

/-- What the callback at `i` does, from the absent set and the calls before it. -/
theorem outcomesFrom_getElem? (s : ScanState ν κ) (calls : List (ScanCall ν κ)) (i : ℕ)
    (o : Outcome) :
    (outcomesFrom phantomProt upcall s calls)[i]? = some o ↔
      Issued calls i upcall s.delivered ∧ HasOutcome phantomProt s.absent calls i o := by
  induction calls generalizing s i with
  | nil => cases o <;> simp [outcomesFrom, HasOutcome, Conflict, IsRecord, IsTombstone]
  | cons c cs ih =>
    cases i with
    | zero =>
      have hissued : Issued (c :: cs) 0 upcall s.delivered := fun j hj => absurd hj j.not_lt_zero
      rw [outcomesFrom, List.getElem?_cons_zero, Option.some_inj, outcome_eq_iff phantomProt s c cs]
      exact (and_iff_right hissued).symm
    | succ i =>
      have hkind : HasOutcome phantomProt s.absent (c :: cs) (i + 1) o ↔
          HasOutcome phantomProt (callback phantomProt upcall s c).1.absent cs i o := by
        have hconf := conflict_succ phantomProt upcall s c cs i
        cases o <;> simp only [HasOutcome, hconf] <;> simp [IsRecord, IsTombstone]
      rw [issued_succ phantomProt upcall s c cs i, hkind, outcomesFrom, List.getElem?_cons_succ]
      split
      · next hgo => rw [ih, hgo, eq_self, true_and]
      · next hstop => simp [hstop]

section

variable {phantomProt upcall} {os : List Outcome} {s : ScanState ν κ} {absent : AbsentSet ν}
  {calls : List (ScanCall ν κ)}
  (hat : ∀ i o, os[i]? = some o ↔
    Issued calls i upcall [] ∧ HasOutcome phantomProt absent calls i o)
  (hcode : LastWrite os .rcFalse s.returnCode) (hdel : s.delivered ≠ [] ↔ .record ∈ os)

include hat hcode hdel

theorem Reports.orderly (h : Reports os s) : Orderly phantomProt upcall absent calls := by
  obtain ⟨haborts, hrecords, -, hstops⟩ := h
  refine ⟨fun i hi j hij hj hrec => ?_, fun j hj htomb hbehind i hij => ?_⟩
  · have habort := (hat i .abort).mpr ⟨fun m hm => hj m (hm.trans hij), hi⟩
    obtain ⟨hi', habort⟩ := List.getElem?_eq_some_iff.mp habort
    obtain ⟨hj', hrec⟩ := List.getElem?_eq_some_iff.mp ((hat j .record).mpr ⟨hj, hrec⟩)
    exact List.pairwise_iff_getElem.mp hstops i j hi' hj' hij habort hrec
  · -- the tombstone is the last to write the code
    have hj' := (hat j .tombstone).mpr ⟨hj, htomb⟩
    have hfalse : s.returnCode = .rcFalse := by
      rcases hcode with ⟨hquiet, -⟩ | ⟨m, o, hm, hrc, hquiet⟩
      · cases hquiet _ (List.mem_of_getElem? hj')
      · rcases Nat.lt_trichotomy j m with hlt | rfl | hgt
        · obtain ⟨hissued, hkind⟩ := (hat m o).mp hm
          obtain ⟨hc, hr, ht⟩ := hbehind m hlt hissued
          cases o with
          | quiet => cases hrc
          | abort => exact absurd hkind hc
          | record => exact absurd hkind hr
          | tombstone => exact absurd hkind ht
        · rw [hj'] at hm
          cases hm
          exact (Option.some_inj.mp hrc).symm
        · cases hquiet j hgt _ hj'
    have hnoabort : .abort ∉ os := fun ha => by
      have := haborts ha
      rw [hfalse] at this
      cases this
    have hnorecord : .record ∉ os := fun hr => by
      have := hrecords hnoabort (hdel.mpr hr)
      rw [hfalse] at this
      cases this
    have hissued : Issued calls i upcall [] := fun m hm => hj m (hm.trans hij)
    exact ⟨fun h => hnoabort (List.mem_of_getElem? ((hat i .abort).mpr ⟨hissued, h⟩)),
      fun h => hnorecord (List.mem_of_getElem? ((hat i .record).mpr ⟨hissued, h⟩))⟩

theorem Orderly.reports (h : Orderly phantomProt upcall absent calls) : Reports os s := by
  obtain ⟨hconf, htomb⟩ := h
  have hstops : os.Pairwise fun a b => a = .abort → b ≠ .record := by
    refine List.pairwise_iff_getElem.mpr fun i j hi hj hij ha hr => ?_
    have habort := (hat i .abort).mp (List.getElem?_eq_some_iff.mpr ⟨hi, ha⟩)
    have hrecord := (hat j .record).mp (List.getElem?_eq_some_iff.mpr ⟨hj, hr⟩)
    exact hconf i habort.2 j hij hrecord.1 hrecord.2
  rcases hcode with ⟨hquiet, hrc⟩ | ⟨j, o, hj, hrc, hquiet⟩
  · -- nothing has been written
    refine ⟨fun ha => ?_, fun _ hd => ?_, fun _ _ => hrc, hstops⟩
    · cases hquiet _ ha
    · cases hquiet _ (hdel.mp hd)
  · -- an outcome other than the last write, and not quiet, is before it
    have hbefore : ∀ {p}, p ∈ os → p ≠ .quiet → p ≠ o → ∃ i < j, Issued calls i upcall [] ∧
        HasOutcome phantomProt absent calls i p := by
      intro p hp hpq hpo
      obtain ⟨i, hi⟩ := List.mem_iff_getElem?.mp hp
      rcases Nat.lt_trichotomy i j with hlt | rfl | hgt
      · exact ⟨i, hlt, (hat i p).mp hi⟩
      · rw [hj] at hi
        exact absurd (Option.some_inj.mp hi).symm hpo
      · exact absurd (hquiet i hgt p hi) hpq
    obtain ⟨hissued, hkind⟩ := (hat j o).mp hj
    cases o with
    | quiet => cases hrc
    | abort =>
      have ha := List.mem_of_getElem? hj
      have hrc : s.returnCode = .rcAbortPhantom := (Option.some_inj.mp hrc).symm
      exact ⟨fun _ => hrc ▸ rfl, fun h => absurd ha h, fun h => absurd ha h, hstops⟩
    | record =>
      have hnoabort : .abort ∉ os := fun ha => by
        obtain ⟨i, hij, -, hi⟩ := hbefore ha (by decide) (by decide)
        exact hconf i hi j hij hissued hkind
      have hd := hdel.mpr (List.mem_of_getElem? hj)
      exact ⟨fun ha => absurd ha hnoabort, fun _ _ => (Option.some_inj.mp hrc).symm,
        fun _ h => absurd h hd, hstops⟩
    | tombstone =>
      have hnone := htomb j hissued hkind fun i hij hi => by
        have hq : ∀ p, HasOutcome phantomProt absent calls i p → p = .quiet :=
          fun p hp => hquiet i hij p ((hat i p).mpr ⟨hi, hp⟩)
        exact ⟨fun h => (by cases hq .abort h), fun h => (by cases hq .record h),
          fun h => (by cases hq .tombstone h)⟩
      refine ⟨fun ha => ?_, fun _ hd => ?_, fun _ _ => (Option.some_inj.mp hrc).symm, hstops⟩
      · obtain ⟨i, hij, -, hi⟩ := hbefore ha (by decide) (by decide)
        exact absurd hi (hnone i hij).1
      · obtain ⟨i, hij, -, hi⟩ := hbefore (hdel.mp hd) (by decide) (by decide)
        exact absurd hi (hnone i hij).2

end

theorem searchRange_reports_iff (isEmpty : Bool) (absent : AbsentSet ν)
    (calls : List (ScanCall ν κ)) :
    Reports (outcomes phantomProt upcall isEmpty absent calls)
        (searchRange phantomProt upcall isEmpty absent calls) ↔
      isEmpty ∨ Orderly phantomProt upcall absent calls := by
  cases isEmpty with
  | true =>
    refine iff_of_true ⟨fun ha => absurd ha List.not_mem_nil, fun _ hd => absurd rfl hd,
      fun _ _ => rfl, .nil⟩ (.inl rfl)
  | false =>
    have hat := outcomesFrom_getElem? phantomProt upcall (.init absent) calls
    have hcode := returnCode_eq phantomProt upcall (.init absent) calls
    have hdel := (delivered_iff phantomProt upcall (.init absent) calls).trans
      (or_iff_right fun h => h rfl)
    exact ⟨fun h => .inr (h.orderly hat hcode hdel),
      fun h => (h.resolve_left Bool.false_ne_true).reports hat hcode hdel⟩

/-- **What a scan reports.**  For every range, absent set, user callback and sequence of
callbacks of masstree, with phantom protection on or off: the code of `Scan` and
`ReverseScan` says what happened, and no record is delivered after an abort, if and only if
the range is empty, or up to the stop no record follows a leaf whose version is not the known
one, and a tombstone that nothing comes behind has only tombstones before it. -/
theorem scan_reports_iff [LinearOrder κ] (startKey : κ) (endKey : Option κ)
    (absent : AbsentSet ν) (calls : List (ScanCall ν κ)) :
    (Reports (outcomes phantomProt upcall (emptyRange startKey endKey) absent calls)
        (scan phantomProt upcall startKey endKey absent calls) ↔
      emptyRange startKey endKey ∨ Orderly phantomProt upcall absent calls) ∧
    (Reports (outcomes phantomProt upcall (emptyReverseRange startKey endKey) absent calls)
        (reverseScan phantomProt upcall startKey endKey absent calls) ↔
      emptyReverseRange startKey endKey ∨ Orderly phantomProt upcall absent calls) :=
  ⟨searchRange_reports_iff phantomProt upcall _ absent calls,
    searchRange_reports_iff phantomProt upcall _ absent calls⟩

end

/-- The callbacks for one leaf with two tuples. -/
def oneLeaf (version : ℕ) (value value' : List UInt8) : List (ScanCall Bool ℕ) :=
  [.respNode true version, .tuple 1 value, .tuple 2 value']

/-- A record and then a tombstone: the record is delivered, and the code is `RC_FALSE`.  A
leaf that is in the absent set with another version: records are delivered after the abort,
and the code is `RC_TRUE`. -/
theorem scan_overwrites :
    ((scan true (fun _ => true) 0 none AbsentSet.empty (oneLeaf 1 [7] [])).delivered = [(1, [7])] ∧
      (scan true (fun _ => true) 0 none AbsentSet.empty (oneLeaf 1 [7] [])).returnCode =
        .rcFalse) ∧
    outcomes true (fun _ => true) (emptyRange 0 none) ⟨{true}, fun _ => 1⟩ (oneLeaf 2 [7] [8]) =
      [.abort, .record, .record] ∧
    (scan true (fun _ => true) 0 none ⟨{true}, fun _ => 1⟩ (oneLeaf 2 [7] [8])).returnCode =
      .rcTrue := by
  decide

end Engine

end PreemptDB
