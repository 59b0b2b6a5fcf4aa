/-
The loops of commit and abort handle one entry of the write set.

Both loops take the next entry of the write set and change the CSN of the
version at its head: `si_commit` stamps it and leaves the chain alone, `Abort`
invalidates and unlinks it.  `Handling` states what the two have in common.
-/
import PreemptDB.ChainLink

open LinkedChain
open Function (update_of_ne update_self)

namespace PreemptDB

/-- The loop of transaction `t` handles the entry `w`, whose head is `p`: it
advances, and of the objects only `p` changes, in its CSN and persistent
address. -/
structure Handling (s s' : Db) (ch : Entry → List Ptr) (t : XID) (w : WriteRecord) (p : Ptr)
    (l : List Ptr) : Prop where
  idx : (s.txn t).writeSet[(s.txn t).idx]? = some w
  pc : (s.txn t).pc ≠ .finished
  wf : ∀ u, (s'.txn u).Wf
  head : s.entry w.entry = some p
  chain : ch w.entry = p :: l
  txn : ∃ lb, s'.txn = Function.update s.txn t
    { s.txn t with idx := (s.txn t).idx + 1, lb := lb }
  same : ∀ q, Db.SameObject (s.heap q) (s'.heap q)
  heap : ∀ q, q ≠ p → s'.heap q = s.heap q
  currentCsn : s'.currentCsn = s.currentCsn
  nextPtr : s'.nextPtr = s.nextPtr
  nextXid : s'.nextXid = s.nextXid
  allocated : s'.allocated = s.allocated

namespace Handling

variable {s s' : Db} {ch : Entry → List Ptr} {t : XID} {w : WriteRecord} {p : Ptr} {l : List Ptr}

theorem next (k : Handling s s' ch t w p l) : s'.next = s.next :=
  funext fun q => (k.same q).1

theorem creator (k : Handling s s' ch t w p l) (q : Ptr) :
    (s'.heap q).creator = (s.heap q).creator :=
  (k.same q).2.1

theorem home (k : Handling s s' ch t w p l) (q : Ptr) : (s'.heap q).home = (s.heap q).home :=
  (k.same q).2.2.1

theorem csn (k : Handling s s' ch t w p l) (q : Ptr) (hq : q ≠ p) :
    (s'.heap q).csn = (s.heap q).csn := by
  rw [k.heap q hq]

theorem txn_fields (k : Handling s s' ch t w p l) (u : XID) :
    (s'.txn u).entries = (s.txn u).entries ∧ (s'.txn u).written = (s.txn u).written ∧
      (s'.txn u).isSealed = (s.txn u).isSealed ∧ (s'.txn u).endCsn = (s.txn u).endCsn := by
  obtain ⟨lb, htxn⟩ := k.txn
  rw [htxn, Function.update_apply]
  split
  · rename_i hu
    subst hu
    exact ⟨rfl, rfl, rfl, rfl⟩
  · exact ⟨rfl, rfl, rfl, rfl⟩

theorem todo_self (k : Handling s s' ch t w p l) :
    (s.txn t).todo = w.entry :: (s'.txn t).todo := by
  obtain ⟨lb, htxn⟩ := k.txn
  rw [Txn.todo_eq_cons k.idx, htxn, update_self]
  rfl

theorem todo_of_ne (k : Handling s s' ch t w p l) {u : XID} (hu : u ≠ t) :
    (s'.txn u).todo = (s.txn u).todo := by
  obtain ⟨lb, htxn⟩ := k.txn
  rw [htxn, update_of_ne hu]

theorem mem_todo_of_step (k : Handling s s' ch t w p l) {u : XID} {e : Entry}
    (he : e ∈ (s'.txn u).todo) : e ∈ (s.txn u).todo := by
  by_cases hu : u = t
  · subst hu
    rw [k.todo_self]
    exact List.mem_cons_of_mem _ he
  · rwa [← k.todo_of_ne hu]

theorem not_mem_todo (k : Handling s s' ch t w p l) (h : ChainInv s ch) :
    w.entry ∉ (s'.txn t).todo := by
  have hnd : (s.txn t).todo.Nodup := (h.nodup t).sublist (List.drop_sublist _ _)
  rw [k.todo_self] at hnd
  exact (List.nodup_cons.mp hnd).1

/-- The head is the dirty version of the transaction. -/
theorem head_dirty (k : Handling s s' ch t w p l) (h : ChainInv s ch) :
    (s.heap p).csn = .xid t ∧ (s.heap p).creator = t ∧ (s.heap p).home = w.entry ∧
      (s.txn t).written w.entry = some p := by
  obtain ⟨q, l', hq, -, -, hx, hcr, hw⟩ := h.dirty_head (k.todo_self ▸ List.mem_cons_self)
  rw [k.head, Option.some_inj] at hq
  subst hq
  exact ⟨hx, hcr, (h.member (k.chain ▸ List.mem_cons_self)).2, hw⟩

/-- Another version in a chain is not the transaction's version of this entry. -/
theorem mem_todo_step (k : Handling s s' ch t w p l) (h : ChainInv s ch) {q : Ptr} {e : Entry}
    (hq : q ∈ ch e) (hne : q ≠ p) (he : e ∈ (s.txn (s.heap q).creator).todo) :
    e ∈ (s'.txn (s.heap q).creator).todo := by
  by_cases hu : (s.heap q).creator = t
  · rw [hu, k.todo_self] at he
    rw [hu]
    refine (List.mem_cons.mp he).resolve_left fun hee => hne ?_
    have hw := (h.version hq).1
    rw [hu, hee, (k.head_dirty h).2.2.2, Option.some_inj] at hw
    exact hw.symm
  · rwa [k.todo_of_ne hu]

theorem unborn_step (k : Handling s s' ch t w p l) (h : ChainInv s ch) (u : XID)
    (hu : s'.nextXid ≤ u) : s'.txn u = Txn.unborn := by
  obtain ⟨lb, htxn⟩ := k.txn
  rw [k.nextXid] at hu
  have hlt := h.lt_nextXid k.pc
  rw [htxn, update_of_ne (by rintro rfl; exact absurd hlt (not_lt.mpr hu))]
  exact h.unborn u hu

theorem status_step (k : Handling s s' ch t w p l) (h : ChainInv s ch) {q : Ptr} {e : Entry}
    (hq : q ∈ ch e) (hne : q ≠ p) : s'.Status e q := by
  obtain ⟨-, -, hs, he⟩ := k.txn_fields (s.heap q).creator
  rw [Db.Status, k.creator, k.csn q hne, hs, he]
  rcases (h.version hq).2 with ⟨hx, hin⟩ | ⟨hx, hsl, hno⟩
  · exact .inl ⟨hx, k.mem_todo_step h hq hne hin⟩
  · exact .inr ⟨hx, hsl, fun hin => hno (k.mem_todo_of_step hin)⟩

/-- The handled version carries no XID any more. -/
theorem tagged_step (k : Handling s s' ch t w p l) (h : ChainInv s ch)
    (hp : ∀ x, (s'.heap p).csn ≠ .xid x) {q : Ptr} {x : XID} (hx : (s'.heap q).csn = .xid x) :
    (s'.heap q).creator = x := by
  by_cases hqp : q = p
  · subst hqp
    exact absurd hx (hp x)
  · rw [k.csn q hqp] at hx
    rw [k.creator]
    exact h.tagged hx

/-- `si_commit` stamps the head: the chains stay as they are. -/
theorem chainInv_stamp (k : Handling s s' ch t w p l) (h : ChainInv s ch)
    (hentry : s'.entry = s.entry) (hcsn : (s'.heap p).csn = .generate (s.txn t).endCsn)
    (hsealed : (s.txn t).isSealed = true) : ChainInv s' ch where
  wf := k.wf
  unborn := k.unborn_step h
  free := by
    rw [k.allocated, hentry]
    exact h.free
  chain := by
    rw [hentry, k.next]
    exact h.chain
  member hq := by
    rw [k.nextPtr, k.home]
    exact h.member hq
  nodup u := by
    rw [(k.txn_fields u).1]
    exact h.nodup u
  written := by
    intro u e q hq
    rw [(k.txn_fields u).2.1] at hq
    rw [k.nextPtr, k.creator, k.home]
    exact h.written hq
  entries := by
    intro u e
    rw [(k.txn_fields u).2.1, (k.txn_fields u).1]
    exact h.entries
  dirty := by
    intro u e he
    obtain ⟨q, hq, hx⟩ := h.dirty (k.mem_todo_of_step he)
    rw [hentry]
    refine ⟨q, hq, ?_⟩
    by_cases hqp : q = p
    · -- the handled version is not in the rest of the list
      subst hqp
      obtain ⟨hx', -, hh, -⟩ := k.head_dirty h
      obtain ⟨l', hl', -⟩ := h.mem_of_entry hq
      have hee := (h.member (hl' ▸ List.mem_cons_self : q ∈ ch e)).2
      rw [hx', CsnPtr.xid.injEq] at hx
      subst hx
      rw [hh] at hee
      exact absurd (hee ▸ he) (k.not_mem_todo h)
    · rwa [k.csn q hqp]
  version := by
    intro e q hq
    refine ⟨?_, ?_⟩
    · rw [k.creator, (k.txn_fields _).2.1]
      exact (h.version hq).1
    · by_cases hqp : q = p
      · subst hqp
        obtain ⟨-, hcr, hh, -⟩ := k.head_dirty h
        obtain ⟨-, -, hs, he⟩ := k.txn_fields t
        rw [Db.Status, k.creator, hcr, hcsn, hs, he, ← (h.member hq).2, hh]
        exact .inr ⟨rfl, hsealed, k.not_mem_todo h⟩
      · exact k.status_step h hq hqp
  kept := by
    intro u e q hs hq
    rw [(k.txn_fields u).2.2.1] at hs
    rw [(k.txn_fields u).2.1] at hq
    exact h.kept hs hq
  below := by
    intro q hq
    rw [k.nextPtr] at hq
    obtain ⟨l', hc, hsuf, hst⟩ := h.below hq
    refine ⟨l', by rwa [k.next], by rwa [k.home], fun r hr => ?_⟩
    by_cases hrp : r = p
    · subst hrp
      exact ⟨_, hcsn⟩
    · rw [Db.Stamped, k.csn r hrp]
      exact hst r hr
  stamped := by
    rintro q ⟨c, hc⟩
    rw [k.home]
    by_cases hqp : q = p
    · subst hqp
      rw [(k.head_dirty h).2.2.1, k.chain]
      exact List.mem_cons_self
    · rw [k.csn q hqp] at hc
      exact h.stamped ⟨c, hc⟩
  tagged := k.tagged_step h (by rw [hcsn]; rintro x ⟨⟩)

/-- In a chain from which the head of `w.entry` is removed. -/
theorem mem_tail (k : Handling s s' ch t w p l) (h : ChainInv s ch) {e : Entry} {q : Ptr} :
    q ∈ Function.update ch w.entry l e ↔ q ∈ ch e ∧ q ≠ p := by
  have hp : p ∈ ch w.entry := k.chain ▸ List.mem_cons_self
  by_cases hee : e = w.entry
  · subst hee
    have hnd := (h.chain w.entry).nodup
    rw [k.chain] at hnd
    rw [update_self, k.chain, List.mem_cons]
    constructor
    · intro hq
      exact ⟨.inr hq, by rintro rfl; exact (List.nodup_cons.mp hnd).1 hq⟩
    · rintro ⟨hq, hne⟩
      exact hq.resolve_left hne
  · rw [update_of_ne hee]
    refine ⟨fun hq => ⟨hq, ?_⟩, And.left⟩
    rintro rfl
    exact hee ((h.member hq).2.symm.trans (h.member hp).2)

/-- `Abort` unlinks the head. -/
theorem chainInv_unlink (k : Handling s s' ch t w p l) (h : ChainInv s ch)
    (hentry : s'.entry = Function.update s.entry w.entry (s.next p))
    (hcsn : (s'.heap p).csn = .null) (hsealed : (s.txn t).isSealed = false) :
    ChainInv s' (Function.update ch w.entry l) where
  wf := k.wf
  unborn := k.unborn_step h
  free := by
    intro e he
    rw [k.allocated] at he
    have hnone := h.free e he
    rw [hentry, update_of_ne (by rintro rfl; rw [k.head] at hnone; cases hnone)]
    exact hnone
  chain := by
    intro e
    rw [hentry, k.next]
    by_cases hee : e = w.entry
    · subst hee
      rw [update_self, update_self]
      have hc := h.chain w.entry
      rw [k.chain] at hc
      exact hc.2
    · rw [update_of_ne hee, update_of_ne hee]
      exact h.chain e
  member hq := by
    rw [k.nextPtr, k.home]
    exact h.member ((k.mem_tail h).mp hq).1
  nodup u := by
    rw [(k.txn_fields u).1]
    exact h.nodup u
  written := by
    intro u e q hq
    rw [(k.txn_fields u).2.1] at hq
    rw [k.nextPtr, k.creator, k.home]
    exact h.written hq
  entries := by
    intro u e
    rw [(k.txn_fields u).2.1, (k.txn_fields u).1]
    exact h.entries
  dirty := by
    intro u e he
    obtain ⟨q, hq, hx⟩ := h.dirty (k.mem_todo_of_step he)
    obtain ⟨hx', -, -, -⟩ := k.head_dirty h
    -- the head that is unlinked is of this transaction, which has handled its entry
    have hee : e ≠ w.entry := by
      rintro rfl
      rw [k.head, Option.some_inj] at hq
      subst hq
      rw [hx', CsnPtr.xid.injEq] at hx
      exact k.not_mem_todo h (hx ▸ he)
    refine ⟨q, by rw [hentry, update_of_ne hee, hq], ?_⟩
    obtain ⟨l', hl', -⟩ := h.mem_of_entry hq
    have hmem : q ∈ ch e := hl' ▸ List.mem_cons_self
    have hqp : q ≠ p := by
      rintro rfl
      exact hee ((h.member hmem).2.symm.trans (k.head_dirty h).2.2.1)
    rwa [k.csn q hqp]
  version := by
    intro e q hq
    obtain ⟨hq, hqp⟩ := (k.mem_tail h).mp hq
    rw [k.creator, (k.txn_fields _).2.1]
    exact ⟨(h.version hq).1, k.status_step h hq hqp⟩
  kept := by
    intro u e q hs hq
    rw [(k.txn_fields u).2.2.1] at hs
    rw [(k.txn_fields u).2.1] at hq
    refine (k.mem_tail h).mpr ⟨h.kept hs hq, ?_⟩
    rintro rfl
    have hcr := (h.written hq).2.1
    rw [(k.head_dirty h).2.1] at hcr
    rw [← hcr, hsealed] at hs
    cases hs
  below := by
    intro q hq
    rw [k.nextPtr] at hq
    obtain ⟨l', hc, hsuf, hst⟩ := h.below hq
    -- what is below a version is stamped, and the head is not
    have hpl : p ∉ l' := by
      intro hp
      obtain ⟨c, hc'⟩ := hst p hp
      rw [(k.head_dirty h).1] at hc'
      cases hc'
    refine ⟨l', by rwa [k.next], ?_, fun r hr => ?_⟩
    · rw [k.home]
      by_cases hee : (s.heap q).home = w.entry
      · rw [hee] at hsuf ⊢
        rw [k.chain] at hsuf
        rw [update_self]
        exact suffix_of_not_mem hsuf hpl
      · rwa [update_of_ne hee]
    · rw [Db.Stamped, k.csn r (by rintro rfl; exact hpl hr)]
      exact hst r hr
  stamped := by
    rintro q ⟨c, hc⟩
    have hqp : q ≠ p := by
      rintro rfl
      rw [hcsn] at hc
      cases hc
    rw [k.csn q hqp] at hc
    rw [k.home]
    exact (k.mem_tail h).mpr ⟨h.stamped ⟨c, hc⟩, hqp⟩
  tagged := k.tagged_step h (by rw [hcsn]; rintro x ⟨⟩)

end Handling

namespace ChainInv

variable {s : Db} {ch : Entry → List Ptr} {t : XID} {w : WriteRecord} {p : Ptr}

theorem handling_stamp (h : ChainInv s ch) (d : FatPtr) (lb : Option LogBlock)
    (hpc : (s.txn t).pc = .postcommit) (hw : (s.txn t).writeSet[(s.txn t).idx]? = some w)
    (hp : s.entry w.entry = some p) : ∃ l,
      Handling s (((s.setPersistentAddress p d).setCsn p
        (CsnPtr.generate (s.txn t).endCsn)).setTxn t
          { s.txn t with idx := (s.txn t).idx + 1, lb := lb }) ch t w p l := by
  obtain ⟨l, hl, -⟩ := h.mem_of_entry hp
  have hsame : ∀ r, Db.SameObject (s.heap r) (((s.setPersistentAddress p d).setCsn p
      (CsnPtr.generate (s.txn t).endCsn)).heap r) := by
    intro r
    obtain ⟨h1, h2, h3, h4⟩ := Db.setPersistentAddress_same s p r d
    obtain ⟨k1, k2, k3, k4⟩ := Db.setCsn_same (s.setPersistentAddress p d) p r
      (CsnPtr.generate (s.txn t).endCsn)
    exact ⟨k1.trans h1, k2.trans h2, k3.trans h3, k4.trans h4⟩
  exact ⟨l, hw, by simp [hpc], (Move.stamp t w p d lb hpc hw hp).wf h.wf, hp, hl, ⟨lb, rfl⟩,
    hsame, fun r hr => by
      rw [Db.setTxn_heap, Db.setCsn_heap_of_ne _ _ _ hr,
        Db.setPersistentAddress_heap_of_ne _ _ _ hr], rfl, rfl, rfl, rfl⟩

theorem handling_unlink (h : ChainInv s ch)
    (hpc : (s.txn t).pc = .aborting) (hw : (s.txn t).writeSet[(s.txn t).idx]? = some w)
    (hp : s.entry w.entry = some p) : ∃ l,
      Handling s (((s.setCsn p .null).setEntry w.entry (s.next p)).setTxn t
        { s.txn t with idx := (s.txn t).idx + 1 }) ch t w p l := by
  obtain ⟨l, hl, -⟩ := h.mem_of_entry hp
  exact ⟨l, hw, by simp [hpc], (Move.unlink t w p hpc hw hp).wf h.wf, hp, hl, ⟨_, rfl⟩,
    fun r => Db.setCsn_same s p r .null, fun r hr => Db.setCsn_heap_of_ne s p .null hr,
    rfl, rfl, rfl, rfl⟩

end ChainInv

end PreemptDB
