/-
The version-chain invariant of whole runs.

`Grows` is what never changes again once it is there.  `OrderInv` adds the
order of the writers to the chain invariant: the writer of an older version
ended before the writer of a newer one began.  It is kept as long as no CSN has
been truncated to the 48 value bits of a fat pointer.

* `reached_inv` — every reachable state has chains with the invariants;
* `reached_chainOk` — what that says about the chain of one OID;
* `chain_broken_by_truncation` — beyond `2 ^ 48` CSNs a chain is out of order.
-/
import PreemptDB.ChainLoop
import PreemptDB.CommitRound

open LinkedChain
open Function (update_apply update_of_ne update_self)

namespace PreemptDB

/-! ### What never changes again -/

/-- What holds between a state and a later one: snapshots, sealed transactions,
the links of objects and whole stamped objects are fixed, and a transaction that
is sealed in between has a CSN that was not taken before. -/
structure Grows (s s' : Db) : Prop where
  currentCsn : s.currentCsn ≤ s'.currentCsn
  nextXid : s.nextXid ≤ s'.nextXid
  nextPtr : s.nextPtr ≤ s'.nextPtr
  beginCsn : ∀ u < s.nextXid, (s'.txn u).beginCsn = (s.txn u).beginCsn
  sealed : ∀ u, (s.txn u).isSealed = true → (s'.txn u).isSealed = true ∧
    (s'.txn u).endCsn = (s.txn u).endCsn ∧ (s'.txn u).writeSet = (s.txn u).writeSet ∧
    (s'.txn u).written = (s.txn u).written
  newly : ∀ u, (s.txn u).isSealed = false → (s'.txn u).isSealed = true →
    (s'.txn u).writeSet = [] ∨ s.currentCsn ≤ (s'.txn u).endCsn
  writes : ∀ u, (s.txn u).writeSet ≠ [] → (s'.txn u).writeSet ≠ []
  object : ∀ p < s.nextPtr, Db.SameObject (s.heap p) (s'.heap p)
  stamped : ∀ p, s.Stamped p → s'.heap p = s.heap p

namespace Grows

variable {s s' s'' : Db}

theorem refl (s : Db) : Grows s s where
  currentCsn := le_rfl
  nextXid := le_rfl
  nextPtr := le_rfl
  beginCsn _ _ := rfl
  sealed _ h := ⟨h, rfl, rfl, rfl⟩
  newly u h h' := by
    rw [h] at h'
    cases h'
  writes _ h := h
  object _ _ := ⟨rfl, rfl, rfl, rfl⟩
  stamped _ _ := rfl

theorem stamped_mono (h : Grows s s') {p : Ptr} (hp : s.Stamped p) : s'.Stamped p := by
  rw [Db.Stamped, h.stamped p hp]
  exact hp

theorem trans (h : Grows s s') (h' : Grows s' s'') : Grows s s'' where
  currentCsn := h.currentCsn.trans h'.currentCsn
  nextXid := h.nextXid.trans h'.nextXid
  nextPtr := h.nextPtr.trans h'.nextPtr
  beginCsn u hu := (h'.beginCsn u (hu.trans_le h.nextXid)).trans (h.beginCsn u hu)
  sealed u hu := by
    obtain ⟨h1, h2, h3, h4⟩ := h.sealed u hu
    obtain ⟨k1, k2, k3, k4⟩ := h'.sealed u h1
    exact ⟨k1, k2.trans h2, k3.trans h3, k4.trans h4⟩
  newly u hu hu'' := by
    cases hm : (s'.txn u).isSealed with
    | false => exact (h'.newly u hm hu'').imp id h.currentCsn.trans
    | true =>
      obtain ⟨-, k2, k3, -⟩ := h'.sealed u hm
      rw [k2, k3]
      exact h.newly u hu hm
  writes u hu := h'.writes u (h.writes u hu)
  object p hp := by
    obtain ⟨h1, h2, h3, h4⟩ := h.object p hp
    obtain ⟨k1, k2, k3, k4⟩ := h'.object p (hp.trans_le h.nextPtr)
    exact ⟨k1.trans h1, k2.trans h2, k3.trans h3, k4.trans h4⟩
  stamped p hp := (h'.stamped p (h.stamped_mono hp)).trans (h.stamped p hp)

end Grows

section

variable {s s' : Db} {ch : Entry → List Ptr}

/-- A step that replaces one unsealed transaction, and only extends the heap. -/
theorem grows_of_unsealed {t : XID} {T : Txn} (htxn : s'.txn = Function.update s.txn t T)
    (hns : (s.txn t).isSealed = false)
    (hT : T.isSealed = true → T.writeSet = [] ∨ s.currentCsn ≤ T.endCsn)
    (hwrites : (s.txn t).writeSet ≠ [] → T.writeSet ≠ [])
    (hbegin : t < s.nextXid → T.beginCsn = (s.txn t).beginCsn)
    (hcsn : s.currentCsn ≤ s'.currentCsn)
    (hxid : s.nextXid ≤ s'.nextXid) (hptr : s.nextPtr ≤ s'.nextPtr)
    (hobj : ∀ p < s.nextPtr, Db.SameObject (s.heap p) (s'.heap p))
    (hst : ∀ p, s.Stamped p → s'.heap p = s.heap p) : Grows s s' where
  currentCsn := hcsn
  nextXid := hxid
  nextPtr := hptr
  beginCsn u hu := by
    rw [htxn, update_apply]
    split
    · rename_i hut
      subst hut
      exact hbegin hu
    · rfl
  sealed u hu := by
    have hut : u ≠ t := by
      rintro rfl
      rw [hns] at hu
      cases hu
    rw [htxn, update_of_ne hut]
    exact ⟨hu, rfl, rfl, rfl⟩
  newly u hu hu' := by
    by_cases hut : u = t
    · subst hut
      rw [htxn, update_self] at hu' ⊢
      exact hT hu'
    · rw [htxn, update_of_ne hut, hu] at hu'
      cases hu'
  writes u hu := by
    rw [htxn, update_apply]
    split
    · rename_i hut
      subst hut
      exact hwrites hu
    · exact hu
  object := hobj
  stamped := hst

/-- A step that replaces one transaction by one with the same writes. -/
theorem grows_of_same {t : XID} {T : Txn} (htxn : s'.txn = Function.update s.txn t T)
    (h1 : T.beginCsn = (s.txn t).beginCsn)
    (h2 : T.isSealed = (s.txn t).isSealed) (h3 : T.endCsn = (s.txn t).endCsn)
    (h4 : T.writeSet = (s.txn t).writeSet) (h5 : T.written = (s.txn t).written)
    (hcsn : s'.currentCsn = s.currentCsn)
    (hxid : s'.nextXid = s.nextXid) (hptr : s'.nextPtr = s.nextPtr)
    (hobj : ∀ p < s.nextPtr, Db.SameObject (s.heap p) (s'.heap p))
    (hst : ∀ p, s.Stamped p → s'.heap p = s.heap p) : Grows s s' := by
  have hsame : ∀ u, (s'.txn u).beginCsn = (s.txn u).beginCsn ∧
      (s'.txn u).isSealed = (s.txn u).isSealed ∧ (s'.txn u).endCsn = (s.txn u).endCsn ∧
      (s'.txn u).writeSet = (s.txn u).writeSet ∧ (s'.txn u).written = (s.txn u).written := by
    intro u
    rw [htxn, update_apply]
    split
    · rename_i hut
      subst hut
      exact ⟨h1, h2, h3, h4, h5⟩
    · exact ⟨rfl, rfl, rfl, rfl, rfl⟩
  refine ⟨hcsn.ge, hxid.ge, hptr.ge, fun u _ => (hsame u).1, fun u hu => ?_, fun u hu hu' => ?_,
    fun u hu => (hsame u).2.2.2.1 ▸ hu, hobj, hst⟩
  · obtain ⟨-, k2, k3, k4, k5⟩ := hsame u
    exact ⟨k2.trans hu, k3, k4, k5⟩
  · rw [(hsame u).2.1, hu] at hu'
    cases hu'

/-- Linking a new version. -/
theorem Linking.grows {t : XID} {e : Entry} {T : Txn} {o : Object} {l : List Ptr}
    (k : Linking s ch t e T o l) (h : ChainInv s ch)
    (hbegin : T.beginCsn = (s.txn t).beginCsn) : Grows s ((s.link e o).setTxn t T) := by
  have hns := ((h.wf t).of_canCall k.canCall).2.2
  refine grows_of_unsealed rfl hns (fun hs => ?_) (fun _ hnil => ?_) (fun _ => hbegin) le_rfl
    le_rfl (Nat.le_succ _) (fun p hp => ?_) fun p hp => ?_
  · rw [k.isSealed, hns] at hs
    cases hs
  · have hin := (k.mem e).mpr (.inr rfl)
    rw [Txn.entries, hnil] at hin
    cases hin
  · rw [Db.setTxn_heap, Db.link_heap, Linking.heap_old hp]
    exact ⟨rfl, rfl, rfl, rfl⟩
  · exact Linking.heap_old (h.member (h.stamped hp)).1

/-- An iteration of a loop. -/
theorem Handling.grows {t : XID} {w : WriteRecord} {p : Ptr} {l : List Ptr}
    (k : Handling s s' ch t w p l) (h : ChainInv s ch) : Grows s s' := by
  obtain ⟨lb, htxn⟩ := k.txn
  refine grows_of_same htxn rfl rfl rfl rfl rfl k.currentCsn k.nextXid k.nextPtr
    (fun q _ => k.same q) fun q hq => k.heap q ?_
  rintro rfl
  obtain ⟨c, hc⟩ := hq
  rw [(k.head_dirty h).1] at hc
  cases hc

end

/-! ### CSNs and the order of writers -/

/-- Snapshots are not in the future, CSNs were taken and are distinct. -/
structure CsnInv (s : Db) : Prop where
  begin_le : ∀ t, (s.txn t).beginCsn ≤ s.currentCsn
  end_lt : ∀ {t}, (s.txn t).isSealed = true → (s.txn t).writeSet ≠ [] →
    (s.txn t).beginCsn ≤ (s.txn t).endCsn ∧ (s.txn t).endCsn < s.currentCsn
  end_inj : ∀ {t u}, (s.txn t).isSealed = true → (s.txn t).writeSet ≠ [] →
    (s.txn u).isSealed = true → (s.txn u).writeSet ≠ [] →
    (s.txn t).endCsn = (s.txn u).endCsn → t = u

/-- The version `q` is older than `p`: its writer has ended before the writer of
`p` began. -/
def Db.Older (s : Db) (p q : Ptr) : Prop :=
  (s.txn (s.heap q).creator).isSealed = true ∧
    (s.txn (s.heap q).creator).endCsn < (s.txn (s.heap p).creator).beginCsn

/-- Every chain goes from newer to older versions. -/
def OrderInv (s : Db) (ch : Entry → List Ptr) : Prop := ∀ e, (ch e).Pairwise s.Older

theorem csnInv_init : CsnInv Db.init where
  begin_le _ := le_rfl
  end_lt h := by cases h
  end_inj h := by cases h

section

variable {s s' : Db} {ch : Entry → List Ptr}

/-- A step that takes no CSN and starts no transaction. -/
theorem CsnInv.of_same (hc : CsnInv s) (hcsn : s'.currentCsn = s.currentCsn)
    (hsame : ∀ u, (s'.txn u).beginCsn = (s.txn u).beginCsn ∧
      ((s'.txn u).isSealed = true → (s'.txn u).writeSet ≠ [] →
        (s.txn u).isSealed = true ∧ (s.txn u).writeSet ≠ [] ∧
          (s'.txn u).endCsn = (s.txn u).endCsn)) : CsnInv s' where
  begin_le u := by
    rw [(hsame u).1, hcsn]
    exact hc.begin_le u
  end_lt := by
    intro u hs hw
    obtain ⟨hs', hw', he⟩ := (hsame u).2 hs hw
    rw [(hsame u).1, he, hcsn]
    exact hc.end_lt hs' hw'
  end_inj := by
    intro t u hs hw hs' hw' he
    obtain ⟨k1, k2, k3⟩ := (hsame t).2 hs hw
    obtain ⟨j1, j2, j3⟩ := (hsame u).2 hs' hw'
    rw [k3, j3] at he
    exact hc.end_inj k1 k2 j1 j2 he

/-- The same for a step that replaces one transaction. -/
theorem CsnInv.update (hc : CsnInv s) {t : XID} {T : Txn}
    (htxn : s'.txn = Function.update s.txn t T) (hcsn : s'.currentCsn = s.currentCsn)
    (hbegin : T.beginCsn = (s.txn t).beginCsn)
    (hT : T.isSealed = true → T.writeSet ≠ [] →
      (s.txn t).isSealed = true ∧ (s.txn t).writeSet ≠ [] ∧ T.endCsn = (s.txn t).endCsn) :
    CsnInv s' := by
  refine hc.of_same hcsn fun u => ?_
  rw [htxn, update_apply]
  split
  · rename_i hu
    subst hu
    exact ⟨hbegin, hT⟩
  · exact ⟨rfl, fun hs hw => ⟨hs, hw, rfl⟩⟩

/-- Taking a CSN. -/
theorem CsnInv.draw (hc : CsnInv s) {t : XID} {T : Txn} (hbegin : T.beginCsn = (s.txn t).beginCsn)
    (hend : T.endCsn = s.currentCsn) :
    CsnInv (({ s with currentCsn := s.currentCsn + 1 } : Db).setTxn t T) where
  begin_le u := by
    rw [Db.setTxn_txn, update_apply]
    split
    · rw [hbegin]
      exact (hc.begin_le t).trans (Nat.le_succ _)
    · exact (hc.begin_le u).trans (Nat.le_succ _)
  end_lt := by
    intro u hs hw
    rw [Db.setTxn_txn, update_apply] at hs hw ⊢
    split at hs
    · rename_i hu
      rw [if_pos hu, hbegin, hend]
      exact ⟨hc.begin_le t, Nat.lt_succ_self _⟩
    · rename_i hu
      rw [if_neg hu] at hw ⊢
      exact (hc.end_lt hs hw).imp id fun h => h.trans (Nat.lt_succ_self _)
  end_inj := by
    -- all CSNs taken before are smaller than the new one
    have hlt : ∀ {u}, u ≠ t → (Function.update s.txn t T u).isSealed = true →
        (Function.update s.txn t T u).writeSet ≠ [] →
        (Function.update s.txn t T u).endCsn < s.currentCsn := by
      intro u hu hs hw
      rw [update_of_ne hu] at hs hw ⊢
      exact (hc.end_lt hs hw).2
    intro u v hs hw hs' hw' he
    rw [Db.setTxn_txn] at hs hw hs' hw' he
    by_cases hu : u = t <;> by_cases hv : v = t
    · rw [hu, hv]
    · have := hlt hv hs' hw'
      rw [← he, hu, update_self, hend] at this
      exact absurd this (lt_irrefl _)
    · have := hlt hu hs hw
      rw [he, hv, update_self, hend] at this
      exact absurd this (lt_irrefl _)
    · rw [update_of_ne hu] at hs hw he
      rw [update_of_ne hv] at hs' hw' he
      exact hc.end_inj hs hw hs' hw' he

theorem CsnInv.begin (hc : CsnInv s) :
    CsnInv { s with
      nextXid := s.nextXid + 1
      txn := Function.update s.txn s.nextXid (Txn.start s.currentCsn) } := by
  have hne : ∀ {u}, (Function.update s.txn s.nextXid (Txn.start s.currentCsn) u).isSealed = true →
      u ≠ s.nextXid := by
    rintro u hu rfl
    rw [update_self] at hu
    cases hu
  constructor
  · intro u
    show (Function.update s.txn s.nextXid (Txn.start s.currentCsn) u).beginCsn ≤ s.currentCsn
    rw [update_apply]
    split
    · exact le_rfl
    · exact hc.begin_le u
  · intro u hs hw
    have hu := hne hs
    simp only [update_of_ne hu] at hs hw ⊢
    exact hc.end_lt hs hw
  · intro u v hs hw hs' hw' he
    have hu := hne hs
    have hv := hne hs'
    simp only [update_of_ne hu] at hs hw he
    simp only [update_of_ne hv] at hs' hw' he
    exact hc.end_inj hs hw hs' hw' he

/-- The order of two versions never changes. -/
theorem Grows.older (g : Grows s s') (h : ChainInv s ch) {e : Entry} {p q : Ptr} (hp : p ∈ ch e)
    (hq : q ∈ ch e) (ho : s.Older p q) : s'.Older p q := by
  obtain ⟨-, hcp, -⟩ := g.object p (h.member hp).1
  obtain ⟨-, hcq, -⟩ := g.object q (h.member hq).1
  obtain ⟨hs, he, -⟩ := g.sealed _ ho.1
  have hlt : (s.heap p).creator < s.nextXid := by
    by_contra hge
    have hw := (h.version hp).1
    rw [h.unborn _ (not_lt.mp hge)] at hw
    cases hw
  rw [Db.Older, hcp, hcq, he, g.beginCsn _ hlt]
  exact ⟨hs, ho.2⟩

/-- A part of an old chain is still ordered. -/
theorem Grows.pairwise (g : Grows s s') (h : ChainInv s ch) (ho : OrderInv s ch) {e : Entry}
    {l : List Ptr} (hl : l.Sublist (ch e)) : l.Pairwise s'.Older :=
  ((ho e).sublist hl).imp_of_mem fun hp hq =>
    g.older h (hl.subset hp) (hl.subset hq)

/-- A new head is newer than everything below it. -/
theorem Linking.orderInv {t : XID} {e : Entry} {T : Txn} {o : Object} {l : List Ptr}
    (k : Linking s ch t e T o l) (h : ChainInv s ch) (ho : OrderInv s ch)
    (hbegin : T.beginCsn = (s.txn t).beginCsn)
    (hnew : ∀ q ∈ l, (s.txn (s.heap q).creator).endCsn < (s.txn t).beginCsn) :
    OrderInv ((s.link e o).setTxn t T) (Function.update ch e (s.nextPtr :: l)) := by
  have g := k.grows h hbegin
  intro e'
  by_cases hee : e' = e
  · subst hee
    have hsub : l.Sublist (ch e') := by
      rcases k.old with hch | ⟨q, hch, -⟩ <;> rw [hch]
      exact List.sublist_cons_self _ _
    rw [update_self]
    refine List.pairwise_cons.mpr ⟨fun q hq => ?_, g.pairwise h ho hsub⟩
    have hsealed := (h.of_stamped (k.subset q hq) (k.stamped q hq)).2.1
    obtain ⟨hs, he, -⟩ := g.sealed _ hsealed
    obtain ⟨-, hcr, -⟩ := g.object q (k.lt_of_mem h q hq)
    refine ⟨by rw [hcr, hs], ?_⟩
    rw [hcr, he, Db.setTxn_heap, Db.link_heap, update_self, k.creator, Db.setTxn_txn,
      update_self, hbegin]
    exact hnew q hq
  · rw [update_of_ne hee]
    exact g.pairwise h ho (List.Sublist.refl _)

/-- What one move keeps, for the chains it leads to. -/
structure Kept (s s' : Db) (ch ch' : Entry → List Ptr) : Prop where
  chainInv : ChainInv s' ch'
  grows : Grows s s'
  csnInv : CsnInv s → CsnInv s'
  orderInv : OrderInv s ch → CsnInv s → s.currentCsn ≤ CSN.limit → OrderInv s' ch'

/-- A move that leaves the chains alone. -/
theorem Kept.of_same (h : ChainInv s ch) (h' : ChainInv s' ch) (g : Grows s s')
    (hc : CsnInv s → CsnInv s') : Kept s s' ch ch :=
  ⟨h', g, hc, fun ho _ _ _ => g.pairwise h ho (List.Sublist.refl _)⟩

/-- A first write: the head below is from before the writer's snapshot. -/
theorem Linking.kept_first {t : XID} {w : WriteRecord} {n : ℕ} {o : Object}
    (k : Linking s ch t w.entry ((s.txn t).firstWrite w n s.nextPtr) o (ch w.entry))
    (h : ChainInv s ch)
    (hnew : OrderInv s ch → CsnInv s → s.currentCsn ≤ CSN.limit →
      ∀ q ∈ ch w.entry, (s.txn (s.heap q).creator).endCsn < (s.txn t).beginCsn) :
    Kept s ((s.link w.entry o).setTxn t ((s.txn t).firstWrite w n s.nextPtr)) ch
      (Function.update ch w.entry (s.nextPtr :: ch w.entry)) := by
  refine ⟨k.chainInv h, k.grows h rfl, fun hc => ?_,
    fun ho hc hle => k.orderInv h ho rfl (hnew ho hc hle)⟩
  refine hc.update rfl rfl rfl fun hs _ => absurd hs ?_
  have := ((h.wf t).of_canCall k.canCall).2.2
  simp [Txn.firstWrite, this]

/-- A version with a creator in its chain was written by it. -/
theorem ChainInv.writeSet_ne_nil (h : ChainInv s ch) {e : Entry} {p : Ptr} (hp : p ∈ ch e) :
    (s.txn (s.heap p).creator).writeSet ≠ [] := by
  intro hnil
  have hin := h.entries.mp ⟨p, (h.version hp).1⟩
  rw [Txn.entries, hnil] at hin
  cases hin

/-- `UpdateTuple` compares the stamp with the snapshot.  Without truncation that
is the CSN of the writer, and everything further below is older still. -/
theorem ChainInv.ended_before (h : ChainInv s ch) {t : XID} {e : Entry} {q : Ptr} {c : ℕ}
    (hq : s.entry e = some q) (hcsn : (s.heap q).csn = .csn c) (hlt : c < (s.txn t).beginCsn)
    (ho : OrderInv s ch) (hc : CsnInv s) (hle : s.currentCsn ≤ CSN.limit) :
    ∀ r ∈ ch e, (s.txn (s.heap r).creator).endCsn < (s.txn t).beginCsn := by
  obtain ⟨l, hl, -⟩ := h.mem_of_entry hq
  have hmem : q ∈ ch e := hl ▸ List.mem_cons_self
  obtain ⟨hgen, hsealed, -⟩ := h.of_stamped hmem ⟨c, hcsn⟩
  obtain ⟨hbe, hend⟩ := hc.end_lt hsealed (h.writeSet_ne_nil hmem)
  have hstamp : c = (s.txn (s.heap q).creator).endCsn := by
    rw [hcsn, CsnPtr.generate, CsnPtr.csn.injEq, CSN.make_offset] at hgen
    rw [hgen]
    exact Nat.mod_eq_of_lt (by omega)
  intro r hr
  rw [hl] at hr
  rcases List.mem_cons.mp hr with rfl | hr
  · omega
  · have hord := ho e
    rw [hl] at hord
    have := ((List.pairwise_cons.mp hord).1 r hr).2
    omega

/-- **Every move keeps the chain invariant**, for some new chains. -/
theorem ChainInv.move (h : ChainInv s ch) (m : Move s s') : ∃ ch', Kept s s' ch ch' := by
  have hwf := m.wf h.wf
  cases m with
  | stay t T hpc hT _ =>
    have hT' : T.Wf := by simpa using hwf t
    refine ⟨ch, .of_same h ?_ ?_ fun hc => ?_⟩
    · exact h.retxn rfl hT' hT.writeSet hT.idx hT.written (.inl ⟨hT.isSealed, hT.endCsn⟩)
        rfl rfl rfl rfl le_rfl (h.lt_nextXid hpc)
    · exact grows_of_same rfl hT.beginCsn hT.isSealed hT.endCsn hT.writeSet hT.written rfl rfl
        rfl (fun _ _ => ⟨rfl, rfl, rfl, rfl⟩) fun _ _ => rfl
    · refine hc.update rfl rfl hT.beginCsn fun hs hw => ?_
      rw [hT.isSealed] at hs
      rw [hT.writeSet] at hw
      exact ⟨hs, hw, hT.endCsn⟩
  | begin =>
    have hun := h.unborn s.nextXid le_rfl
    refine ⟨ch, .of_same h ?_ ?_ CsnInv.begin⟩
    · refine h.retxn rfl ⟨le_rfl, rfl, rfl, rfl⟩ ?_ ?_ ?_ (.inl ?_)
        rfl rfl rfl rfl (Nat.le_succ _) (Nat.lt_succ_self _) <;> rw [hun] <;>
        first | rfl | exact ⟨rfl, rfl⟩
    · exact grows_of_unsealed rfl (by rw [hun]; rfl) (fun hs => by cases hs)
        (fun hne => absurd (by rw [hun]; rfl) hne) (fun hlt => absurd hlt (lt_irrefl _)) le_rfl
        (Nat.le_succ _) le_rfl
        (fun _ _ => ⟨rfl, rfl, rfl, rfl⟩) fun _ _ => rfl
  | insert t w n o hcall hfree ho =>
    -- the first version: there is nothing below it
    have hst := h.stamped_of_free hfree
    have hnone := h.free _ hfree
    have k := h.linking_first (n := n) hcall hst ⟨ho.1, ho.2.1, ho.2.2.1, by rw [hnone, ho.2.2.2]⟩
    refine ⟨_, k.kept_first h fun _ _ _ q hq => ?_⟩
    have hc := h.chain w.entry
    rw [hnone, isChain_none] at hc
    rw [hc] at hq
    cases hq
  | install t w n o q hcall hq hcsn ho =>
    -- the old head is committed, and in the snapshot
    obtain ⟨⟨c, hc, hlt⟩, hst⟩ := h.stamped_of_install hq hcsn
    have k := h.linking_first (n := n) hcall hst ⟨ho.1, ho.2.1, ho.2.2.1, by rw [hq, ho.2.2.2]⟩
    exact ⟨_, k.kept_first h fun hord hci hle => h.ended_before hq hc hlt hord hci hle⟩
  | overwrite t e o q hcall hq hcsn ho =>
    -- the old head is of the same transaction
    obtain ⟨l, hl, k⟩ := h.linking_overwrite hcall hq hcsn ho
    refine ⟨_, k.chainInv h, k.grows h rfl, fun hc => ?_, fun hord hc hle => ?_⟩
    · exact hc.update rfl rfl rfl fun hs hw => ⟨hs, hw, rfl⟩
    · refine k.orderInv h hord rfl fun r hr => ?_
      have hcr := (h.of_csn_xid (hl ▸ List.mem_cons_self) hcsn).1
      have hold := hord e
      rw [hl] at hold
      rw [← hcr]
      exact ((List.pairwise_cons.mp hold).1 r hr).2
  | drawReadOnly t hpc hws =>
    have hpre := (h.wf t).2
    rw [hpc] at hpre
    refine ⟨ch, .of_same h ?_ ?_ fun hc => ?_⟩
    · exact h.retxn rfl (by simpa using hwf t) rfl rfl rfl (.inr ⟨hpre.2.2, hpre.2.1⟩)
        rfl rfl rfl rfl le_rfl (h.lt_nextXid (by simp [hpc]))
    · exact grows_of_unsealed rfl hpre.2.2 (fun _ => .inl hws) id (fun _ => rfl) le_rfl le_rfl
        le_rfl (fun _ _ => ⟨rfl, rfl, rfl, rfl⟩) fun _ _ => rfl
    · exact hc.update rfl rfl rfl fun _ hw => absurd hws hw
  | draw t hpc hws =>
    have hpre := (h.wf t).2
    rw [hpc] at hpre
    refine ⟨ch, .of_same h ?_ ?_ fun hc => hc.draw rfl rfl⟩
    · exact h.retxn rfl (by simpa using hwf t) rfl rfl rfl (.inr ⟨hpre.2.2, hpre.2.1⟩)
        rfl rfl rfl rfl le_rfl (h.lt_nextXid (by simp [hpc]))
    · exact grows_of_unsealed rfl hpre.2.2 (fun _ => .inr le_rfl) id (fun _ => rfl) (Nat.le_succ _)
        le_rfl le_rfl (fun _ _ => ⟨rfl, rfl, rfl, rfl⟩) fun _ _ => rfl
  | stamp t w p d lb hpc hw hp =>
    obtain ⟨l, k⟩ := h.handling_stamp d lb hpc hw hp
    have hsealed := (h.wf t).2
    rw [hpc] at hsealed
    refine ⟨ch, .of_same h ?_ (k.grows h) fun hc => ?_⟩
    · exact k.chainInv_stamp h rfl (by rw [Db.setTxn_heap, Db.setCsn_heap_self]) hsealed.2
    · exact hc.update rfl rfl rfl fun hs hw => ⟨hs, hw, rfl⟩
  | unlink t w p hpc hw hp =>
    obtain ⟨l, k⟩ := h.handling_unlink hpc hw hp
    have hsealed := (h.wf t).2
    rw [hpc] at hsealed
    refine ⟨_, k.chainInv_unlink h rfl ?_ hsealed.2, k.grows h, fun hc => ?_, fun ho _ _ e => ?_⟩
    · show ((s.setCsn p .null).heap p).csn = .null
      rw [Db.setCsn_heap_self]
    · exact hc.update rfl rfl rfl fun hs hw => ⟨hs, hw, rfl⟩
    · refine (k.grows h).pairwise (e := e) h ho ?_
      by_cases hee : e = w.entry
      · subst hee
        rw [update_self, k.chain]
        exact List.sublist_cons_self _ _
      · rw [update_of_ne hee]

end

/-! ### Reachable states -/

/-- Every reachable state has chains with the invariants, ordered as long as no
CSN has been truncated. -/
theorem reached_inv {acts : List Act} {s : Db} (hr : Reached acts s) :
    ∃ ch, ChainInv s ch ∧ CsnInv s ∧ (s.currentCsn ≤ CSN.limit → OrderInv s ch) := by
  refine StepRun.run_invariant (I := fun s => ∃ ch, ChainInv s ch ∧ CsnInv s ∧
    (s.currentCsn ≤ CSN.limit → OrderInv s ch)) ?_ hr
    ⟨_, chainInv_init, csnInv_init, fun _ _ => List.Pairwise.nil⟩
  rintro s a s' hs ⟨ch, h, hc, ho⟩
  obtain ⟨ch', k⟩ := h.move (step_move hs)
  refine ⟨ch', k.chainInv, k.csnInv hc, fun hle => ?_⟩
  have hle' := k.grows.currentCsn.trans hle
  exact k.orderInv (ho hle') hc hle'

/-- Along a run the invariant is kept and nothing that is fixed changes. -/
theorem ChainInv.run {acts : List Act} {s s' : Db} {ch : Entry → List Ptr} (h : ChainInv s ch)
    (hr : StepRun.run step s acts = some s') : ∃ ch', ChainInv s' ch' ∧ Grows s s' := by
  refine StepRun.run_invariant (I := fun m => ∃ ch', ChainInv m ch' ∧ Grows s m) ?_ hr
    ⟨ch, h, Grows.refl s⟩
  rintro m a m' hs ⟨chm, hm, g⟩
  obtain ⟨ch', k⟩ := hm.move (step_move hs)
  exact ⟨ch', k.chainInv, g.trans k.grows⟩

/-- The chain of an OID is as it should be: it ends, only its head may be dirty,
its CSNs decrease, and a dirty head belongs to one transaction that has still to
stamp or unlink it and has it in its write set once. -/
structure ChainOk (s : Db) (e : Entry) (l : List Ptr) : Prop where
  chain : IsChain s.next (s.entry e) l
  below : ∀ q ∈ l.tail, s.Stamped q
  decreasing : l.Pairwise fun p q => ∀ c d, (s.heap p).csn = .csn c → (s.heap q).csn = .csn d →
    d < c
  head : ∀ p ∈ l.head?, s.Stamped p ∨ ∃! t, (s.heap p).csn = .xid t ∧ e ∈ (s.txn t).todo ∧
    (s.txn t).entries.count e = 1

theorem ChainInv.stamp_eq {s : Db} {ch : Entry → List Ptr} (h : ChainInv s ch) (hc : CsnInv s)
    (hle : s.currentCsn ≤ CSN.limit) {e : Entry} {p : Ptr} {c : ℕ} (hp : p ∈ ch e)
    (hcsn : (s.heap p).csn = .csn c) : (s.txn (s.heap p).creator).endCsn = c := by
  obtain ⟨hgen, hsealed, -⟩ := h.of_stamped hp ⟨c, hcsn⟩
  have hlt := (hc.end_lt hsealed (h.writeSet_ne_nil hp)).2
  rw [hcsn, CsnPtr.generate, CsnPtr.csn.injEq, CSN.make_offset,
    Nat.mod_eq_of_lt (hlt.trans_le hle)] at hgen
  exact hgen.symm

/-- **The version-chain invariant.**  In every reachable state in which at most
`2 ^ 48` CSNs have been taken, the chain of every OID is as it should be. -/
theorem reached_chainOk {acts : List Act} {s : Db} (hr : Reached acts s)
    (hle : s.currentCsn ≤ CSN.limit) (e : Entry) : ∃ l, ChainOk s e l := by
  obtain ⟨ch, h, hc, ho⟩ := reached_inv hr
  refine ⟨ch e, h.chain e, fun q hq => ?_, ?_, fun p hp => ?_⟩
  · cases hl : ch e with
    | nil =>
      rw [hl] at hq
      cases hq
    | cons p l =>
      rw [hl] at hq
      exact h.below_head hl q hq
  · refine (ho hle e).imp_of_mem fun {p q} hp hq hold c d hpc hqd => ?_
    -- the newer writer began after the older one had ended, and ended later still
    have hsealed := (h.of_stamped hp ⟨c, hpc⟩).2.1
    have hbe := (hc.end_lt hsealed (h.writeSet_ne_nil hp)).1
    rw [h.stamp_eq hc hle hp hpc] at hbe
    have hlt := hold.2
    rw [h.stamp_eq hc hle hq hqd] at hlt
    omega
  · have hmem := List.mem_of_mem_head? hp
    rcases h.stamped_or_xid hmem with hst | hx
    · exact .inl hst
    · refine .inr ⟨(s.heap p).creator, ⟨hx, ?_⟩, ?_⟩
      · have htodo := (h.of_csn_xid hmem hx).2.2
        exact ⟨htodo, List.count_eq_one_of_mem (h.nodup _) (Txn.mem_entries_of_mem_todo htodo)⟩
      · rintro t ⟨ht, -⟩
        rw [hx, CsnPtr.xid.injEq] at ht
        exact ht.symm

/-- A record is inserted and committed; another transaction overwrites it twice. -/
def overwriteActs : List Act :=
  .begin :: .insert 0 roundEntry [7] :: commitActs 0 ++
    [.begin, .update 1 roundEntry [8], .update 1 roundEntry [9, 9]]

theorem reached_chainOk_overwrite :
    ∃ s, Reached overwriteActs s ∧ s.currentCsn ≤ CSN.limit ∧ s.entry roundEntry = some 2 ∧
      ∃ l, ChainOk s roundEntry l := by
  refine ⟨_, rfl, ?_, rfl, reached_chainOk (show Reached overwriteActs _ from rfl) ?_ roundEntry⟩
  all_goals decide

/-- With one CSN more, the stamp of the newest version is 0. -/
theorem chain_broken_by_truncation :
    ∃ acts s, Reached acts s ∧ s.currentCsn = CSN.limit + 1 ∧ ¬ ∃ l, ChainOk s roundEntry l := by
  obtain ⟨acts, s, p, hr, hcsn, hp⟩ := exists_reached_csn (CSN.limit - 1) (by decide)
  have hlim : s.currentCsn = CSN.limit := by
    rw [hcsn]
    rfl
  obtain ⟨acts', s', hrun, hcsn', q, hq, hnext, hold⟩ :=
    exists_begin_round hp (by rw [hlim]; decide)
  refine ⟨acts ++ acts', s', StepRun.run_append.mpr ⟨s, hr, hrun⟩, by rw [hcsn', hlim], ?_⟩
  rintro ⟨l, hl⟩
  have hchain := hl.chain
  rw [hq.entry] at hchain
  obtain ⟨l', rfl, hchain'⟩ := isChain_some.mp hchain
  rw [hnext] at hchain'
  obtain ⟨l'', rfl, -⟩ := isChain_some.mp hchain'
  have hpd : (s'.heap p).csn = .csn (CSN.limit - 1) := by rw [hold, hp.csn]
  have hlt := (List.pairwise_cons.mp hl.decreasing).1 p List.mem_cons_self _ _ hq.csn hpd
  rw [CSN.make_offset, hlim, Nat.mod_self] at hlt
  exact absurd hlt (Nat.not_lt_zero _)

end PreemptDB
