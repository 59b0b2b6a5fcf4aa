/-
A new version becomes the head of its chain.

An insert, an install over another transaction's version and an overwrite of
one's own version differ only in what stays below the new head.  `Linking`
states what they have in common, `Linking.chainInv` shows that the invariant is
kept, and the three lemmas at the end show that each of them is a linking.
-/
import PreemptDB.ChainInv

open LinkedChain
open Function (update_apply update_of_ne update_self)

namespace PreemptDB

theorem suffix_of_not_mem {q : Ptr} {l l' : List Ptr} (h : l' <:+ q :: l) (hq : q ∉ l') :
    l' <:+ l := by
  rcases List.suffix_cons_iff.mp h with rfl | h
  · exact absurd List.mem_cons_self hq
  · exact h

/-! ### A new version becomes the head -/

/-- A running transaction `t` makes a new version `o` the head of `e`, on top of
stamped versions `l`: either all of the old chain, or what is below its own
dirty head.  `T` is the transaction afterwards. -/
structure Linking (s : Db) (ch : Entry → List Ptr) (t : XID) (e : Entry) (T : Txn)
    (o : Object) (l : List Ptr) : Prop where
  canCall : (s.txn t).pc.canCall
  wf : T.Wf
  idx : T.idx = (s.txn t).idx
  isSealed : T.isSealed = (s.txn t).isSealed
  written : T.written = Function.update (s.txn t).written e (some s.nextPtr)
  nodup : T.entries.Nodup
  mem : ∀ e', e' ∈ T.entries ↔ e' ∈ (s.txn t).entries ∨ e' = e
  creator : o.creator = t
  home : o.home = e
  csn : o.csn = .xid t
  chain : IsChain s.next o.nextVolatile l
  stamped : ∀ q ∈ l, s.Stamped q
  old : ch e = l ∨ ∃ q, ch e = q :: l ∧ (s.heap q).csn = .xid t

namespace Linking

variable {s : Db} {ch : Entry → List Ptr} {t : XID} {e : Entry} {T : Txn} {o : Object}
  {l : List Ptr}

theorem subset (k : Linking s ch t e T o l) : ∀ q ∈ l, q ∈ ch e := by
  intro q hq
  rcases k.old with hch | ⟨q', hch, -⟩ <;> rw [hch]
  · exact hq
  · exact List.mem_cons_of_mem _ hq

/-- What was in the chain and is not in `l` is the transaction's own head. -/
theorem split (k : Linking s ch t e T o l) {q : Ptr} (hq : q ∈ ch e) :
    q ∈ l ∨ (s.heap q).csn = .xid t := by
  rcases k.old with hch | ⟨q', hch, hx⟩ <;> rw [hch] at hq
  · exact .inl hq
  · rcases List.mem_cons.mp hq with rfl | hq
    · exact .inr hx
    · exact .inl hq

theorem todo_new (k : Linking s ch t e T o l) (h : ChainInv s ch) : T.todo = T.entries := by
  rw [Txn.todo, k.idx, ((h.wf t).of_canCall k.canCall).2.1, List.drop_zero]

theorem todo_old (k : Linking s ch t e T o l) (h : ChainInv s ch) :
    (s.txn t).todo = (s.txn t).entries :=
  (h.wf t).todo_eq_entries k.canCall

/-- A sealed transaction is another one. -/
theorem ne_of_sealed (k : Linking s ch t e T o l) (h : ChainInv s ch) {u : XID}
    (hu : (s.txn u).isSealed = true) : u ≠ t := by
  rintro rfl
  rw [((h.wf u).of_canCall k.canCall).2.2] at hu
  cases hu

theorem heap_old {q : Ptr} (hq : q < s.nextPtr) :
    Function.update s.heap s.nextPtr o q = s.heap q :=
  update_of_ne (Nat.ne_of_lt hq) _ _

theorem next_old {q : Ptr} (hq : q < s.nextPtr) :
    ((s.link e o).setTxn t T).next q = s.next q := by
  simp only [Db.next, Db.setTxn_heap, Db.link_heap, heap_old hq]

theorem next_new : ((s.link e o).setTxn t T).next s.nextPtr = o.nextVolatile := by
  simp [Db.next]

theorem chain_old (h : ChainInv s ch) {r : Option Ptr} {l' : List Ptr} {e' : Entry}
    (hc : IsChain s.next r l') (hsub : ∀ q ∈ l', q ∈ ch e') :
    IsChain ((s.link e o).setTxn t T).next r l' :=
  hc.congr fun q hq => next_old (h.member (hsub q hq)).1

theorem lt_of_mem (k : Linking s ch t e T o l) (h : ChainInv s ch) :
    ∀ q ∈ l, q < s.nextPtr :=
  fun q hq => (h.member (k.subset q hq)).1

theorem chain_step (k : Linking s ch t e T o l) (h : ChainInv s ch) (e' : Entry) :
    IsChain ((s.link e o).setTxn t T).next (((s.link e o).setTxn t T).entry e')
      (Function.update ch e (s.nextPtr :: l) e') := by
  simp only [Db.setTxn_entry, Db.link_entry]
  by_cases hee : e' = e
  · subst hee
    rw [update_self, update_self]
    refine ⟨rfl, ?_⟩
    rw [next_new]
    exact chain_old h k.chain k.subset
  · rw [update_of_ne hee, update_of_ne hee]
    exact chain_old h (h.chain e') fun q hq => hq

theorem member_step (k : Linking s ch t e T o l) (h : ChainInv s ch) {e' : Entry} {q : Ptr}
    (hq : q ∈ Function.update ch e (s.nextPtr :: l) e') :
    q < s.nextPtr + 1 ∧ (Function.update s.heap s.nextPtr o q).home = e' := by
  have hold : q ∈ ch e' → q < s.nextPtr + 1 ∧
      (Function.update s.heap s.nextPtr o q).home = e' := by
    intro hq
    obtain ⟨hlt, hh⟩ := h.member hq
    rw [heap_old hlt]
    exact ⟨Nat.lt_succ_of_lt hlt, hh⟩
  by_cases hee : e' = e
  · subst hee
    rw [update_self] at hq
    rcases List.mem_cons.mp hq with rfl | hq
    · rw [update_self]
      exact ⟨Nat.lt_succ_self _, k.home⟩
    · exact hold (k.subset q hq)
  · rw [update_of_ne hee] at hq
    exact hold hq

theorem written_step (k : Linking s ch t e T o l) (h : ChainInv s ch) {u : XID} {e' : Entry}
    {q : Ptr} (hq : (Function.update s.txn t T u).written e' = some q) :
    q < s.nextPtr + 1 ∧ (Function.update s.heap s.nextPtr o q).creator = u ∧
      (Function.update s.heap s.nextPtr o q).home = e' := by
  have hold : (s.txn u).written e' = some q → q < s.nextPtr + 1 ∧
      (Function.update s.heap s.nextPtr o q).creator = u ∧
      (Function.update s.heap s.nextPtr o q).home = e' := by
    intro hq
    obtain ⟨hlt, hh⟩ := h.written hq
    rw [heap_old hlt]
    exact ⟨Nat.lt_succ_of_lt hlt, hh⟩
  by_cases hu : u = t
  · subst hu
    rw [update_self, k.written] at hq
    by_cases hee : e' = e
    · subst hee
      rw [update_self, Option.some_inj] at hq
      subst hq
      rw [update_self]
      exact ⟨Nat.lt_succ_self _, k.creator, k.home⟩
    · rw [update_of_ne hee] at hq
      exact hold hq
  · rw [update_of_ne hu] at hq
    exact hold hq

theorem entries_step (k : Linking s ch t e T o l) (h : ChainInv s ch) {u : XID} {e' : Entry} :
    (∃ q, (Function.update s.txn t T u).written e' = some q) ↔
      e' ∈ (Function.update s.txn t T u).entries := by
  by_cases hu : u = t
  · subst hu
    rw [update_self, k.written, k.mem, ← h.entries]
    by_cases hee : e' = e
    · subst hee
      simp
    · simp [hee]
  · rw [update_of_ne hu]
    exact h.entries

theorem dirty_step (k : Linking s ch t e T o l) (h : ChainInv s ch) {u : XID} {e' : Entry}
    (he' : e' ∈ (Function.update s.txn t T u).todo) :
    ∃ q, Function.update s.entry e (some s.nextPtr) e' = some q ∧
      (Function.update s.heap s.nextPtr o q).csn = .xid u := by
  by_cases hee : e' = e
  · subst hee
    refine ⟨s.nextPtr, update_self .., ?_⟩
    by_cases hu : u = t
    · rw [update_self, k.csn, hu]
    · -- nobody else has a dirty head here
      rw [update_of_ne hu] at he'
      obtain ⟨q, l', -, hq, -, hx, -⟩ := h.dirty_head he'
      rcases k.split (hq ▸ List.mem_cons_self) with hql | hqt
      · obtain ⟨c, hc⟩ := k.stamped q hql
        rw [hc] at hx
        cases hx
      · rw [hqt, CsnPtr.xid.injEq] at hx
        exact absurd hx.symm hu
  · rw [update_of_ne hee]
    have hold : e' ∈ (s.txn u).todo := by
      by_cases hu : u = t
      · subst hu
        rw [update_self, k.todo_new h, k.mem] at he'
        rw [k.todo_old h]
        exact he'.resolve_right hee
      · rwa [update_of_ne hu] at he'
    obtain ⟨q, hq, hx⟩ := h.dirty hold
    refine ⟨q, hq, ?_⟩
    obtain ⟨l', hl', -⟩ := h.mem_of_entry hq
    rwa [heap_old (h.member (hl' ▸ List.mem_cons_self)).1]

/-- An old version of another entry, or a stamped one below the new head. -/
theorem version_old (k : Linking s ch t e T o l) (h : ChainInv s ch) {e' : Entry} {q : Ptr}
    (hq : q ∈ ch e') (hor : e' ≠ e ∨ s.Stamped q) :
    (Function.update s.txn t T (s.heap q).creator).written e' = some q ∧
      ((s.link e o).setTxn t T).Status e' q := by
  obtain ⟨hw, hst⟩ := h.version hq
  rw [Db.Status, Db.setTxn_txn, Db.setTxn_heap, Db.link_txn, Db.link_heap,
    heap_old (h.member hq).1]
  by_cases hu : (s.heap q).creator = t
  · have hee : e' ≠ e := by
      refine hor.resolve_right fun hs => ?_
      exact k.ne_of_sealed h (h.of_stamped hq hs).2.1 hu
    have hx : (s.heap q).csn = .xid t ∧ e' ∈ (s.txn t).todo := by
      rcases hst with hst | hst
      · rwa [hu] at hst
      · exact absurd hu (k.ne_of_sealed h hst.2.1)
    rw [hu] at hw
    rw [hu, update_self, k.written, update_of_ne hee, k.todo_new h, k.mem,
      ← k.todo_old h]
    exact ⟨hw, .inl ⟨hx.1, .inl hx.2⟩⟩
  · rw [update_of_ne hu]
    exact ⟨hw, hst⟩

theorem version_step (k : Linking s ch t e T o l) (h : ChainInv s ch) {e' : Entry} {q : Ptr}
    (hq : q ∈ Function.update ch e (s.nextPtr :: l) e') :
    (Function.update s.txn t T (Function.update s.heap s.nextPtr o q).creator).written e'
        = some q ∧ ((s.link e o).setTxn t T).Status e' q := by
  by_cases hee : e' = e
  · subst hee
    rw [update_self] at hq
    rcases List.mem_cons.mp hq with rfl | hq
    · simp only [Db.Status, Db.setTxn_txn, Db.setTxn_heap, Db.link_txn, Db.link_heap,
        update_self, k.creator, k.written, k.csn, k.todo_new h, k.mem]
      exact ⟨trivial, .inl ⟨trivial, .inr trivial⟩⟩
    · rw [heap_old (k.lt_of_mem h q hq)]
      exact k.version_old h (k.subset q hq) (.inr (k.stamped q hq))
  · rw [update_of_ne hee] at hq
    rw [heap_old (h.member hq).1]
    exact k.version_old h hq (.inl hee)

theorem kept_step (k : Linking s ch t e T o l) (h : ChainInv s ch) {u : XID} {e' : Entry}
    {q : Ptr} (hs : (Function.update s.txn t T u).isSealed = true)
    (hq : (Function.update s.txn t T u).written e' = some q) :
    q ∈ Function.update ch e (s.nextPtr :: l) e' := by
  have hu : u ≠ t := by
    rintro rfl
    rw [update_self, k.isSealed] at hs
    exact k.ne_of_sealed h hs rfl
  rw [update_of_ne hu] at hs hq
  have hold := h.kept hs hq
  by_cases hee : e' = e
  · subst hee
    rw [update_self]
    refine List.mem_cons_of_mem _ ((k.split hold).resolve_right fun hx => ?_)
    have hcr := (h.of_csn_xid hold hx).1
    rw [(h.written hq).2.1] at hcr
    exact hu hcr
  · rwa [update_of_ne hee]

theorem below_step (k : Linking s ch t e T o l) (h : ChainInv s ch) {q : Ptr}
    (hq : q < s.nextPtr + 1) :
    ∃ l', IsChain ((s.link e o).setTxn t T).next (((s.link e o).setTxn t T).next q) l' ∧
      l' <:+ Function.update ch e (s.nextPtr :: l) (Function.update s.heap s.nextPtr o q).home ∧
      ∀ r ∈ l', ((s.link e o).setTxn t T).Stamped r := by
  have hstamped : ∀ r, r < s.nextPtr → s.Stamped r → ((s.link e o).setTxn t T).Stamped r := by
    intro r hr hst
    rwa [Db.Stamped, Db.setTxn_heap, Db.link_heap, heap_old hr]
  rcases Nat.lt_succ_iff_lt_or_eq.mp hq with hlt | rfl
  · obtain ⟨l', hc, hsuf, hst⟩ := h.below hlt
    refine ⟨l', ?_, ?_, fun r hr => hstamped r (h.member (hsuf.subset hr)).1 (hst r hr)⟩
    · rw [next_old hlt]
      exact chain_old h hc fun r hr => hsuf.subset hr
    · rw [heap_old hlt]
      by_cases hee : (s.heap q).home = e
      · rw [hee] at hsuf ⊢
        rw [update_self]
        refine List.IsSuffix.trans ?_ (List.suffix_cons _ _)
        rcases k.old with hch | ⟨q', hch, hx⟩ <;> rw [hch] at hsuf
        · exact hsuf
        · refine suffix_of_not_mem hsuf fun hmem => ?_
          obtain ⟨c, hc'⟩ := hst q' hmem
          rw [hx] at hc'
          cases hc'
      · rwa [update_of_ne hee]
  · refine ⟨l, ?_, ?_, fun r hr => hstamped r (k.lt_of_mem h r hr) (k.stamped r hr)⟩
    · rw [next_new]
      exact chain_old h k.chain k.subset
    · rw [update_self, k.home, update_self]
      exact List.suffix_cons _ _

theorem stamped_step (k : Linking s ch t e T o l) (h : ChainInv s ch) {q : Ptr}
    (hq : ((s.link e o).setTxn t T).Stamped q) :
    q ∈ Function.update ch e (s.nextPtr :: l) (Function.update s.heap s.nextPtr o q).home := by
  obtain ⟨c, hc⟩ := hq
  rw [Db.setTxn_heap, Db.link_heap] at hc
  have hqne : q ≠ s.nextPtr := by
    rintro rfl
    rw [update_self, k.csn] at hc
    cases hc
  rw [update_of_ne hqne] at hc ⊢
  have hold := h.stamped ⟨c, hc⟩
  by_cases hee : (s.heap q).home = e
  · rw [hee] at hold ⊢
    rw [update_self]
    refine List.mem_cons_of_mem _ ((k.split hold).resolve_right fun hx => ?_)
    rw [hc] at hx
    cases hx
  · rwa [update_of_ne hee]

theorem chainInv (k : Linking s ch t e T o l) (h : ChainInv s ch) :
    ChainInv ((s.link e o).setTxn t T) (Function.update ch e (s.nextPtr :: l)) where
  wf u := by
    rw [Db.setTxn_txn, Db.link_txn, update_apply]
    split
    · exact k.wf
    · exact h.wf u
  unborn u hu := by
    have hlt := h.lt_nextXid (Pc.ne_finished (Pc.running_of_canCall k.canCall))
    rw [Db.setTxn_txn, Db.link_txn,
      update_of_ne (by rintro rfl; exact absurd hlt (not_lt.mpr hu))]
    exact h.unborn u hu
  free e' he' := by
    simp only [Db.setTxn_allocated, Db.link_allocated, Db.setTxn_entry, Db.link_entry] at he' ⊢
    by_cases hee : e' = e
    · subst hee
      simp at he'
    · rw [update_of_ne hee] at he' ⊢
      exact h.free e' he'
  nodup u := by
    rw [Db.setTxn_txn, Db.link_txn, update_apply]
    split
    · exact k.nodup
    · exact h.nodup u
  chain := k.chain_step h
  member := k.member_step h
  written := k.written_step h
  entries := k.entries_step h
  dirty := k.dirty_step h
  version := k.version_step h
  kept := k.kept_step h
  below := k.below_step h
  stamped := k.stamped_step h
  tagged := by
    intro q x hx
    rw [Db.setTxn_heap, Db.link_heap] at hx ⊢
    by_cases hq : q = s.nextPtr
    · rw [hq, update_self] at hx ⊢
      rw [k.csn, CsnPtr.xid.injEq] at hx
      rw [k.creator, hx]
    · rw [update_of_ne hq] at hx ⊢
      exact h.tagged hx

end Linking

/-! ### The three ways to link -/

namespace ChainInv

variable {s : Db} {ch : Entry → List Ptr} {t : XID} {w : WriteRecord} {n : ℕ} {o : Object}
  {e : Entry} {q : Ptr}

/-- A transaction's first write to an entry, on top of the whole chain. -/
theorem linking_first (h : ChainInv s ch) (hcall : (s.txn t).pc.canCall)
    (hst : ∀ q ∈ ch w.entry, s.Stamped q)
    (ho : o.creator = t ∧ o.home = w.entry ∧ o.csn = .xid t ∧
      o.nextVolatile = s.entry w.entry) :
    Linking s ch t w.entry ((s.txn t).firstWrite w n s.nextPtr) o (ch w.entry) := by
  obtain ⟨ho1, ho2, ho3, ho4⟩ := ho
  obtain ⟨hact, h0, hns⟩ := (h.wf t).of_canCall hcall
  have hent : ((s.txn t).firstWrite w n s.nextPtr).entries = (s.txn t).entries ++ [w.entry] := by
    simp [Txn.entries, Txn.firstWrite]
  have hnew : w.entry ∉ (s.txn t).entries := by
    intro hin
    rw [← (h.wf t).todo_eq_entries hcall] at hin
    obtain ⟨q, l, -, hl, -, hx, -⟩ := h.dirty_head hin
    obtain ⟨c, hc⟩ := hst q (hl ▸ List.mem_cons_self)
    rw [hx] at hc
    cases hc
  refine ⟨hcall, ⟨by simp [Txn.firstWrite, h0], hact, h0, hns⟩, rfl, rfl, rfl, ?_, ?_, ho1, ho2,
    ho3, ho4 ▸ h.chain _, hst, .inl rfl⟩
  · rw [hent]
    exact List.nodup_append.mpr ⟨h.nodup t, List.nodup_singleton _,
      fun a ha b hb hab => hnew (by rwa [← List.mem_singleton.mp hb, ← hab])⟩
  · intro e'
    rw [hent, List.mem_append, List.mem_singleton]

theorem stamped_of_free (h : ChainInv s ch) (hfree : s.allocated e = false) :
    ∀ q ∈ ch e, s.Stamped q := by
  have hc := h.chain e
  rw [h.free e hfree, isChain_none] at hc
  rw [hc]
  intro q hq
  cases hq

/-- A head on which `UpdateTuple` installs is stamped: a committed transaction
has left its loop. -/
theorem stamped_of_install (h : ChainInv s ch) (hq : s.entry e = some q)
    (hcsn : (∃ c, (s.heap q).csn = .csn c ∧ c < (s.txn t).beginCsn) ∨
      ∃ x, (s.heap q).csn = .xid x ∧ (s.txn x).state = .cmmtd) :
    (∃ c, (s.heap q).csn = .csn c ∧ c < (s.txn t).beginCsn) ∧ ∀ r ∈ ch e, s.Stamped r := by
  obtain ⟨l, hl, -⟩ := h.mem_of_entry hq
  have hc : ∃ c, (s.heap q).csn = .csn c ∧ c < (s.txn t).beginCsn := by
    refine hcsn.resolve_right ?_
    rintro ⟨x, hx, hst⟩
    have htodo := (h.of_csn_xid (hl ▸ List.mem_cons_self) hx).2.2
    rw [(h.wf x).todo_of_cmmtd hst] at htodo
    cases htodo
  refine ⟨hc, fun r hr => ?_⟩
  rw [hl] at hr
  rcases List.mem_cons.mp hr with rfl | hr
  · obtain ⟨c, hc, -⟩ := hc
    exact ⟨c, hc⟩
  · exact h.below_head hl r hr

theorem linking_overwrite (h : ChainInv s ch) (hcall : (s.txn t).pc.canCall)
    (hq : s.entry e = some q) (hcsn : (s.heap q).csn = .xid t)
    (ho : o.creator = t ∧ o.home = e ∧ o.csn = .xid t ∧ o.nextVolatile = s.next q) :
    ∃ l, ch e = q :: l ∧ Linking s ch t e ((s.txn t).wrote e s.nextPtr) o l := by
  obtain ⟨ho1, ho2, ho3, ho4⟩ := ho
  obtain ⟨l, hl, hc⟩ := h.mem_of_entry hq
  have hin : e ∈ (s.txn t).entries :=
    Txn.mem_entries_of_mem_todo (h.of_csn_xid (hl ▸ List.mem_cons_self) hcsn).2.2
  refine ⟨l, hl, hcall, ⟨(h.wf t).1, (h.wf t).of_canCall hcall⟩, rfl, rfl, rfl, h.nodup t,
    fun e' => ⟨.inl, ?_⟩, ho1, ho2, ho3, ho4 ▸ hc, h.below_head hl, .inr ⟨q, hl, hcsn⟩⟩
  rintro (he | rfl)
  · exact he
  · exact hin

end ChainInv

end PreemptDB
