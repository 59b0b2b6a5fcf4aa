/-
The joint invariant of chains, contexts and write sets.

`ChainInv s ch` relates the chains `ch` of a state to its transactions: which
versions are dirty, which are stamped, and which write sets they belong to.
This module states it, reads off what it says about one version, and shows
that a step which leaves entries, heap and write sets alone keeps it
(`ChainInv.retxn`).  The steps that change chains follow in `ChainLink.lean`
and `ChainLoop.lean`.
-/
import PreemptDB.LinkedChain
import PreemptDB.MvccMove

open LinkedChain

namespace PreemptDB

/-- The version carries a CSN. -/
def Db.Stamped (s : Db) (p : Ptr) : Prop := ∃ c, (s.heap p).csn = .csn c

/-- A version in the chain of `e` is dirty while its creator has still to stamp
or unlink it; after that it carries the CSN of its creator. -/
def Db.Status (s : Db) (e : Entry) (p : Ptr) : Prop :=
  (s.heap p).csn = .xid (s.heap p).creator ∧ e ∈ (s.txn (s.heap p).creator).todo ∨
  (s.heap p).csn = .generate (s.txn (s.heap p).creator).endCsn ∧
    (s.txn (s.heap p).creator).isSealed = true ∧ e ∉ (s.txn (s.heap p).creator).todo

/-- The joint invariant of chains, contexts and write sets. -/
structure ChainInv (s : Db) (ch : Entry → List Ptr) : Prop where
  wf : ∀ t, (s.txn t).Wf
  unborn : ∀ t, s.nextXid ≤ t → s.txn t = Txn.unborn
  free : ∀ e, s.allocated e = false → s.entry e = none
  chain : ∀ e, IsChain s.next (s.entry e) (ch e)
  member : ∀ {e p}, p ∈ ch e → p < s.nextPtr ∧ (s.heap p).home = e
  nodup : ∀ t, (s.txn t).entries.Nodup
  written : ∀ {t e p}, (s.txn t).written e = some p →
    p < s.nextPtr ∧ (s.heap p).creator = t ∧ (s.heap p).home = e
  entries : ∀ {t e}, (∃ p, (s.txn t).written e = some p) ↔ e ∈ (s.txn t).entries
  dirty : ∀ {t e}, e ∈ (s.txn t).todo → ∃ p, s.entry e = some p ∧ (s.heap p).csn = .xid t
  version : ∀ {e p}, p ∈ ch e →
    (s.txn (s.heap p).creator).written e = some p ∧ s.Status e p
  kept : ∀ {t e p}, (s.txn t).isSealed = true → (s.txn t).written e = some p → p ∈ ch e
  below : ∀ {p}, p < s.nextPtr →
    ∃ l, IsChain s.next (s.next p) l ∧ l <:+ ch (s.heap p).home ∧ ∀ q ∈ l, s.Stamped q
  stamped : ∀ {p}, s.Stamped p → p ∈ ch (s.heap p).home
  tagged : ∀ {p x}, (s.heap p).csn = .xid x → (s.heap p).creator = x

theorem chainInv_init : ChainInv Db.init fun _ => [] where
  wf _ := ⟨le_rfl, rfl, .inr ⟨rfl, rfl⟩⟩
  unborn _ _ := rfl
  free _ _ := rfl
  chain _ := rfl
  member h := by cases h
  nodup _ := List.nodup_nil
  written h := by cases h
  entries := by
    intro t e
    constructor
    · rintro ⟨p, ⟨⟩⟩
    · intro h
      cases h
  dirty h := by cases h
  version h := by cases h
  kept h := by cases h
  below h := absurd h (Nat.not_lt_zero _)
  stamped := by
    rintro p ⟨c, ⟨⟩⟩
  tagged h := by cases h

namespace ChainInv

variable {s s' : Db} {ch : Entry → List Ptr} {t : XID} {e : Entry} {p : Ptr}

theorem lt_nextXid (h : ChainInv s ch) (hpc : (s.txn t).pc ≠ .finished) : t < s.nextXid := by
  by_contra hle
  exact hpc (by rw [h.unborn t (not_lt.mp hle)]; rfl)

theorem mem_of_entry (h : ChainInv s ch) (hp : s.entry e = some p) :
    ∃ l, ch e = p :: l ∧ IsChain s.next (s.next p) l := by
  have hc := h.chain e
  rw [hp] at hc
  exact isChain_some.mp hc

/-- A dirty version in a chain is its creator's latest one. -/
theorem of_csn_xid (h : ChainInv s ch) (hp : p ∈ ch e) (hcsn : (s.heap p).csn = .xid t) :
    (s.heap p).creator = t ∧ (s.txn t).written e = some p ∧ e ∈ (s.txn t).todo := by
  obtain ⟨hw, ⟨hx, htodo⟩ | ⟨hx, -⟩⟩ := h.version hp
  · rw [hcsn, CsnPtr.xid.injEq] at hx
    rw [← hx] at hw htodo
    exact ⟨hx.symm, hw, htodo⟩
  · rw [hcsn] at hx
    cases hx

/-- A stamped version in a chain belongs to a sealed transaction. -/
theorem of_stamped (h : ChainInv s ch) (hp : p ∈ ch e) (hst : s.Stamped p) :
    (s.heap p).csn = .generate (s.txn (s.heap p).creator).endCsn ∧
      (s.txn (s.heap p).creator).isSealed = true ∧ e ∉ (s.txn (s.heap p).creator).todo := by
  obtain ⟨-, ⟨hx, -⟩ | hx⟩ := h.version hp
  · obtain ⟨c, hc⟩ := hst
    rw [hc] at hx
    cases hx
  · exact hx

/-- A version in a chain that is not stamped carries its creator's XID. -/
theorem stamped_or_xid (h : ChainInv s ch) (hp : p ∈ ch e) :
    s.Stamped p ∨ (s.heap p).csn = .xid (s.heap p).creator := by
  obtain ⟨-, ⟨hx, -⟩ | ⟨hx, -⟩⟩ := h.version hp
  · exact .inr hx
  · exact .inl ⟨_, hx⟩

/-- The head of an entry that a transaction has still to handle. -/
theorem dirty_head (h : ChainInv s ch) (he : e ∈ (s.txn t).todo) :
    ∃ p l, s.entry e = some p ∧ ch e = p :: l ∧ IsChain s.next (s.next p) l ∧
      (s.heap p).csn = .xid t ∧ (s.heap p).creator = t ∧ (s.txn t).written e = some p := by
  obtain ⟨p, hp, hcsn⟩ := h.dirty he
  obtain ⟨l, hl, hc⟩ := h.mem_of_entry hp
  obtain ⟨h1, h2, -⟩ := h.of_csn_xid (hl ▸ List.mem_cons_self) hcsn
  exact ⟨p, l, hp, hl, hc, hcsn, h1, h2⟩

/-- The version found at the head of an entry is the rest of the chain's newest;
below it everything is stamped. -/
theorem below_head (h : ChainInv s ch) {l : List Ptr} (hl : ch e = p :: l) :
    ∀ q ∈ l, s.Stamped q := by
  have hp : p ∈ ch e := hl ▸ List.mem_cons_self
  obtain ⟨l', hc, -, hst⟩ := h.below (h.member hp).1
  have hchain := h.chain e
  rw [hl] at hchain
  rwa [hc.unique hchain.2] at hst

/-! ### One transaction changes, the chains do not -/

/-- A step that leaves entries, heap and write sets alone keeps the chains; a
transaction may be sealed in it if its loop has not begun. -/
theorem retxn (h : ChainInv s ch) {T : Txn} (htxn : s'.txn = Function.update s.txn t T)
    (hwf : T.Wf)
    (hws : T.writeSet = (s.txn t).writeSet) (hidx : T.idx = (s.txn t).idx)
    (hwr : T.written = (s.txn t).written)
    (hseal : T.isSealed = (s.txn t).isSealed ∧ T.endCsn = (s.txn t).endCsn ∨
      (s.txn t).isSealed = false ∧ (s.txn t).idx = 0)
    (hentry : s'.entry = s.entry) (hheap : s'.heap = s.heap) (hptr : s'.nextPtr = s.nextPtr)
    (halloc : s'.allocated = s.allocated)
    (hxid : s.nextXid ≤ s'.nextXid) (hlt : t < s'.nextXid) : ChainInv s' ch := by
  have hnext : s'.next = s.next := by
    funext q
    rw [Db.next, hheap, Db.next]
  have hent : ∀ u, (s'.txn u).entries = (s.txn u).entries := by
    intro u
    rw [htxn, Function.update_apply]
    split
    · rename_i hu
      rw [hu, Txn.entries, hws, Txn.entries]
    · rfl
  have htodo : ∀ u, (s'.txn u).todo = (s.txn u).todo := by
    intro u
    rw [Txn.todo, hent, Txn.todo, htxn, Function.update_apply]
    split
    · rename_i hu
      rw [hu, hidx]
    · rfl
  have hwritten : ∀ u, (s'.txn u).written = (s.txn u).written := by
    intro u
    rw [htxn, Function.update_apply]
    split
    · rename_i hu
      rw [hu, hwr]
    · rfl
  constructor
  case wf =>
    intro u
    rw [htxn, Function.update_apply]
    split
    · exact hwf
    · exact h.wf u
  case unborn =>
    intro u hu
    rw [htxn, Function.update_of_ne (by rintro rfl; exact absurd hlt (not_lt.mpr hu))]
    exact h.unborn u (hxid.trans hu)
  case free => rw [halloc, hentry]; exact h.free
  case chain => rw [hentry, hnext]; exact h.chain
  case member => rw [hptr, hheap]; exact h.member
  case nodup => intro u; rw [hent]; exact h.nodup u
  case written => intro u e p; rw [hwritten, hptr, hheap]; exact h.written
  case entries => intro u e; rw [hwritten, hent]; exact h.entries
  case dirty => intro u e; rw [htodo, hentry, hheap]; exact h.dirty
  case version =>
    intro e p hp
    obtain ⟨hw, hst⟩ := h.version hp
    rw [Db.Status, hheap, htodo, hwritten]
    refine ⟨hw, hst.imp id ?_⟩
    rintro ⟨hcsn, hsealed, hno⟩
    rw [htxn, Function.update_apply]
    split
    · rename_i hu
      rw [hu] at hcsn hsealed
      rcases hseal with ⟨hs, he⟩ | ⟨hs, -⟩
      · exact ⟨he ▸ hcsn, hs ▸ hsealed, hno⟩
      · rw [hs] at hsealed
        cases hsealed
    · exact ⟨hcsn, hsealed, hno⟩
  case kept =>
    intro u e p hsealed hw
    rw [hwritten] at hw
    by_cases hu : u = t
    · subst hu
      rw [htxn, Function.update_self] at hsealed
      rcases hseal with ⟨hs, -⟩ | ⟨-, h0⟩
      · exact h.kept (hs ▸ hsealed) hw
      · -- before the loop every entry of the write set is dirty
        have he : e ∈ (s.txn u).todo := by
          rw [Txn.todo, h0, List.drop_zero]
          exact h.entries.mp ⟨p, hw⟩
        obtain ⟨q, l, -, hl, -, -, -, hq⟩ := h.dirty_head he
        rw [hw, Option.some_inj] at hq
        rw [hl, hq]
        exact List.mem_cons_self
    · rw [htxn, Function.update_of_ne hu] at hsealed
      exact h.kept hsealed hw
  case below =>
    intro p
    simp only [hptr, hnext, hheap, Db.Stamped]
    exact h.below
  case stamped =>
    intro p
    simp only [hheap, Db.Stamped]
    exact h.stamped
  case tagged => rw [hheap]; exact h.tagged

end ChainInv

end PreemptDB
