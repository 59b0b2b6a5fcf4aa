/-
First updater wins.

Two committed transactions that wrote the same OID have disjoint lifetimes, and
the version that a committed transaction has overwritten is the newest one its
snapshot could see.  Both read off the order of a chain, and both need that no
CSN has been truncated.

* `committed_writers_disjoint` — no two committed updaters overlap;
* `lost_update_by_truncation` — beyond `2 ^ 48` CSNs two of them do.
-/
import PreemptDB.NewestBelow
import PreemptDB.VersionChain

open LinkedChain

namespace PreemptDB

namespace Db

/-- The transaction has taken its CSN, after which `si_commit` cannot fail. -/
def Committed (s : Db) (t : XID) : Prop := (s.txn t).isSealed = true

/-- The final versions of the committed transactions that wrote an entry. -/
def committedVersions (s : Db) (e : Entry) : Set Ptr :=
  { p | ∃ t, s.Committed t ∧ (s.txn t).written e = some p }

/-- The CSN of the transaction that created a version. -/
def versionEnd (s : Db) (p : Ptr) : ℕ := (s.txn (s.heap p).creator).endCsn

/-- `r` is the newest committed version of `e` for the snapshot `b`. -/
def SnapshotVersion (s : Db) (e : Entry) (b : ℕ) (r : Option Ptr) : Prop :=
  IsNewestBelow (s.committedVersions e) s.versionEnd b r

end Db

variable {s : Db} {ch : Entry → List Ptr}

namespace ChainInv

theorem mem_committedVersions (h : ChainInv s ch) {e : Entry} {p : Ptr} :
    p ∈ s.committedVersions e ↔ p ∈ ch e ∧ s.Committed (s.heap p).creator := by
  constructor
  · rintro ⟨t, ht, hw⟩
    rw [(h.written hw).2.1]
    exact ⟨h.kept ht hw, ht⟩
  · rintro ⟨hp, hs⟩
    exact ⟨_, hs, (h.version hp).1⟩

/-- Distinct committed versions have distinct CSNs. -/
theorem versionEnd_injOn (h : ChainInv s ch) (hc : CsnInv s) (e : Entry) :
    Set.InjOn s.versionEnd (s.committedVersions e) := by
  intro p hp q hq heq
  obtain ⟨hp, hps⟩ := h.mem_committedVersions.mp hp
  obtain ⟨hq, hqs⟩ := h.mem_committedVersions.mp hq
  have hcr := hc.end_inj hps (h.writeSet_ne_nil hp) hqs (h.writeSet_ne_nil hq) heq
  have hw := (h.version hp).1
  rw [hcr, (h.version hq).1, Option.some_inj] at hw
  exact hw.symm

/-- From newer to older versions, the CSNs of the committed writers decrease. -/
theorem versionEnd_pairwise (h : ChainInv s ch) (hc : CsnInv s) (ho : OrderInv s ch) (e : Entry) :
    (ch e).Pairwise fun p q =>
      s.Committed (s.heap p).creator → s.versionEnd q < s.versionEnd p := by
  refine (ho e).imp_of_mem fun {p q} hp _ hold hs => ?_
  exact hold.2.trans_le (hc.end_lt hs (h.writeSet_ne_nil hp)).1

/-- Where a chain crosses a snapshot is the newest version before it. -/
theorem snapshotVersion_of_split (h : ChainInv s ch) (hc : CsnInv s) (ho : OrderInv s ch)
    {e : Entry} {b : ℕ} (pre : List Ptr) {l : List Ptr} (hch : ch e = pre ++ l)
    (hst : ∀ q ∈ l, s.Committed (s.heap q).creator)
    (hpre : ∀ p ∈ pre, s.Committed (s.heap p).creator → b ≤ s.versionEnd p)
    (hhead : ∀ p ∈ l.head?, s.versionEnd p < b) : s.SnapshotVersion e b l.head? := by
  have hmem : ∀ q ∈ l, q ∈ ch e := fun q hq => hch ▸ List.mem_append_right _ hq
  refine isNewestBelow_of_split pre (fun p hp => ?_) (fun p hp hin => ?_) ?_ fun p hp => ?_
  · rw [← hch]
    exact (h.mem_committedVersions.mp hp).1
  · exact hpre p hp (h.mem_committedVersions.mp hin).2
  · have hpw := h.versionEnd_pairwise hc ho e
    rw [hch] at hpw
    exact (List.pairwise_append.mp hpw).2.1.imp_of_mem fun hp _ hlt => hlt (hst _ hp)
  · have hp' := List.mem_of_mem_head? hp
    exact ⟨h.mem_committedVersions.mpr ⟨hmem p hp', hst p hp'⟩, hhead p hp⟩

/-- In an ordered chain the newer of two committed versions began after the
older one had ended. -/
theorem older_or_older (ho : OrderInv s ch) {e : Entry} {p q : Ptr}
    (hp : p ∈ ch e) (hq : q ∈ ch e) (hne : p ≠ q) : s.Older p q ∨ s.Older q p := by
  have hor : (ch e).Pairwise fun p q => s.Older p q ∨ s.Older q p := (ho e).imp .inl
  have : Std.Symm fun p q => s.Older p q ∨ s.Older q p := ⟨fun _ _ => Or.symm⟩
  exact hor.forall hp hq hne

/-- The version below a committed one is the newest before its writer's snapshot. -/
theorem next_snapshotVersion (h : ChainInv s ch) (hc : CsnInv s) (ho : OrderInv s ch) {t : XID}
    {e : Entry} {q : Ptr} (ht : s.Committed t) (hq : (s.txn t).written e = some q) :
    s.SnapshotVersion e (s.txn t).beginCsn (s.next q) := by
  have hcr := (h.written hq).2.1
  have hmem := h.kept ht hq
  obtain ⟨pre, l, hch⟩ := List.append_of_mem hmem
  have hord := ho e
  rw [hch] at hord
  obtain ⟨-, hpost, hcross⟩ := List.pairwise_append.mp hord
  have hnext : s.next q = l.head? := by
    have hchain := h.chain e
    rw [hch] at hchain
    exact (IsChain.head? hchain.drop.2).symm
  rw [hnext]
  have hbe : (s.txn t).beginCsn ≤ s.versionEnd q := by
    rw [Db.versionEnd, hcr]
    exact (hc.end_lt ht (hcr ▸ h.writeSet_ne_nil hmem)).1
  refine h.snapshotVersion_of_split hc ho (pre ++ [q]) (by rw [hch]; simp) ?_ ?_ ?_
  · intro r hr
    exact ((List.pairwise_cons.mp hpost).1 r hr).1
  · intro p hp hs
    rcases List.mem_append.mp hp with hp | hp
    · -- a newer version ended later than `q`
      have hold := (hcross p hp q List.mem_cons_self).2
      have hpe := (hc.end_lt hs (h.writeSet_ne_nil (hch ▸ List.mem_append_left _ hp))).1
      exact hbe.trans (hold.le.trans hpe)
    · rw [List.mem_singleton.mp hp]
      exact hbe
  · intro p hp
    have := ((List.pairwise_cons.mp hpost).1 p (List.mem_of_mem_head? hp)).2
    rwa [hcr] at this

end ChainInv

/-- **First updater wins.**  In every reachable state in which at most `2 ^ 48`
CSNs have been taken, two committed transactions that wrote the same OID have
disjoint lifetimes, and the version below a committed one is the newest that
its writer's snapshot could see. -/
theorem committed_writers_disjoint {acts : List Act} (hr : Reached acts s)
    (hle : s.currentCsn ≤ CSN.limit) {A B : XID} (hA : s.Committed A) (hB : s.Committed B)
    (hne : A ≠ B) {e : Entry} {p q : Ptr} (hp : (s.txn A).written e = some p)
    (hq : (s.txn B).written e = some q) :
    ((s.txn A).endCsn < (s.txn B).beginCsn ∨ (s.txn B).endCsn < (s.txn A).beginCsn) ∧
      s.SnapshotVersion e (s.txn B).beginCsn (s.next q) := by
  obtain ⟨ch, h, hc, ho⟩ := reached_inv hr
  refine ⟨?_, h.next_snapshotVersion hc (ho hle) hB hq⟩
  have hpA := (h.written hp).2.1
  have hqB := (h.written hq).2.1
  have hpq : p ≠ q := by
    rintro rfl
    exact hne (hpA.symm.trans hqB)
  have hold := ChainInv.older_or_older (ho hle) (h.kept hA hp) (h.kept hB hq) hpq
  rw [Db.Older, Db.Older, hpA, hqB] at hold
  exact hold.symm.imp And.right And.right

/-- One transaction inserts a record, the next one updates it. -/
def updateActs : List Act :=
  .begin :: .insert 0 roundEntry [] :: commitActs 0 ++
    (.begin :: .update 1 roundEntry [] :: commitActs 1)

theorem committed_writers_disjoint_update :
    ∃ s, Reached updateActs s ∧ s.currentCsn ≤ CSN.limit ∧ s.Committed 0 ∧ s.Committed 1 ∧
      (s.txn 0).written roundEntry = some 0 ∧ (s.txn 1).written roundEntry = some 1 ∧
      ((s.txn 0).endCsn < (s.txn 1).beginCsn ∨ (s.txn 1).endCsn < (s.txn 0).beginCsn) ∧
      s.SnapshotVersion roundEntry (s.txn 1).beginCsn (s.next 1) := by
  refine ⟨_, rfl, ?_, rfl, rfl, rfl, rfl,
    committed_writers_disjoint (A := 0) (B := 1) (show Reached updateActs _ from rfl) ?_
      rfl rfl ?_ rfl rfl⟩
  all_goals decide

/-- Two transactions with the snapshot `2 ^ 48` update the same record one after
the other: the stamp of the first is truncated to 0, so the second passes the
check of `UpdateTuple` and both commit. -/
theorem lost_update_by_truncation :
    ∃ acts s A B p q, Reached acts s ∧ s.Committed A ∧ s.Committed B ∧ A ≠ B ∧
      (s.txn A).written roundEntry = some p ∧ (s.txn B).written roundEntry = some q ∧
      ¬ ((s.txn A).endCsn < (s.txn B).beginCsn ∨ (s.txn B).endCsn < (s.txn A).beginCsn) := by
  obtain ⟨acts, s₀, p, hr, hcsn, hp⟩ := exists_reached_csn (CSN.limit - 1) (by decide)
  have hlim : s₀.currentCsn = CSN.limit := by
    rw [hcsn]
    rfl
  -- both begin
  obtain ⟨s₁, hs₁⟩ : ∃ s₁, StepRun.run step s₀ [.begin, .begin] = some s₁ := ⟨_, rfl⟩
  have h1 : s₁ = _ := (Option.some_inj.mp hs₁).symm
  have hcsn₁ : s₁.currentCsn = CSN.limit := by rw [h1, ← hlim]
  have hA : s₁.txn s₀.nextXid = Txn.start CSN.limit := by
    rw [h1, ← hlim]
    simp
  have hB : s₁.txn (s₀.nextXid + 1) = Txn.start CSN.limit := by
    rw [h1, ← hlim]
    simp
  have hp₁ : HeadAt s₁ p (CSN.limit - 1) := by
    rw [h1]
    exact ⟨hp.entry, hp.lt, hp.csn, hp.pdest⟩
  -- the first one commits with the CSN `2 ^ 48`, the second sees the stamp 0
  obtain ⟨s₂, hs₂, r₂⟩ := exists_round hA hp₁ (by decide)
  have hhead : HeadAt s₂ s₁.nextPtr 0 := by
    have := r₂.head
    rwa [CSN.make_offset, hcsn₁, Nat.mod_self] at this
  have hB' : s₂.txn (s₀.nextXid + 1) = Txn.start CSN.limit := by
    rw [r₂.others _ (Nat.succ_ne_self _), hB]
  obtain ⟨s₃, hs₃, r₃⟩ := exists_round hB' hhead (by decide)
  have hA₃ : s₃.txn s₀.nextXid = s₂.txn s₀.nextXid := r₃.others _ (Nat.succ_ne_self _).symm
  refine ⟨acts ++ ([.begin, .begin] ++ (_ ++ _)), s₃, s₀.nextXid, s₀.nextXid + 1,
    s₁.nextPtr, s₂.nextPtr,
    StepRun.run_append.mpr ⟨s₀, hr, StepRun.run_append.mpr ⟨s₁, hs₁,
      StepRun.run_append.mpr ⟨s₂, hs₂, hs₃⟩⟩⟩, ?_, r₃.isSealed, (Nat.succ_ne_self _).symm, ?_,
    r₃.written, ?_⟩
  · rw [Db.Committed, hA₃]
    exact r₂.isSealed
  · rw [hA₃]
    exact r₂.written
  · rw [hA₃, r₂.endCsn, r₂.beginCsn, r₃.endCsn, r₃.beginCsn, r₂.currentCsn, hcsn₁]
    omega

end PreemptDB
