/-
Runs with any number of commits.

One record is overwritten and committed again and again, which takes one CSN
after the other.  `exists_reached_csn` reaches every CSN below `2 ^ 48` this
way; the runs in which a stamp is truncated continue from there.
-/
import PreemptDB.Mvcc
import PreemptDB.MvccMove

namespace PreemptDB

open StepRun

/-- The record that the runs write. -/
def roundEntry : Entry := ⟨1, 1⟩

/-- The commit of a transaction that has written one record. -/
def commitActs (t : XID) : List Act :=
  [.commit t, .drawCsn t, .allocBlock t ⟨0, 0, 0⟩ fun _ => 0, .stamp t fun _ => 0, .publish t]

/-- The head of the record is `p`, stamped with `c`. -/
@[mk_iff] structure HeadAt (s : Db) (p : Ptr) (c : ℕ) : Prop where
  entry : s.entry roundEntry = some p
  lt : p < s.nextPtr
  csn : (s.heap p).csn = .csn c
  pdest : (s.heap p).pdest ≠ FatPtr.null

/-- What a transaction `t` with snapshot `b` leaves behind that overwrites the
head `p` and commits. -/
@[mk_iff] structure Round (s s' : Db) (t : XID) (b : ℕ) (p : Ptr) : Prop where
  currentCsn : s'.currentCsn = s.currentCsn + 1
  nextXid : s'.nextXid = s.nextXid
  head : HeadAt s' s.nextPtr (CSN.make s.currentCsn).offset
  next : s'.next s.nextPtr = some p
  old : s'.heap p = s.heap p
  others : ∀ u, u ≠ t → s'.txn u = s.txn u
  beginCsn : (s'.txn t).beginCsn = b
  endCsn : (s'.txn t).endCsn = s.currentCsn
  isSealed : (s'.txn t).isSealed = true
  written : (s'.txn t).written roundEntry = some s.nextPtr

/-- The head is older than the snapshot, so the update installs and the commit
goes through. -/
theorem exists_round {s : Db} {t : XID} {b c : ℕ} {p : Ptr} (ht : s.txn t = Txn.start b)
    (hp : HeadAt s p c) (hc : c < b) :
    ∃ s', run step s (.update t roundEntry [] :: commitActs t) = some s' ∧
      Round s s' t b p := by
  obtain ⟨hentry, hlt, hcsn, hd⟩ := hp
  have hne : p ≠ s.nextPtr := Nat.ne_of_lt hlt
  have hbc : ¬ b ≤ c := Nat.not_le.mpr hc
  -- run the six actions on the symbolic state
  simp only [round_iff, headAt_iff]
  simp [commitActs, run, step, update, updateDecision, ht, Txn.start, Txn.unborn, Pc.canCall,
    hentry, hcsn, hbc, installOver, hd, Txn.addToWriteSet, kMaxEntries, Db.setTxn, Txn.wrote,
    drawCsn, allocBlock, stamp, Db.link, logrecSize, alignUp, alignDown, dataSz, sizeofDbtuple,
    sizeofLogRecord, defaultAlignment, populateLogRecord, publish, Db.setCsn,
    Db.setPersistentAddress, Db.next, hne, persistentAddress, LSN.toPtr_ne_null, Object.create,
    CsnPtr.generate]
  intro u hu
  simp [Function.update_of_ne hu]

/-- A transaction begins, overwrites the record and commits. -/
theorem exists_begin_round {s : Db} {c : ℕ} {p : Ptr} (hp : HeadAt s p c)
    (hc : c < s.currentCsn) :
    ∃ acts s', run step s acts = some s' ∧ s'.currentCsn = s.currentCsn + 1 ∧
      ∃ q, HeadAt s' q (CSN.make s.currentCsn).offset ∧ s'.next q = some p ∧
        s'.heap p = s.heap p := by
  obtain ⟨s₁, hs₁⟩ : ∃ s₁, step s .begin = some s₁ := ⟨_, rfl⟩
  have hs : s₁ = _ := (Option.some_inj.mp hs₁).symm
  have ht : s₁.txn s.nextXid = Txn.start s.currentCsn := by
    rw [hs]
    exact Function.update_self ..
  have hp₁ : HeadAt s₁ p c := by
    rw [hs]
    exact ⟨hp.entry, hp.lt, hp.csn, hp.pdest⟩
  obtain ⟨s', hrun, hr⟩ := exists_round ht hp₁ hc
  have hcsn : s₁.currentCsn = s.currentCsn := by rw [hs]
  refine ⟨_, s', run_cons_eq_some.mpr ⟨s₁, hs₁, hrun⟩, by rw [hr.currentCsn, hcsn],
    s₁.nextPtr, hcsn ▸ hr.head, hr.next, ?_⟩
  rw [hr.old, hs]

/-- Every CSN that fits into a fat pointer is reached. -/
theorem exists_reached_csn (n : ℕ) (hn : n < CSN.limit) :
    ∃ acts s p, Reached acts s ∧ s.currentCsn = n + 1 ∧ HeadAt s p n := by
  induction n with
  | zero =>
    refine ⟨.begin :: .insert 0 roundEntry [] :: commitActs 0, _, 0, rfl, rfl, rfl, ?_, rfl, ?_⟩
    · decide
    · exact LSN.toPtr_ne_null _ _
  | succ n ih =>
    obtain ⟨acts, s, p, hr, hcsn, hp⟩ := ih (Nat.lt_of_succ_lt hn)
    obtain ⟨acts', s', hrun, hcsn', q, hq, -⟩ := exists_begin_round hp (by omega)
    refine ⟨acts ++ acts', s', q, run_append.mpr ⟨s, hr, hrun⟩, by omega, ?_⟩
    rwa [CSN.make_offset, hcsn, Nat.mod_eq_of_lt hn] at hq

end PreemptDB
