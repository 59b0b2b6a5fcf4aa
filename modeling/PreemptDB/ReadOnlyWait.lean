/-
Read-only transactions in the commit queue (`transaction::commit` in `txn.cc`).

A transaction without writes takes no CSN; it joins the queue with the CSN before
its snapshot, in the belief that it has read nothing later.  `TestVisibility`
returns versions up to and including the snapshot, so this is wrong exactly where
a read meets a version stamped with the snapshot itself (`NoTie`).

* `read_only_waits` — without such reads, all that was read is at most the
  enqueued CSN;
* `released_before_durable` — a reader that is let go one CSN too early.
-/
import PreemptDB.SnapshotRead

namespace PreemptDB

open StepRun

section

variable {s s' : Db} {ch : Entry → List Ptr}

/-- A read-only transaction ends at its snapshot. -/
def ReadOnlyEnd (T : Txn) : Prop := T.isSealed = true → T.writeSet = [] → T.endCsn = T.beginCsn

theorem ReadOnlyEnd.same {T T' : Txn} (h : ReadOnlyEnd T) (hsealed : T'.isSealed = T.isSealed)
    (hws : T'.writeSet = T.writeSet) (hend : T'.endCsn = T.endCsn)
    (hbegin : T'.beginCsn = T.beginCsn) : ReadOnlyEnd T' := by
  intro hs hnil
  rw [hend, hbegin]
  exact h (hsealed ▸ hs) (hws ▸ hnil)

theorem Move.readOnlyEnd (m : Move s s') (h : ∀ t, ReadOnlyEnd (s.txn t)) (t : XID) :
    ReadOnlyEnd (s'.txn t) := by
  have upd : ∀ {u : XID} {T : Txn}, ReadOnlyEnd T → ReadOnlyEnd (Function.update s.txn u T t) := by
    intro u T hT
    by_cases hu : t = u
    · rw [hu, Function.update_self]
      exact hT
    · rw [Function.update_of_ne hu]
      exact h t
  cases m with
  | stay u T _ hsame =>
    exact upd ((h u).same hsame.isSealed hsame.writeSet hsame.endCsn hsame.beginCsn)
  | begin => exact upd fun hs => by cases hs
  | insert _ _ _ _ | install _ _ _ _ _ =>
    exact upd fun _ hnil =>
      absurd hnil (List.append_ne_nil_of_right_ne_nil _ (List.cons_ne_nil _ _))
  | overwrite u _ _ _ | stamp u _ _ _ _ | unlink u _ _ => exact upd ((h u).same rfl rfl rfl rfl)
  | drawReadOnly u => exact upd fun _ _ => rfl
  | draw u _ hws => exact upd fun _ hnil => absurd hnil hws

theorem reached_readOnlyEnd {acts : List Act} (hr : Reached acts s) (t : XID) :
    ReadOnlyEnd (s.txn t) := by
  refine run_invariant (I := fun s => ∀ t, ReadOnlyEnd (s.txn t)) ?_ hr ?_ t
  · exact fun hs h => (step_move hs).readOnlyEnd h
  · intro t hs
    cases hs

/-- A version of another transaction that a snapshot holds ends before the snapshot. -/
theorem ReadSpec.end_lt {t : XID} {e : Entry} {p : Ptr} (hspec : ReadSpec s t e (some p))
    (h : ChainInv s ch) (hother : (s.heap p).creator ≠ t) :
    p ∈ s.committedVersions e ∧ s.versionEnd p < (s.txn t).beginCsn := by
  rw [ReadSpec] at hspec
  split at hspec
  · next q hq =>
    cases hspec
    exact absurd (h.written hq).2.1 hother
  · exact ⟨hspec.1, hspec.2.1⟩

end

/-- **Read-only transactions.**  Take a run in which no read meets a version stamped with
exactly the reader's snapshot and no CSN is truncated.  If a transaction has read a version of
another one and commits without writes, the CSN that it is enqueued with is at least the CSN
of that version; so it is dequeued only when the version is durable. -/
theorem read_only_waits {acts acts' : List Act} {s s' : Db} (hr : Reached acts s)
    (hr' : run step s acts' = some s')
    (hok : Along step NoTie Db.init (acts ++ acts'))
    (hle : s'.currentCsn ≤ CSN.limit) {t : XID} {e : Entry} {p : Ptr}
    (hread : (s.txn t).pc = .returned e (some p)) (hother : (s.heap p).creator ≠ t)
    (hcommit : (s'.txn t).state = .cmmtd) (hws : (s'.txn t).writeSet = []) :
    s'.versionEnd p ≤ (s'.txn t).enqueuedCsn ∧
      ∀ (durable : ℕ → Prop) (upto : ℕ), (∀ c ≤ upto, durable c) →
        (s'.txn t).enqueuedCsn ≤ upto → durable (s'.versionEnd p) := by
  obtain ⟨ch, h, -⟩ := reached_inv hr
  obtain ⟨ch', h', g⟩ := h.run hr'
  have hspec : ReadSpec s t e (some p) := by
    obtain ⟨ch₁, -, i⟩ := readInv_run readInv_init (hok.append hr).1 hr (g.currentCsn.trans hle)
    have := i.readers t
    rwa [hread] at this
  obtain ⟨hmem, hlt⟩ := hspec.end_lt h hother
  have hreached' : Reached (acts ++ acts') s' := run_append.mpr ⟨s, hr, hr'⟩
  have hbegin : (s'.txn t).beginCsn = (s.txn t).beginCsn :=
    g.beginCsn t (h.lt_nextXid (show (s.txn t).pc ≠ .finished by simp [hread]))
  have hend : (s'.txn t).endCsn = (s'.txn t).beginCsn :=
    reached_readOnlyEnd hreached' t ((h'.wf t).isSealed_of_cmmtd hcommit) hws
  have hle' : s'.versionEnd p ≤ (s'.txn t).enqueuedCsn := by
    rw [g.versionEnd h hmem, Txn.enqueuedCsn, if_neg (by rw [hend, hbegin, hws]; simp; omega), hend,
      hbegin]
    omega
  exact ⟨hle', fun durable upto hd hupto => hd _ (hle'.trans hupto)⟩

/-- A reader commits without writes. -/
def commitReadOnly (t : XID) : List Act := [.commit t, .drawCsn t, .publish t]

/-- The reader passes over the dirty version, reads the one below and commits. -/
theorem read_only_waits_dirty :
    ∃ s s', Reached dirtyReadActs s ∧ run step s (commitReadOnly 1) = some s' ∧
      (s.txn 1).pc = .returned roundEntry (some 0) ∧ (s'.txn 1).enqueuedCsn = 0 ∧
      s'.versionEnd 0 ≤ (s'.txn 1).enqueuedCsn := by
  have hok : Along step NoTie Db.init (dirtyReadActs ++ commitReadOnly 1) := by decide
  refine ⟨_, _, rfl, rfl, rfl, rfl, ?_⟩
  exact (read_only_waits (show Reached dirtyReadActs _ from rfl) rfl hok (by decide) rfl
    (by decide) rfl rfl).1

/-- The writer commits with CSN 1, which is the reader's snapshot; the reader returns its
version and is enqueued with CSN 0, so that it is let go when only block 0 is durable. -/
theorem released_before_durable :
    ∃ s s', Reached (dirtyReadActs ++ commitActs 2 ++ readActs 1 3) s ∧
      run step s (commitReadOnly 1) = some s' ∧
      (s.txn 1).pc = .returned roundEntry (some 1) ∧ (s.heap 1).creator = 2 ∧
      (s'.txn 1).state = .cmmtd ∧ (s'.txn 1).writeSet = [] ∧ s'.versionEnd 1 = 1 ∧
      (s'.txn 1).enqueuedCsn = 0 ∧ ¬ s'.versionEnd 1 ≤ (s'.txn 1).enqueuedCsn := by
  refine ⟨_, _, rfl, rfl, rfl, rfl, rfl, rfl, rfl, rfl, ?_⟩
  decide

end PreemptDB
