/-
The order of a commit queue.

The transactions of `Mvcc`, each on one of the logs, and the commit queues of the
logs.  `transaction::commit` enqueues the CSN of a writer, and for a read-only
transaction the one before its snapshot.  Both lie above everything that the log
has enqueued before, since that was below the counter when the snapshot was
taken.  The loop of `dequeue_committed_xcts` relies on it: it stops at the first
entry that is not durable.

* `Committers.step` — the transactions, and the calls on the queues;
* `SortedInv` — what is enqueued is below the snapshots to come;
* `QueueInv` — the queues hold what was enqueued, in order;
* `commit_order` — both together;
* `extended_released_early` — after an extension of a wrapped queue they do not.
-/
import PreemptDB.AbortAtomic
import PreemptDB.CommitFifo

namespace PreemptDB

open StepRun
open Function (update_apply update_eq_self update_of_ne update_self)

def Act.begins : Act → Bool
  | begin => true
  | _ => false

/-- The transactions and the queues.  `owed` is a CSN that `enqueue_committed_xct` of
the log has not yet put into the queue; `enqueued` and `removed` list all CSNs that
`commit` has passed on, and those that the dequeuing loop has counted. -/
structure Committers where
  db : Db
  queue : ℕ → CommitQueue
  owed : ℕ → Option ℕ
  enqueued : ℕ → List ℕ
  removed : ℕ → List ℕ

inductive CommitterAct
  | txn (a : Act)
  /-- a `push_back` by `enqueue_committed_xct` of log `i` -/
  | pushBack (i : ℕ)
  | extend (i : ℕ)
  /-- somebody dequeues from log `i` -/
  | dequeue (i upto : ℕ)

namespace Committers

def init (length : ℕ) : Committers where
  db := Db.init
  queue _ := .init length
  owed _ := none
  enqueued _ := []
  removed _ := []

section

variable (logOf : XID → ℕ)

/-- The log has no transaction and no CSN under way. -/
def LogFree (s : Committers) (i : ℕ) : Prop :=
  s.owed i = none ∧ ∀ t < s.db.nextXid, logOf t = i → (s.db.txn t).pc = .finished

instance (s : Committers) (i : ℕ) : Decidable (LogFree logOf s i) :=
  inferInstanceAs (Decidable (_ ∧ _))

/-- `commit` goes on to `enqueue_committed_xct` after `uninitialize`. -/
def report (s : Committers) (a : Act) (db : Db) : Committers :=
  match a with
  | .finish t =>
    if (s.db.txn t).pc = .committed then
      { s with
        db := db
        owed := Function.update s.owed (logOf t) (some (s.db.txn t).enqueuedCsn)
        enqueued := Function.update s.enqueued (logOf t)
          (s.enqueued (logOf t) ++ [(s.db.txn t).enqueuedCsn]) }
    else { s with db := db }
  | _ => { s with db := db }

/-- One step.  A log is used by one transaction at a time. -/
def step (s : Committers) : CommitterAct → Option Committers
  | .txn a =>
    if a.begins → LogFree logOf s (logOf s.db.nextXid) then
      (PreemptDB.step s.db a).map (s.report logOf a)
    else none
  | .pushBack i =>
    (s.owed i).map fun csn =>
      { s with
        queue := Function.update s.queue i ((s.queue i).pushBack csn ⟨false, true⟩).1
        owed := Function.update s.owed i
          (if (s.queue i).stores ⟨false, true⟩ then none else some csn) }
  | .extend i => some { s with queue := Function.update s.queue i (s.queue i).extend }
  | .dequeue i upto =>
    ((s.queue i).dequeue upto).map fun q =>
      { s with
        queue := Function.update s.queue i q
        removed := Function.update s.removed i (s.removed i ++ (s.queue i).released upto) }

end

variable {logOf : XID → ℕ} {s s' : Committers}

/-- What a step of a transaction does: it takes a free log, it ends a commit, or
neither. -/
theorem step_txn_cases {a : Act} (hs : s.step logOf (.txn a) = some s') :
    ∃ db, PreemptDB.step s.db a = some db ∧
      (a = .begin ∧ LogFree logOf s (logOf s.db.nextXid) ∧ s' = { s with db := db } ∨
        (∃ t, a = .finish t ∧ (s.db.txn t).pc = .committed ∧ s' = { s with
          db := db
          owed := Function.update s.owed (logOf t) (some (s.db.txn t).enqueuedCsn)
          enqueued := Function.update s.enqueued (logOf t)
            (s.enqueued (logOf t) ++ [(s.db.txn t).enqueuedCsn]) }) ∨
        a ≠ .begin ∧ s' = { s with db := db }) := by
  rw [step, Option.ite_none_right_eq_some] at hs
  obtain ⟨hfree, hs⟩ := hs
  obtain ⟨db, hdb, rfl⟩ := Option.map_eq_some_iff.mp hs
  refine ⟨db, hdb, ?_⟩
  cases a with
  | begin => exact .inl ⟨rfl, hfree rfl, rfl⟩
  | finish t =>
    simp only [report]
    split
    next hpc => exact .inr (.inl ⟨t, rfl, hpc, rfl⟩)
    next => exact .inr (.inr ⟨Act.noConfusion, rfl⟩)
  | _ => exact .inr (.inr ⟨Act.noConfusion, rfl⟩)

/-- The other steps leave the transactions alone. -/
theorem step_queue {c : CommitterAct} (hc : ∀ a, c ≠ .txn a) (hs : s.step logOf c = some s') :
    s'.db = s.db ∧ s'.enqueued = s.enqueued := by
  cases c with
  | txn a => exact absurd rfl (hc a)
  | pushBack i =>
    obtain ⟨csn, -, rfl⟩ := Option.map_eq_some_iff.mp hs
    exact ⟨rfl, rfl⟩
  | extend i =>
    cases hs
    exact ⟨rfl, rfl⟩
  | dequeue i upto =>
    obtain ⟨q, -, rfl⟩ := Option.map_eq_some_iff.mp hs
    exact ⟨rfl, rfl⟩

end Committers

/-! ### The CSNs that are enqueued -/

/-- Read-only transactions end where they began. -/
def ReaderInv (s : Db) : Prop :=
  ∀ t, (s.txn t).isSealed = true → (s.txn t).writeSet = [] → (s.txn t).endCsn = (s.txn t).beginCsn

theorem ReaderInv.update {s s' : Db} (h : ReaderInv s) {t : XID} {T : Txn}
    (htxn : s'.txn = Function.update s.txn t T)
    (hT : T.isSealed = true → T.writeSet = [] → T.endCsn = T.beginCsn) : ReaderInv s' := by
  intro u
  rw [htxn, update_apply]
  split
  · exact hT
  · exact h u

theorem ReaderInv.move {s s' : Db} (h : ReaderInv s) (hwf : ∀ t, (s.txn t).Wf) (m : Move s s') :
    ReaderInv s' := by
  cases m with
  | stay t T hpc hT _ =>
    refine h.update rfl fun hs hw => ?_
    rw [hT.endCsn, hT.beginCsn]
    exact h t (hT.isSealed ▸ hs) (hT.writeSet ▸ hw)
  | begin => exact h.update rfl fun hs => by cases hs
  | insert t w n _ hcall _ _ | install t w n _ _ hcall _ _ _ =>
    refine h.update rfl fun hs => ?_
    have := ((hwf t).of_canCall hcall).2.2
    rw [show ((s.txn t).firstWrite w n s.nextPtr).isSealed = (s.txn t).isSealed from rfl,
      this] at hs
    cases hs
  | overwrite t e o q hcall hq hcsn ho => exact h.update rfl (h t)
  | drawReadOnly t hpc hw => exact h.update rfl fun _ _ => rfl
  | draw t hpc hw => exact h.update rfl fun _ hnil => absurd hnil hw
  | stamp t w p d lb hpc hw hp => exact h.update rfl (h t)
  | unlink t w p hpc hw hp => exact h.update rfl (h t)

/-- What a log has enqueued is in order, and below the snapshot of the transaction
that uses the log, or will use it. -/
structure SortedInv (logOf : XID → ℕ) (s : Committers) : Prop where
  chain : ∃ ch, ChainInv s.db ch
  csn : CsnInv s.db
  reader : ReaderInv s.db
  sorted : ∀ i, (s.enqueued i).Pairwise (· ≤ ·)
  past : ∀ i, ∀ c ∈ s.enqueued i, c ≤ s.db.currentCsn - 1
  below : ∀ t, (s.db.txn t).pc ≠ .finished →
    ∀ c ∈ s.enqueued (logOf t), c ≤ (s.db.txn t).beginCsn - 1
  alone : ∀ t u, (s.db.txn t).pc ≠ .finished → (s.db.txn u).pc ≠ .finished → logOf t = logOf u →
    t = u

namespace SortedInv

open Committers

variable {logOf : XID → ℕ} {s s' : Committers}

theorem init (length : ℕ) : SortedInv logOf (.init length) where
  chain := ⟨_, chainInv_init⟩
  csn := csnInv_init
  reader _ h := by cases h
  sorted _ := .nil
  past _ _ h := by cases h
  below _ h := absurd rfl h
  alone _ _ h := absurd rfl h

/-- The CSN of a commit is at least the snapshot, or the one before it, and has been
taken. -/
theorem enqueuedCsn_bounds (h : SortedInv logOf s) {t : XID} (hpc : (s.db.txn t).pc = .committed) :
    (s.db.txn t).beginCsn - 1 ≤ (s.db.txn t).enqueuedCsn ∧
      (s.db.txn t).enqueuedCsn ≤ s.db.currentCsn - 1 := by
  obtain ⟨ch, hch⟩ := h.chain
  have hsealed : (s.db.txn t).isSealed = true := by
    have hwf := (hch.wf t).2
    rw [hpc] at hwf
    exact hwf.2.1
  have hbegin := h.csn.begin_le t
  by_cases hw : (s.db.txn t).writeSet = []
  · have hend := h.reader t hsealed hw
    have hcsn : (s.db.txn t).enqueuedCsn = (s.db.txn t).beginCsn - 1 := by
      rw [Txn.enqueuedCsn, hend]
      split
      next hzero =>
        have : (s.db.txn t).beginCsn = 0 := hzero.resolve_right (not_not.mpr hw)
        omega
      next => rfl
    omega
  · obtain ⟨hle, hlt⟩ := h.csn.end_lt hsealed hw
    have hcsn : (s.db.txn t).enqueuedCsn = (s.db.txn t).endCsn := if_pos (.inr hw)
    omega

/-- A step of a transaction on the side of the database. -/
theorem txn_step (h : SortedInv logOf s) {a : Act} {db : Db}
    (hdb : PreemptDB.step s.db a = some db) : (∃ ch, ChainInv db ch) ∧ CsnInv db ∧ ReaderInv db ∧
      s.db.currentCsn ≤ db.currentCsn ∧
      ∀ t < s.db.nextXid, (db.txn t).beginCsn = (s.db.txn t).beginCsn := by
  obtain ⟨ch, hch⟩ := h.chain
  have m := step_move hdb
  obtain ⟨ch', k⟩ := hch.move m
  exact ⟨⟨ch', k.chainInv⟩, k.csnInv h.csn, h.reader.move hch.wf m, k.grows.currentCsn,
    k.grows.beginCsn⟩

/-- A transaction that was not opened by this step was open before, with the same
snapshot. -/
theorem open_before (h : SortedInv logOf s) {a : Act} {db : Db}
    (hdb : PreemptDB.step s.db a = some db) (ha : a ≠ .begin) {t : XID}
    (hpc : (db.txn t).pc ≠ .finished) :
    (s.db.txn t).pc ≠ .finished ∧ (db.txn t).beginCsn = (s.db.txn t).beginCsn := by
  obtain ⟨ch, hch⟩ := h.chain
  have hopen : (s.db.txn t).pc ≠ .finished := fun hfin =>
    hpc (finished_step_of_ne_begin hdb hfin ha)
  exact ⟨hopen, (h.txn_step hdb).2.2.2.2 t (hch.lt_nextXid hopen)⟩

theorem begin (h : SortedInv logOf s) {db : Db} (hdb : PreemptDB.step s.db .begin = some db)
    (hfree : LogFree logOf s (logOf s.db.nextXid)) : SortedInv logOf { s with db := db } := by
  obtain ⟨hch', hcsn', hreader', hle, -⟩ := h.txn_step hdb
  obtain ⟨ch, hch⟩ := h.chain
  cases hdb
  -- the new transaction is alone on its log
  have hlog : ∀ u, (s.db.txn u).pc ≠ .finished → logOf u ≠ logOf s.db.nextXid := fun u hu heq =>
    hu (hfree.2 u (hch.lt_nextXid hu) heq)
  refine ⟨hch', hcsn', hreader', h.sorted, h.past, ?_, ?_⟩
  · intro t
    show (Function.update s.db.txn s.db.nextXid _ t).pc ≠ _ → ∀ c ∈ s.enqueued (logOf t),
      c ≤ (Function.update s.db.txn s.db.nextXid _ t).beginCsn - 1
    rw [update_apply]
    split
    next ht =>
      subst ht
      exact fun _ => h.past _
    next => exact h.below t
  · intro t u
    show (Function.update s.db.txn s.db.nextXid _ t).pc ≠ _ →
      (Function.update s.db.txn s.db.nextXid _ u).pc ≠ _ → _
    rw [update_apply, update_apply]
    split
    next ht =>
      split
      next hu => exact fun _ _ _ => ht.trans hu.symm
      next hu => exact fun _ hpc heq => absurd (ht ▸ heq).symm (hlog u hpc)
    next ht =>
      split
      next hu => exact fun hpc _ heq => absurd (hu ▸ heq) (hlog t hpc)
      next hu => exact h.alone t u

theorem finish (h : SortedInv logOf s) {db : Db} {t : XID}
    (hdb : PreemptDB.step s.db (.finish t) = some db) (hpc : (s.db.txn t).pc = .committed)
    (owed : ℕ → Option ℕ) :
    SortedInv logOf { s with
      db := db
      owed := owed
      enqueued := Function.update s.enqueued (logOf t)
        (s.enqueued (logOf t) ++ [(s.db.txn t).enqueuedCsn]) } := by
  obtain ⟨hch', hcsn', hreader', hle, -⟩ := h.txn_step hdb
  obtain ⟨hlow, hhigh⟩ := h.enqueuedCsn_bounds hpc
  have hopen : (s.db.txn t).pc ≠ .finished := by
    rw [hpc]
    exact Pc.noConfusion
  have hbelow := h.below t hopen
  have hfin : (db.txn t).pc = .finished := by
    simp only [PreemptDB.step] at hdb
    split_ifs at hdb
    cases hdb
    show (Function.update s.db.txn t _ t).pc = _
    rw [update_self]
  refine ⟨hch', hcsn', hreader', fun i => ?_, fun i => ?_, fun u hu => ?_, fun u v hu hv => ?_⟩
  · show (Function.update s.enqueued _ _ i).Pairwise _
    rw [update_apply]
    split
    next hi =>
      refine List.pairwise_append.mpr ⟨h.sorted _, List.pairwise_singleton _ _, ?_⟩
      intro c hc d hd
      obtain rfl := List.mem_singleton.mp hd
      exact (hbelow c hc).trans hlow
    next => exact h.sorted i
  · show ∀ c ∈ Function.update s.enqueued _ _ i, c ≤ db.currentCsn - 1
    intro c hc
    have hpast : c ∈ s.enqueued i ∨ c = (s.db.txn t).enqueuedCsn := by
      rw [update_apply] at hc
      split at hc
      next hi =>
        subst hi
        exact (List.mem_append.mp hc).imp_right List.mem_singleton.mp
      next => exact .inl hc
    rcases hpast with hc | rfl
    · have := h.past i c hc
      omega
    · omega
  · obtain ⟨hu', hbegin⟩ := h.open_before hdb Act.noConfusion hu
    show ∀ c ∈ Function.update s.enqueued _ _ (logOf u), c ≤ (db.txn u).beginCsn - 1
    have hne : logOf u ≠ logOf t := by
      intro heq
      obtain rfl := h.alone u t hu' hopen heq
      exact hu hfin
    rw [update_of_ne hne, hbegin]
    exact h.below u hu'
  · exact h.alone u v (h.open_before hdb Act.noConfusion hu).1
      (h.open_before hdb Act.noConfusion hv).1

theorem step (h : SortedInv logOf s) {c : CommitterAct} (hs : s.step logOf c = some s') :
    SortedInv logOf s' := by
  by_cases htxn : ∃ a, c = .txn a
  · obtain ⟨a, rfl⟩ := htxn
    obtain ⟨db, hdb, ⟨rfl, hfree, rfl⟩ | ⟨t, rfl, hpc, rfl⟩ | ⟨ha, rfl⟩⟩ := step_txn_cases hs
    · exact h.begin hdb hfree
    · exact h.finish hdb hpc _
    · obtain ⟨hch', hcsn', hreader', hle, -⟩ := h.txn_step hdb
      refine ⟨hch', hcsn', hreader', h.sorted, fun i c hc => ?_, fun t ht => ?_,
        fun t u ht hu => ?_⟩
      · exact (h.past i c hc).trans (Nat.sub_le_sub_right hle 1)
      · obtain ⟨ht', hbegin⟩ := h.open_before hdb ha ht
        show ∀ c ∈ s.enqueued (logOf t), c ≤ (db.txn t).beginCsn - 1
        rw [hbegin]
        exact h.below t ht'
      · exact h.alone t u (h.open_before hdb ha ht).1 (h.open_before hdb ha hu).1
  · obtain ⟨hdb, henq⟩ := step_queue (fun a ha => htxn ⟨a, ha⟩) hs
    constructor
    · rw [hdb]; exact h.chain
    · rw [hdb]; exact h.csn
    · rw [hdb]; exact h.reader
    · rw [henq]; exact h.sorted
    · rw [hdb, henq]; exact h.past
    · rw [hdb, henq]; exact h.below
    · rw [hdb]; exact h.alone

end SortedInv

/-! ### What the queues hold -/

/-- In a list in order, what comes before the first element above `upto` are all
elements that are not. -/
theorem takeWhile_le_of_sorted {l : List ℕ} (h : l.Pairwise (· ≤ ·)) (upto : ℕ) :
    l.takeWhile (· ≤ upto) = l.filter (· ≤ upto) ∧ ∀ c ∈ l.dropWhile (· ≤ upto), upto < c := by
  induction l with
  | nil => exact ⟨rfl, fun c hc => by cases hc⟩
  | cons d l ih =>
    obtain ⟨hd, hl⟩ := List.pairwise_cons.mp h
    by_cases hle : d ≤ upto
    · simpa [List.takeWhile_cons, List.dropWhile_cons, List.filter_cons, hle] using ih hl
    · have habove : ∀ c ∈ d :: l, upto < c := by
        intro c hc
        rcases List.mem_cons.mp hc with rfl | hc
        · omega
        · have := hd c hc
          omega
      have hnone : (d :: l).filter (· ≤ upto) = [] :=
        List.filter_eq_nil_iff.mpr fun c hc => by simpa using habove c hc
      rw [hnone, List.takeWhile_cons_of_neg (by simpa using hle),
        List.dropWhile_cons_of_neg (by simpa using hle)]
      exact ⟨rfl, habove⟩

/-- What was enqueued has been removed, is in the queue, or is about to go in. -/
structure QueueInv (logOf : XID → ℕ) (s : Committers) : Prop where
  valid : ∀ i, (s.queue i).Valid
  fifo : ∀ i, s.enqueued i = s.removed i ++ (s.queue i).entries ++ (s.owed i).toList
  free : ∀ t, (s.db.txn t).pc ≠ .finished → s.owed (logOf t) = none

/-- Queues are extended while they are not wrapped. -/
def ExtendOk (s : Committers) : CommitterAct → Prop
  | .extend i => (s.queue i).Unwrapped
  | _ => True

instance (s : Committers) : ∀ c, Decidable (ExtendOk s c)
  | .extend i => inferInstanceAs (Decidable (s.queue i).Unwrapped)
  | .txn _ | .pushBack _ | .dequeue _ _ => isTrue trivial

namespace QueueInv

open Committers

variable {logOf : XID → ℕ} {s s' : Committers}

theorem init {length : ℕ} (hpos : 0 < length) (hle : length ≤ 2 ^ 31) :
    QueueInv logOf (.init length) where
  valid _ := CommitQueue.valid_init hpos hle
  fifo _ := rfl
  free _ _ := rfl

/-- A call on the queue of log `i`. -/
theorem requeue (h : QueueInv logOf s) {i : ℕ} {q : CommitQueue} {o : Option ℕ} {l : List ℕ}
    (hv : q.Valid) (hq : s.removed i ++ (s.queue i).entries ++ (s.owed i).toList =
      l ++ q.entries ++ o.toList) (ho : s.owed i = none → o = none) :
    QueueInv logOf { s with
      queue := Function.update s.queue i q
      owed := Function.update s.owed i o
      removed := Function.update s.removed i l } := by
  refine ⟨fun j => ?_, fun j => ?_, fun t ht => ?_⟩
  · show (Function.update s.queue i q j).Valid
    rw [update_apply]
    split
    · exact hv
    · exact h.valid j
  · show s.enqueued j = Function.update s.removed i l j ++
      (Function.update s.queue i q j).entries ++ (Function.update s.owed i o j).toList
    by_cases hj : j = i
    · subst hj
      rw [update_self, update_self, update_self, h.fifo, hq]
    · rw [update_of_ne hj, update_of_ne hj, update_of_ne hj, h.fifo]
  · show Function.update s.owed i o (logOf t) = none
    rw [update_apply]
    split
    next ht' => exact ho (ht' ▸ h.free t ht)
    next => exact h.free t ht

theorem step (h : QueueInv logOf s) (hsort : SortedInv logOf s) {c : CommitterAct}
    (hok : ExtendOk s c) (hs : s.step logOf c = some s') : QueueInv logOf s' := by
  cases c with
  | txn a =>
    obtain ⟨db, hdb, ⟨rfl, hfree, rfl⟩ | ⟨t, rfl, hpc, rfl⟩ | ⟨ha, rfl⟩⟩ := step_txn_cases hs
    · refine ⟨h.valid, h.fifo, fun t ht => ?_⟩
      by_cases hnew : t = s.db.nextXid
      · rw [hnew]
        exact hfree.1
      · cases hdb
        refine h.free t fun hfin => ht ?_
        show (Function.update s.db.txn s.db.nextXid _ t).pc = _
        rw [update_of_ne hnew, hfin]
    · have hopen : (s.db.txn t).pc ≠ .finished := by
        rw [hpc]
        exact Pc.noConfusion
      refine ⟨h.valid, fun i => ?_, fun u hu => ?_⟩
      · show Function.update s.enqueued (logOf t) _ i = s.removed i ++ (s.queue i).entries ++
          (Function.update s.owed (logOf t) _ i).toList
        by_cases hi : i = logOf t
        · rw [hi, update_self, update_self, h.fifo, h.free t hopen]
          simp
        · rw [update_of_ne hi, update_of_ne hi, h.fifo]
      · obtain ⟨hu', -⟩ := hsort.open_before hdb Act.noConfusion hu
        -- an open transaction is alone on its log
        have hne : logOf u ≠ logOf t := by
          intro heq
          obtain rfl := hsort.alone u t hu' hopen heq
          simp only [PreemptDB.step] at hdb
          split_ifs at hdb
          cases hdb
          exact hu (by simp [Db.setTxn])
        show Function.update s.owed (logOf t) _ (logOf u) = none
        rw [update_of_ne hne]
        exact h.free u hu'
    · exact ⟨h.valid, h.fifo, fun t ht => h.free t (hsort.open_before hdb ha ht).1⟩
  | pushBack i =>
    obtain ⟨csn, hcsn, rfl⟩ := Option.map_eq_some_iff.mp hs
    obtain ⟨hv, -, hent⟩ := (h.valid i).pushBack csn ⟨false, true⟩
    have := h.requeue (i := i) (l := s.removed i)
      (o := if (s.queue i).stores ⟨false, true⟩ then none else some csn) hv ?_ ?_
    · rwa [update_eq_self] at this
    · rw [hent, hcsn]
      split <;> simp
    · intro hnone
      rw [hcsn] at hnone
      cases hnone
  | extend i =>
    cases hs
    obtain ⟨hv, -, hent⟩ := (h.valid i).extend hok
    have := h.requeue (i := i) (l := s.removed i) (o := s.owed i) hv (by rw [hent]) id
    rwa [update_eq_self, update_eq_self] at this
  | dequeue i upto =>
    obtain ⟨q, hq, rfl⟩ := Option.map_eq_some_iff.mp hs
    obtain ⟨q', hq', hv, -, -, hsplit, -⟩ := (h.valid i).dequeue upto
    rw [hq, Option.some_inj] at hq'
    subst hq'
    have := h.requeue (i := i) (l := s.removed i ++ (s.queue i).released upto)
      (o := s.owed i) hv ?_ id
    · rwa [update_eq_self] at this
    · rw [hsplit]
      simp only [List.append_assoc]

end QueueInv

/-- **The order of commit queues.**  In every run in which a log is used by one
transaction at a time, the CSNs that commits enqueue on a log are in order.  If
queues are extended only while they are not wrapped, the entries of a queue are
those of them that have not been removed, and the loop of
`dequeue_committed_xcts` releases exactly the entries that are durable. -/
theorem commit_order {logOf : XID → ℕ} {length : ℕ} {acts : List CommitterAct} {s : Committers}
    (hr : run (Committers.step logOf) (.init length) acts = some s) :
    (∀ i, (s.enqueued i).Pairwise (· ≤ ·)) ∧
    (0 < length → length ≤ 2 ^ 31 →
      Along (Committers.step logOf) ExtendOk (.init length) acts →
      ∀ i upto, s.enqueued i = s.removed i ++ (s.queue i).entries ++ (s.owed i).toList ∧
        (s.queue i).released upto = (s.queue i).entries.filter (· ≤ upto) ∧
        ∃ q, (s.queue i).dequeue upto = some q ∧ ∀ c ∈ q.entries, upto < c) := by
  have hsort : SortedInv logOf s :=
    run_invariant (I := SortedInv logOf) (fun hs h => h.step hs) hr (.init length)
  refine ⟨hsort.sorted, fun hpos hle hok i upto => ?_⟩
  have hqueue : QueueInv logOf s := by
    refine (run_invariant_along (I := fun s => QueueInv logOf s ∧ SortedInv logOf s) ?_ hok hr
      ⟨.init hpos hle, .init length⟩).1
    rintro s c s' hok hs ⟨hq, h⟩
    exact ⟨hq.step h hok hs, h.step hs⟩
  have hfifo := hqueue.fifo i
  have hord : (s.queue i).entries.Pairwise (· ≤ ·) := by
    refine (hsort.sorted i).sublist ?_
    rw [hfifo, List.append_assoc]
    exact (List.sublist_append_left _ _).trans (List.sublist_append_right _ _)
  obtain ⟨htake, hdrop⟩ := takeWhile_le_of_sorted hord upto
  obtain ⟨q, hq, -, -, -, -, hent⟩ := (hqueue.valid i).dequeue upto
  exact ⟨hfifo, htake, q, hq, fun c hc => hdrop c (hent ▸ hc)⟩

/-- Transaction `t` inserts a record and commits on log 0. -/
def insertAndCommit (t : XID) (oid : UInt32) : List CommitterAct :=
  .txn .begin :: .txn (.insert t ⟨1, oid⟩ []) :: (commitActs t).map .txn ++
    [.txn (.finish t), .pushBack 0]

/-- Transaction `t` commits without a write. -/
def readAndCommit (t : XID) : List CommitterAct :=
  [.txn .begin, .txn (.commit t), .txn (.drawCsn t), .txn (.publish t), .txn (.finish t),
    .pushBack 0]

/-- A writer, a reader and a writer; the first two leave, and the queue grows. -/
def mixedCommits : List CommitterAct :=
  insertAndCommit 0 1 ++ readAndCommit 1 ++ [.dequeue 0 0] ++ insertAndCommit 2 2 ++ [.extend 0]

theorem commit_order_mixed :
    ∃ s, run (Committers.step fun _ => 0) (.init 2) mixedCommits = some s ∧
      (s.enqueued 0).Pairwise (· ≤ ·) ∧ s.enqueued 0 = [0, 0, 1] ∧
      (s.queue 0).released 1 = (s.queue 0).entries.filter (· ≤ 1) := by
  have hok : Along (Committers.step fun _ => 0) ExtendOk (.init 2) mixedCommits := by
    decide +kernel
  have henq : (run (Committers.step fun _ => 0) (.init 2) mixedCommits).map (·.enqueued 0) =
      some [0, 0, 1] := by decide +kernel
  obtain ⟨s, hs, henq⟩ := Option.map_eq_some_iff.mp henq
  obtain ⟨hsort, hqueue⟩ := commit_order hs
  exact ⟨s, hs, hsort 0, henq, (hqueue (by decide) (by decide) hok 0 1).2.1⟩

/-- Four writers on a queue of two slots, of which only the first entry leaves; the
last `push_back` is tried eleven times. -/
def wrappedCommits : List CommitterAct :=
  insertAndCommit 0 1 ++ insertAndCommit 1 2 ++ [.dequeue 0 0] ++ insertAndCommit 2 3 ++
    insertAndCommit 3 4 ++ List.replicate 10 (.pushBack 0)

/-- Then the queue is extended, and the loop up to 1 also counts the slot that takes
the place of 2. -/
theorem extended_released_early :
    ∃ s, run (Committers.step fun _ => 0) (.init 2) (wrappedCommits ++ [.extend 0]) = some s ∧
      s.enqueued 0 = [0, 1, 2, 3] ∧ s.removed 0 = [0] ∧ s.owed 0 = some 3 ∧
      (s.queue 0).released 1 = [1, 0] ∧
      ∃ q, (s.queue 0).dequeue 1 = some q ∧ q.items = 0 := by
  have hrun : (run (Committers.step fun _ => 0) (.init 2) (wrappedCommits ++ [.extend 0])).map
      (fun s => (s.enqueued 0, s.removed 0, s.owed 0, (s.queue 0).released 1,
        ((s.queue 0).dequeue 1).map CommitQueue.items)) =
      some ([0, 1, 2, 3], [0], some 3, [1, 0], some 0) := by decide +kernel
  obtain ⟨s, hs, hview⟩ := Option.map_eq_some_iff.mp hrun
  simp only [Prod.mk.injEq] at hview
  obtain ⟨henq, hrem, howed, hrel, hdeq⟩ := hview
  obtain ⟨q, hq, hitems⟩ := Option.map_eq_some_iff.mp hdeq
  exact ⟨s, hs, henq, hrem, howed, hrel, q, hq, hitems⟩

end PreemptDB
