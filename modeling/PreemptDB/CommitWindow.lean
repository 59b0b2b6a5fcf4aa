/-
Preemption and the transaction of the main context.

Others wait for a transaction in two cases: its state is `TXN_COMMITTING`, or a
version it has linked as a chain head carries a NULL CSN.  A transaction of the
preemptive context that waits for the one it has preempted waits forever, since
both run on one thread.

`Commit` and `Abort` keep the lock counter raised, so both cases are over when
they return, but for one path: if the phantom check fails, `commit` returns with
the state still `TXN_COMMITTING`, the counter goes back to zero, and only the
call of `Abort` that follows changes the state (`committing_at_switch`).  In runs
in which no phantom check fails, nobody waits (`no_wait_at_switch`).

* `WorkerTxn.Settled` — nobody waits for the transaction;
* `commit_settles`, `abort_settles` — both calls end in such a state;
* `steady_runTransaction`, `steady_myWork` — the program.
-/
import PreemptDB.LockScopes

namespace PreemptDB

open Command Command.Cmd StepRun

variable {cfg : WorkerConfig} {K K' K'' : WorkerTxn → Prop} {c d : Prog}

/-- The phantom check of `si_commit` passes. -/
def NoPhantom (cfg : WorkerConfig) : Op ⊕ Test → Own → Shared → Prop
  | .inr .phantom, o, g => Test.eval cfg .phantom o g = false
  | _, _, _ => True

instance : ∀ h o g, Decidable (NoPhantom cfg h o g)
  | .inr .phantom, o, g => inferInstanceAs (Decidable (Test.eval cfg .phantom o g = false))
  | .inr (.endBefore _ _), _, _ => isTrue trivial
  | .inr (.cond _), _, _ => isTrue trivial
  | .inl _, _, _ => isTrue trivial

/-- No linked version carries a NULL CSN. -/
def WorkerTxn.Clean (t : WorkerTxn) : Prop := ∀ v ∈ t.linked, v.2 ≠ .null

/-- Nobody waits for the transaction. -/
def WorkerTxn.Settled (t : WorkerTxn) : Prop := t.state ≠ .committing ∧ t.Clean

/-- If the handler would switch, nobody waits for the transaction. -/
def Unawaited (o : Own) : Prop := o.pc.lockCounter = 0 → o.txn.Settled

/-- `c` takes the transaction from `K` to `K'`; on the way anything may happen. -/
def TakesTxn (cfg : WorkerConfig) (K : WorkerTxn → Prop) (c : Prog) (K' : WorkerTxn → Prop) :
    Prop :=
  Triple (workerMachine cfg) (NoPhantom cfg) (fun _ => True) (fun o => K o.txn) c
    (fun o => K' o.txn)

theorem takesTxn_txn {f : Regs → WorkerTxn → Shared → Option WorkerTxn}
    (h : ∀ r t g t', f r t g = some t' → K t → K' t') : TakesTxn cfg K (.prim (.txn f)) K' :=
  Triple.prim (fun _ _ => trivial) (fun _ _ => trivial) fun o g o' g' ho _ he => by
    obtain ⟨t, ht, hx⟩ := Option.map_eq_some_iff.mp he
    cases hx
    exact h _ _ _ _ ht ho

theorem takesTxn_set {f : Regs → WorkerTxn → WorkerTxn} (h : ∀ r t, K t → K' (f r t)) :
    TakesTxn cfg K (setTxn f) K' :=
  takesTxn_txn fun r t g t' ht hk => by
    cases ht
    exact h r t hk

theorem TakesTxn.seq (hc : TakesTxn cfg K c K') (hd : TakesTxn cfg K' d K'') :
    TakesTxn cfg K (.seq c d) K'' :=
  Triple.seq hc hd

theorem Scoped.takesTxn (hc : Scoped cfg K c) : TakesTxn cfg K c K := by
  refine (Triple.exists_pre (P := fun p o => o.pc = p ∧ K o.txn) fun p =>
    ((hc p).triple.mono (fun _ _ _ _ => trivial) (fun _ _ => trivial) (fun _ => id)
      fun _ => And.right)).pre fun o ho => ⟨o.pc, rfl, ho⟩

/-- A loop over the write set whose body keeps `K`. -/
theorem takesTxn_forWriteSet (hidx : ∀ t i, K t → K { t with idx := i })
    (hc : TakesTxn cfg K c K) : TakesTxn cfg K (forWriteSet c) K := by
  refine Triple.seq (takesTxn_set fun _ t => hidx t 0) ?_
  refine (Triple.loop (fun _ _ => trivial) ?_).post fun _ => And.left
  exact (Triple.seq hc (takesTxn_set fun _ t => hidx t _)).pre fun _ => And.left

theorem WorkerTxn.Clean.setCsn {t : WorkerTxn} {x : CsnPtr} (h : t.Clean) (hx : x ≠ .null) :
    (t.setCsn x).Clean := by
  intro v hv
  obtain ⟨w, hw, rfl⟩ := List.mem_map.mp hv
  split
  · exact hx
  · exact h w hw

/-- `SetCSN(NULL)` touches the current entry only, and `UnlinkTuple` removes it. -/
theorem WorkerTxn.Clean.unlink {t : WorkerTxn} (h : t.Clean) :
    ((t.setCsn .null).unlinkTuple).Clean := by
  intro v hv
  obtain ⟨hmem, hne⟩ := List.mem_filter.mp hv
  obtain ⟨w, hw, hwv⟩ := List.mem_map.mp hmem
  split at hwv
  · next hcur =>
    cases hwv
    simp [WorkerTxn.setCsn, hcur] at hne
  · cases hwv
    exact h _ hw

/-- With the phantom check passed, `si_commit` publishes `TXN_CMMTD`. -/
theorem siCommit_settles : TakesTxn cfg WorkerTxn.Clean siCommit WorkerTxn.Settled := by
  have hpublish : TakesTxn cfg WorkerTxn.Clean
      (setTxn fun _ t => { t with state := .cmmtd, ret := true }) WorkerTxn.Settled :=
    takesTxn_set fun _ _ h => ⟨nofun, h⟩
  have hstamp : TakesTxn cfg WorkerTxn.Clean
      (forWriteSet (setTxn fun _ t => t.setCsn (.generate t.endCsn))) WorkerTxn.Clean :=
    takesTxn_forWriteSet (fun _ _ => id) (takesTxn_set fun _ _ h => h.setCsn nofun)
  have hblock : TakesTxn cfg WorkerTxn.Clean allocateLogBlock WorkerTxn.Clean :=
    scoped_allocateLogBlock.takesTxn
  have hdraw : TakesTxn cfg WorkerTxn.Clean (block [
      .prim (.mem fun r _ g =>
        some ({ r with csn := g.currentCsn }, { g with currentCsn := g.currentCsn + 1 })),
      setTxn fun r t => { t with endCsn := r.csn }, allocateLogBlock]) WorkerTxn.Clean :=
    Scoped.mem.takesTxn.seq (TakesTxn.seq (takesTxn_set fun _ _ => id) hblock)
  refine Triple.ite (fun _ _ => trivial) (hpublish.pre fun _ => And.left)
    (Triple.ite (fun _ _ => trivial) ?_ ?_)
  · -- the assumption says the test failed
    rintro n o ⟨_, g, hpass, htest⟩
    have hpass' : (workerMachine cfg).test .phantom o g = false := hpass
    rw [hpass'] at htest
    cases htest
  · have hprecommit : TakesTxn cfg WorkerTxn.Clean (.ite (onTxn fun t => !t.writeSet.isEmpty) _
        (setTxn fun _ t => { t with endCsn := t.beginCsn })) WorkerTxn.Clean :=
      Triple.ite (fun _ _ => trivial) (hdraw.pre fun _ => And.left)
        (Triple.pre (takesTxn_set fun _ _ => id) fun _ => And.left)
    exact (hprecommit.seq (hstamp.seq hpublish)).pre fun _ h => h.1.1

theorem scoped_xidFree : Scoped cfg WorkerTxn.Settled xidFree :=
  .txn fun _ _ _ _ h => by cases h; exact id

/-- A call of `commit` ends with a transaction nobody waits for. -/
theorem commit_settles : TakesTxn cfg WorkerTxn.Settled (commit cfg) WorkerTxn.Settled := by
  have hrest : Scoped cfg WorkerTxn.Settled
      (if cfg.pcommit then .ite (onTxn fun t => t.log) (enqueueCommittedXct cfg) .skip
        else .skip) := by
    split
    · exact .ite scoped_enqueueCommittedXct .skip
    · exact .skip
  have hend : Scoped cfg WorkerTxn.Settled (.ite (onTxn fun t => t.ret)
      (block [
        uninitialize cfg,
        if cfg.pcommit then .ite (onTxn fun t => t.log) (enqueueCommittedXct cfg) .skip
        else .skip])
      .skip) :=
    .ite (.seq (scoped_uninitialize_of scoped_xidFree) hrest) .skip
  refine TakesTxn.seq (takesTxn_txn ?_) (siCommit_settles.seq hend.takesTxn)
  intro r t g t' ht hs
  split at ht
  · cases ht
    exact hs.2
  · cases ht

/-- `Abort` unlinks every version it has marked dead. -/
theorem abort_settles :
    TakesTxn cfg WorkerTxn.Settled (block [abort, uninitialize cfg]) WorkerTxn.Settled := by
  have hunlink : TakesTxn cfg WorkerTxn.Settled
      (block [setTxn fun _ t => t.setCsn .null, setTxn fun _ t => t.unlinkTuple])
      WorkerTxn.Settled := by
    -- in between, what is to be unlinked may carry a NULL CSN
    have hmark : TakesTxn cfg WorkerTxn.Settled (setTxn fun _ t => t.setCsn .null)
        (fun t => t.unlinkTuple.Settled) := takesTxn_set fun _ t h => ⟨h.1, h.2.unlink⟩
    exact hmark.seq (takesTxn_set fun _ t h => h)
  have habort : TakesTxn cfg WorkerTxn.Settled abort WorkerTxn.Settled :=
    TakesTxn.seq (takesTxn_set fun _ t h => ⟨nofun, h.2⟩)
      (takesTxn_forWriteSet (fun _ _ => id) hunlink)
  exact habort.seq (scoped_uninitialize_of scoped_xidFree).takesTxn

/-- With the counter at zero on both sides and nobody waiting meanwhile, `c`
takes the transaction from `K` to `K'`. -/
def Phase (cfg : WorkerConfig) (K : WorkerTxn → Prop) (c : Prog) (K' : WorkerTxn → Prop) : Prop :=
  Triple (workerMachine cfg) (NoPhantom cfg) Unawaited
    (fun o => o.pc.lockCounter = 0 ∧ K o.txn) c (fun o => o.pc.lockCounter = 0 ∧ K' o.txn)

theorem Phase.seq (hc : Phase cfg K c K') (hd : Phase cfg K' d K'') : Phase cfg K (.seq c d) K'' :=
  Triple.seq hc hd

theorem phase_set {f : Regs → WorkerTxn → WorkerTxn} (hK : ∀ t, K t → t.Settled)
    (hK' : ∀ t, K' t → t.Settled) (h : ∀ r t, K t → K' (f r t)) : Phase cfg K (setTxn f) K' :=
  Triple.prim (fun o ho _ => hK o.txn ho.2) (fun o ho _ => hK' o.txn ho.2)
    fun o g o' g' ho _ he => by
      cases he
      exact ⟨ho.1, h _ _ ho.2⟩

theorem Scoped.phase (hK : ∀ t, K t → t.Settled) (hc : Scoped cfg K c) : Phase cfg K c K := by
  have hscope : ∀ p : { p : Pcontext // p.lockCounter = 0 },
      Triple (workerMachine cfg) (NoPhantom cfg) Unawaited (fun o => o.pc = p.1 ∧ K o.txn) c
        (fun o => o.pc.lockCounter = 0 ∧ K o.txn) := fun p =>
    (hc p.1).triple.mono (fun _ _ _ _ => trivial) (fun o h _ => hK o.txn h.2) (fun _ => id)
      fun o h => ⟨h.1 ▸ p.2, h.2⟩
  exact (Triple.exists_pre hscope).pre fun o ho => ⟨⟨o.pc, ho.1⟩, rfl, ho.2⟩

/-- `c` may run with the counter at zero: nobody waits for the transaction. -/
def Steady (cfg : WorkerConfig) (c : Prog) : Prop :=
  Keeps (workerMachine cfg) (NoPhantom cfg) Unawaited
    (fun o => o.pc.lockCounter = 0 ∧ o.txn.Settled) c

namespace Steady

theorem of_phase (h : Phase cfg WorkerTxn.Settled c WorkerTxn.Settled) : Steady cfg c :=
  ⟨fun _ ho _ => ho.2, h⟩

theorem of_scoped (hc : Scoped cfg WorkerTxn.Settled c) : Steady cfg c :=
  of_phase (hc.phase fun _ => id)

theorem skip : Steady cfg .skip := of_scoped .skip

theorem seq (hc : Steady cfg c) (hd : Steady cfg d) : Steady cfg (.seq c d) := Keeps.seq hc hd

theorem ite {b : Test} (hc : Steady cfg c) (hd : Steady cfg d) : Steady cfg (.ite b c d) :=
  Keeps.ite hc hd

theorem pick {f : ℕ → Prog} (h : ∀ i, Steady cfg (f i)) : Steady cfg (.pick f) := Keeps.pick h

theorem star (hc : Steady cfg c) : Steady cfg (.star c) := Keeps.star hc

theorem choice (hc : Steady cfg c) (hd : Steady cfg d) : Steady cfg (choice c d) :=
  pick fun i => by
    split
    · exact hc
    · exact hd

/-- With the counter raised, the transaction need not be settled in between. -/
theorem locked (hc : Scoped cfg (fun _ => True) c)
    (ht : TakesTxn cfg WorkerTxn.Settled c WorkerTxn.Settled) : Steady cfg (locked c) := by
  have hin : ∀ p : { p : Pcontext // p.lockCounter = 1 },
      Triple (workerMachine cfg) (NoPhantom cfg) Unawaited
        (fun o => o.pc = p.1 ∧ o.txn.Settled) c
        (fun o => o.pc.lockCounter = 1 ∧ o.txn.Settled) := by
    intro p
    have hscope := (hc p.1).triple.assume (NoPhantom cfg)
    refine (hscope.and ht).mono (fun _ _ _ => id) ?_ (fun o h => ⟨⟨h.1, trivial⟩, h.2⟩)
      fun o h => ⟨h.1.1 ▸ p.2, h.2⟩
    intro o h hzero
    have hle : p.1.lockCounter ≤ o.pc.lockCounter := h.1.1.1
    have hone := p.2
    omega
  have hup : ∀ o : Own, o.pc.lockCounter = 1 ∧ o.txn.Settled → Unawaited o := fun _ h _ => h.2
  have hdown : ∀ o : Own, o.pc.lockCounter = 0 ∧ o.txn.Settled → Unawaited o := fun _ h _ => h.2
  refine ⟨hdown, Triple.seq (R := fun o => o.pc.lockCounter = 1 ∧ o.txn.Settled)
    (Triple.prim hdown hup ?_) (Triple.seq ((Triple.exists_pre hin).pre
      fun o ho => ⟨⟨o.pc, ho.1⟩, rfl, ho.2⟩) (Triple.prim hup hdown ?_))⟩
  · intro o g o' g' ho _ he
    cases he
    exact ⟨by simp [ho.1], ho.2⟩
  · intro o g o' g' ho _ he
    cases he
    exact ⟨by simp [ho.1], ho.2⟩

end Steady

/-- A new transaction is active and has linked nothing. -/
theorem scoped_newTransaction (readOnly cswitch : Bool) :
    Scoped cfg WorkerTxn.Settled (newTransaction cfg readOnly cswitch) := by
  have hset : ∀ {f : Regs → WorkerTxn → WorkerTxn}, (∀ r t, t.Settled → (f r t).Settled) →
      Scoped cfg WorkerTxn.Settled (setTxn f) := fun h =>
    .txn fun r t _ _ ht => by cases ht; exact h r t
  have htake : Scoped cfg WorkerTxn.Settled takeOne := .seq (hset fun _ _ _ => ⟨nofun, nofun⟩) .mem
  have hopen : Scoped cfg WorkerTxn.Settled xidAlloc := by
    refine .seq (.locked (.ite (scoped_contextInit .xid) .skip)) (.seq (.loop ?_) htake)
    refine .seq (scoped_contextEnter .xid)
      (.seq .mem (.seq .mem (.seq (.loop .mem) (.ite (.seq (scoped_contextExit .xid) ?_) ?_))))
    · exact .deferUnlock (.ite (.seq .mem (.seq .mem (.loop (scoped_newEpoch .xid)))) .skip)
    · exact .seq .mem (.seq (.pick fun _ => .mem) (scoped_contextExit .xid))
  refine .seq (hset fun _ _ => id) (.seq hopen (.seq ?_ (.seq scoped_getLog ?_)))
  · split
    · exact .seq (scoped_contextEnter .mm) (hset fun _ _ => id)
    · exact hset fun _ _ => id
  · exact .txn fun _ _ _ _ ht => by cases ht; exact id

/-- The version under construction carries the transaction's XID. -/
def WorkerTxn.Stamped (t : WorkerTxn) : Prop := t.Settled ∧ t.obj ≠ .null

theorem phase_createVersion : Phase cfg WorkerTxn.Settled createVersion WorkerTxn.Stamped := by
  have hcreate : Phase cfg WorkerTxn.Settled (setTxn fun _ t => { t with obj := .null })
      WorkerTxn.Settled := phase_set (fun _ => id) (fun _ => id) fun _ _ => id
  exact hcreate.seq (phase_set (fun _ => id) (fun _ => And.left) fun _ _ h => ⟨h, nofun⟩)

/-- A version is linked only after its CSN is set. -/
theorem phase_link (e : Entry) :
    Phase cfg WorkerTxn.Stamped (setTxn fun _ t => t.link e) WorkerTxn.Settled := by
  refine phase_set (fun _ => And.left) (fun _ => id) fun _ t h => ⟨h.1.1, ?_⟩
  intro v hv
  rcases List.mem_cons.mp hv with rfl | hv
  · exact h.2
  · exact h.1.2 v (List.mem_of_mem_filter hv)

theorem phase_addToWriteSet (e : Entry) :
    Phase cfg WorkerTxn.Settled (addToWriteSet e) WorkerTxn.Settled :=
  phase_set (fun _ => id) (fun _ => id) fun _ _ => id

theorem scoped_allocOid (f : ℕ) : Scoped cfg K (allocOid f) := by
  have hcache : Scoped cfg K contextCache :=
    .seq (.locked (.ite (.deferUnlock .mem) .skip)) (.choice .skip scoped_contextRevokeCaches)
  have halloc := hcache.seq (.choice .skip (.deferUnlock (l := fileMutex f) .skip))
  exact .seq halloc (.star halloc)

theorem steady_insertOid (n : ℕ) : Steady cfg (insertOid cfg n) := by
  refine .choice (.of_scoped (.seq (.locked .mem) ?_)) .skip
  split
  · exact .txn fun _ _ _ _ ht => by cases ht; exact id
  · exact .skip

theorem steady_operation : Steady cfg (operation cfg) := by
  refine .pick fun f => .pick fun o => .choice ?_ (.choice ?_ (.choice
    (.seq ?_ (steady_insertOid o)) (steady_insertOid o)))
  · exact .ite (.of_phase (phase_createVersion.seq (phase_link _))) (.choice .skip (.of_phase
      (phase_createVersion.seq ((phase_link _).seq (phase_addToWriteSet _)))))
  · rw [doNodeRead]
    split
    · refine .of_scoped (.txn fun _ _ _ _ ht => ?_)
      split at ht <;> cases ht <;> exact id
    · exact .skip
  · exact .of_phase (phase_createVersion.seq
      (((scoped_allocOid _).phase fun _ => And.left).seq
        ((phase_link _).seq (phase_addToWriteSet _))))

theorem steady_runTransaction : Steady cfg (runTransaction cfg) := by
  have hcommit : Steady cfg (engineCommit cfg) := .locked scoped_commit commit_settles
  have habort : Steady cfg (engineAbort cfg) :=
    .locked (.seq scoped_abort (scoped_uninitialize_of .anyTxn)) abort_settles
  exact .seq (.pick fun _ => .of_scoped (scoped_newTransaction _ _)) (.seq (.star steady_operation)
    (.choice (.seq hcommit (.ite habort .skip)) habort))

theorem steady_myWork : Steady cfg (myWork cfg) := by
  have hmask : ∀ {a : Op}, a = .stui ∨ a = .clui → Steady cfg (.prim a) := by
    rintro a (rfl | rfl)
    all_goals
      refine Keeps.prim (fun _ ho _ => ho.2) ?_
      intro o g o' g' ho _ he
      cases he
      exact ho
  have hwork : Steady cfg (doWorkloadFunction cfg) :=
    .seq steady_runTransaction (.star steady_runTransaction)
  exact .seq (.of_scoped scoped_getLog) (.seq (hmask (.inl rfl)) (.star (.seq (hmask (.inr rfl))
    (.choice .skip (.choice hwork (.seq (hmask (.inl rfl)) hwork))))))

/-- **A preempting transaction does not wait for the one it preempted**, in every
run in which no phantom check fails: whenever the preemptive context runs, the
state of the main context's transaction is not `TXN_COMMITTING`, and none of the
versions it has linked as chain heads carries a NULL CSN. -/
theorem no_wait_at_switch {g : Shared} {acts : List WorkerAct} {s : Worker}
    (hok : Along (Worker.step cfg) (Worker.Meets (NoPhantom cfg)) (Worker.start cfg g) acts)
    (hr : run (Worker.step cfg) (Worker.start cfg g) acts = some s)
    (hswitch : s.current = .preemptive) :
    s.own.txn.state ≠ .committing ∧ ∀ v ∈ s.own.txn.linked, v.2 ≠ .null := by
  have hrun := switched_of_myWork (J := fun o => o.txn.Settled) steady_myWork.triple
    ⟨rfl, nofun, nofun⟩ (fun o h _ hzero => h hzero) hok hr
  exact hrun.1 hswitch

/-- A worker with phantom protection. -/
def phantomConfig : WorkerConfig := ⟨true, false, false, false⟩

/-- A transaction that has read leaf 7 without finding its key, and has updated a
record. -/
def readAndUpdate : List WorkerAct :=
  enterXidEpoch ++ mainSteps 26 ++ [.main 5] ++ mainSteps 25 ++
    [.main 1, .main 1, .main 7, .main 1, .main 0] ++ mainSteps 2 ++
    [.main 1, .main 1, .main 7, .main 0, .main 0, .main 1] ++ mainSteps 9

/-- An interrupt inside `Commit` is ignored; the next one finds a committed
transaction. -/
theorem no_wait_at_switch_committed :
    ∃ s, run (Worker.step phantomConfig) (Worker.start phantomConfig Shared.quiet)
        (readAndUpdate ++ mainSteps 10 ++ [.interrupt] ++ mainSteps 29 ++ [.interrupt]) = some s ∧
      s.current = .preemptive ∧ s.own.txn.state ≠ .committing ∧
        ∀ v ∈ s.own.txn.linked, v.2 ≠ .null := by
  have hok : Along (Worker.step phantomConfig) (Worker.Meets (NoPhantom phantomConfig))
      (Worker.start phantomConfig Shared.quiet)
      (readAndUpdate ++ mainSteps 10 ++ [.interrupt] ++ mainSteps 29 ++ [.interrupt]) := by
    decide +kernel
  have hswitch : (run (Worker.step phantomConfig) (Worker.start phantomConfig Shared.quiet)
      (readAndUpdate ++ mainSteps 10 ++ [.interrupt] ++ mainSteps 29 ++ [.interrupt])).map
        Worker.current = some .preemptive := by
    decide +kernel
  obtain ⟨s, hs, hcur⟩ := Option.map_eq_some_iff.mp hswitch
  exact ⟨s, hs, hcur, no_wait_at_switch hok hs hcur⟩

/-- Another transaction inserts into leaf 7, so the phantom check fails and
`Commit` returns an abort code.  An interrupt before the call of `Abort` leaves
the updated record with a transaction that is committing for as long as the
preemptive context runs. -/
theorem committing_at_switch :
    ∃ s, run (Worker.step phantomConfig) (Worker.start phantomConfig Shared.quiet)
        (readAndUpdate ++ [.others (.insertNode 7)] ++ mainSteps 13 ++ [.interrupt]) = some s ∧
      s.current = .preemptive ∧ s.own.txn.state = .committing ∧
        s.own.txn.linked = [(⟨1, 7⟩, .xid s.own.txn.xid)] := by
  have hswitch : (run (Worker.step phantomConfig) (Worker.start phantomConfig Shared.quiet)
      (readAndUpdate ++ [.others (.insertNode 7)] ++ mainSteps 13 ++ [.interrupt])).map
        (fun s => (s.current, s.own.txn.state,
          decide (s.own.txn.linked = [(⟨1, 7⟩, .xid s.own.txn.xid)]))) =
        some (.preemptive, .committing, true) := by
    decide +kernel
  obtain ⟨s, hs, he⟩ := Option.map_eq_some_iff.mp hswitch
  simp only [Prod.mk.injEq, decide_eq_true_eq] at he
  exact ⟨s, hs, he⟩

end PreemptDB
