/-
Locks and the lock counter are used in scopes.

Whatever a function of the program does, it leaves `pcontext` and the owned
locks as it found them, and in between the counter never falls below its value
on entry (`Scoped`).  Scopes nest, so there is one rule for each command and
each way in which the source takes a lock; nothing is assumed about a run.

Most functions do not touch the transaction, so `Scoped` also says what is kept
of it: such a function keeps every property of the transaction.

* `Scoped` and its rules;
* `scoped_commit`, `scoped_abort` — what runs inside `Engine::Commit` and
  `Engine::Abort`.
-/
import PreemptDB.Preemption

namespace PreemptDB

open Command Command.Cmd

variable {cfg : WorkerConfig} {K : WorkerTxn → Prop} {c d : Prog} {l : Lock} {p q r : Pcontext}

/-- `q` is inside a scope that was entered with `p`. -/
def Pcontext.Inside (p q : Pcontext) : Prop :=
  p.lockCounter ≤ q.lockCounter ∧ q.uintr = p.uintr

theorem Pcontext.Inside.refl (p : Pcontext) : p.Inside p := ⟨le_rfl, rfl⟩

theorem Pcontext.Inside.trans (h : p.Inside q) (h' : q.Inside r) : p.Inside r :=
  ⟨h.1.trans h'.1, h'.2.trans h.2⟩

/-- `c` takes `pcontext` from `p` to `q`, stays inside the scope of `r`, and
keeps `K` of the transaction. -/
def Takes (cfg : WorkerConfig) (K : WorkerTxn → Prop) (r p : Pcontext) (c : Prog)
    (q : Pcontext) : Prop :=
  Triple (workerMachine cfg) (fun _ _ _ => True) (fun o => r.Inside o.pc ∧ K o.txn)
    (fun o => o.pc = p ∧ K o.txn) c (fun o => o.pc = q ∧ K o.txn)

/-- `c` gives back what it takes. -/
def Scoped (cfg : WorkerConfig) (K : WorkerTxn → Prop) (c : Prog) : Prop :=
  ∀ p, Keeps (workerMachine cfg) (fun _ _ _ => True) (fun o => p.Inside o.pc ∧ K o.txn)
    (fun o => o.pc = p ∧ K o.txn) c

theorem takes_prim {a : Op} (hp : r.Inside p) (hq : r.Inside q)
    (h : ∀ o g o' g', o.pc = p → a.exec o g = some (o', g') → o'.pc = q ∧ o'.txn = o.txn) :
    Takes cfg K r p (.prim a) q :=
  Triple.prim (fun _ e => ⟨e.1 ▸ hp, e.2⟩) (fun _ e => ⟨e.1 ▸ hq, e.2⟩) fun o g o' g' e _ he => by
    obtain ⟨hpc, htxn⟩ := h o g o' g' e.1 he
    exact ⟨hpc, htxn ▸ e.2⟩

theorem takes_lock (h : r.Inside p) :
    Takes cfg K r p (.prim .lock) { p with lockCounter := p.lockCounter + 1 } :=
  takes_prim h ⟨h.1.trans (Nat.le_succ _), h.2⟩ fun o g o' g' e he => by
    cases he
    exact ⟨by rw [e], rfl⟩

theorem takes_unlock (h : r.Inside p) :
    Takes cfg K r { p with lockCounter := p.lockCounter + 1 } (.prim .unlock) p :=
  takes_prim ⟨h.1.trans (Nat.le_succ _), h.2⟩ h fun o g o' g' e he => by
    cases he
    exact ⟨by rw [e, Nat.add_sub_cancel], rfl⟩

theorem takes_acquire (h : r.Inside p) :
    Takes cfg K r p (.prim (.acquire l)) { p with owned := l :: p.owned } :=
  takes_prim h h fun o g o' g' e he => by
    rw [Op.exec] at he
    split at he
    · cases he
    · cases he
      exact ⟨by rw [e], rfl⟩

theorem takes_release (h : r.Inside p) :
    Takes cfg K r { p with owned := l :: p.owned } (.prim (.release l)) p :=
  takes_prim h h fun o g o' g' e he => by
    cases he
    exact ⟨by rw [e, List.erase_cons_head], rfl⟩

/-- A scope may be entered anywhere inside another one. -/
theorem Scoped.inside (hc : Scoped cfg K c) (h : r.Inside p) : Takes cfg K r p c p :=
  (hc p).triple.mono (fun _ _ _ => id) (fun _ hi => ⟨h.trans hi.1, hi.2⟩) (fun _ => id) fun _ => id

namespace Scoped

theorem inside_of_eq (o : Own) (h : o.pc = p ∧ K o.txn) : p.Inside o.pc ∧ K o.txn :=
  ⟨h.1 ▸ Pcontext.Inside.refl _, h.2⟩

theorem of_takes (h : ∀ p, Takes cfg K p p c p) : Scoped cfg K c :=
  fun p => ⟨inside_of_eq, h p⟩

theorem skip : Scoped cfg K .skip := fun _ => Keeps.skip inside_of_eq

theorem mem {f : Regs → WorkerTxn → Shared → Option (Regs × Shared)} :
    Scoped cfg K (.prim (.mem f)) :=
  of_takes fun p => takes_prim (.refl p) (.refl p) fun o g o' g' e he => by
    obtain ⟨x, _, hx⟩ := Option.map_eq_some_iff.mp he
    cases hx
    exact ⟨e, rfl⟩

theorem initLog : Scoped cfg K (.prim .initLog) :=
  of_takes fun p => takes_prim (.refl p) (.refl p) fun o g o' g' e he => by
    cases he
    exact ⟨e, rfl⟩

theorem txn {f : Regs → WorkerTxn → Shared → Option WorkerTxn}
    (h : ∀ r t g t', f r t g = some t' → K t → K t') : Scoped cfg K (.prim (.txn f)) :=
  fun p => Keeps.prim inside_of_eq fun o g o' g' e _ he => by
    obtain ⟨t, ht, hx⟩ := Option.map_eq_some_iff.mp he
    cases hx
    exact ⟨e.1, h _ _ _ _ ht e.2⟩

/-- Any change of the transaction, if nothing is to be kept of it. -/
theorem anyTxn {f : Regs → WorkerTxn → Shared → Option WorkerTxn} :
    Scoped cfg (fun _ => True) (.prim (.txn f)) :=
  txn fun _ _ _ _ _ => id

theorem seq (hc : Scoped cfg K c) (hd : Scoped cfg K d) : Scoped cfg K (.seq c d) :=
  fun p => (hc p).seq (hd p)

theorem ite {b : Test} (hc : Scoped cfg K c) (hd : Scoped cfg K d) : Scoped cfg K (.ite b c d) :=
  fun p => (hc p).ite (hd p)

theorem loop {b : Test} (hc : Scoped cfg K c) : Scoped cfg K (.loop b c) := fun p => (hc p).loop

theorem pick {f : ℕ → Prog} (h : ∀ i, Scoped cfg K (f i)) : Scoped cfg K (.pick f) :=
  fun p => Keeps.pick fun i => h i p

theorem star (hc : Scoped cfg K c) : Scoped cfg K (.star c) := fun p => (hc p).star

theorem choice (hc : Scoped cfg K c) (hd : Scoped cfg K d) : Scoped cfg K (choice c d) :=
  pick fun i => by
    split
    · exact hc
    · exact hd

/-- The counter is one higher inside. -/
theorem locked (hc : Scoped cfg K c) : Scoped cfg K (locked c) := by
  refine of_takes fun p => ?_
  have hin := Pcontext.Inside.refl p
  exact Triple.seq (takes_lock hin)
    (Triple.seq (hc.inside ⟨Nat.le_succ _, rfl⟩) (takes_unlock hin))

theorem criticalSection (hc : Scoped cfg K c) : Scoped cfg K (criticalSection l c) := by
  refine of_takes fun p => ?_
  have hin := Pcontext.Inside.refl p
  exact Triple.seq (takes_acquire hin) (Triple.seq (hc.inside ⟨le_rfl, rfl⟩) (takes_release hin))

/-- The scopes of the counter and of the lock overlap, but both are left. -/
theorem lockGuard (hc : Scoped cfg K c) : Scoped cfg K (lockGuard l c) := by
  refine of_takes fun p => ?_
  have hin := Pcontext.Inside.refl p
  have hup : p.Inside { p with lockCounter := p.lockCounter + 1 } := ⟨Nat.le_succ _, rfl⟩
  have hheld : p.Inside { p with owned := l :: p.owned } := ⟨le_rfl, rfl⟩
  exact Triple.seq (takes_lock hin) (Triple.seq (takes_acquire hup)
    (Triple.seq (hc.inside ⟨Nat.le_succ _, rfl⟩)
      (Triple.seq (takes_unlock hheld) (takes_release hin))))

theorem deferUnlock (hc : Scoped cfg K c) : Scoped cfg K (deferUnlock l c) :=
  hc.criticalSection.locked

end Scoped

section EpochMgr

variable (m : EpochMgr)

theorem scoped_stragglerEnded : Scoped cfg K (stragglerEnded m) := .seq .mem (.ite .mem .skip)

theorem scoped_stragglerCheck (tmp : Regs → ℕ) : Scoped cfg K (stragglerCheck m tmp) :=
  .seq (.ite (.criticalSection .skip) .skip) (.ite (.seq .mem (scoped_stragglerEnded m)) .skip)

theorem scoped_newEpoch : Scoped cfg K (newEpoch m) := by
  refine .seq (.criticalSection (.ite ?_ .mem)) (.ite .mem .skip)
  exact .seq .mem (.seq .mem (.seq .mem (.seq .mem (.seq (.ite .mem .skip) (.seq .mem .mem)))))

theorem scoped_contextInit : Scoped cfg K (contextInit m) :=
  .seq .mem (.seq .mem (.criticalSection (.seq .mem .mem)))

theorem scoped_contextEnter : Scoped cfg K (contextEnter m) := by
  have hcheck : Scoped cfg K (stragglerCheck m Regs.tmp2) := scoped_stragglerCheck m _
  refine .seq .mem (.seq .mem (.seq .mem (.loop
    (.seq .mem (.seq .mem (.seq .mem (.seq .mem (.ite ?_ ?_))))))))
  · exact .seq .mem (.ite (.seq .mem (.seq .mem hcheck)) .skip)
  · exact .seq .mem (.ite hcheck .skip)

theorem scoped_contextExit : Scoped cfg K (contextExit m) := by
  have hcheck : Scoped cfg K (stragglerCheck m Regs.tmp) := scoped_stragglerCheck m _
  exact .seq .mem (.seq .mem (.seq .mem (.ite (.seq .mem (.ite .skip hcheck)) hcheck)))

end EpochMgr

theorem scoped_getLog : Scoped cfg K getLog :=
  .ite (.lockGuard (.seq (.lockGuard .skip) (.seq .initLog .mem))) .skip

theorem scoped_contextRevokeCaches : Scoped cfg K contextRevokeCaches :=
  .seq (.star (.pick fun _ => .deferUnlock .skip)) (.deferUnlock .skip)

theorem scoped_epochExit : Scoped cfg K epochExit :=
  .seq (.ite (.choice .skip (.ite (scoped_newEpoch .mm) .skip)) .skip) (scoped_contextExit .mm)

theorem scoped_allocateLogBlock : Scoped cfg K allocateLogBlock := .lockGuard .skip

theorem scoped_dequeueCommittedXcts : Scoped cfg K dequeueCommittedXcts :=
  .lockGuard (.star (.pick fun _ => .criticalSection .skip))

theorem scoped_pushBack : Scoped cfg K pushBack := .criticalSection (.pick fun _ => .mem)

theorem scoped_enqueueCommittedXct : Scoped cfg K (enqueueCommittedXct cfg) := by
  refine .seq .mem (.loop (.seq (.ite (.seq ?_ (.seq ?_ .mem)) .skip)
    (.seq scoped_pushBack (.seq (.ite (.seq scoped_pushBack .mem) .skip) .mem))))
  · exact .star (.pick fun _ => .ite (.lockGuard .skip) .skip)
  · split
    · exact .deferUnlock .skip
    · exact scoped_dequeueCommittedXcts

/-- `xid_free` comes last; all else leaves the transaction alone. -/
theorem scoped_uninitialize_of (h : Scoped cfg K xidFree) :
    Scoped cfg K <| uninitialize cfg := by
  refine .seq ?_ h
  split
  · exact .ite .skip scoped_epochExit
  · exact .skip

theorem scoped_forWriteSet (hc : Scoped cfg (fun _ => True) c) :
    Scoped cfg (fun _ => True) (forWriteSet c) :=
  .seq .anyTxn (.loop (.seq hc .anyTxn))

theorem scoped_siCommit : Scoped cfg (fun _ => True) siCommit := by
  refine .ite .anyTxn (.ite .anyTxn
    (.seq (.ite ?_ .anyTxn) (.seq (scoped_forWriteSet .anyTxn) .anyTxn)))
  exact .seq .mem (.seq .anyTxn scoped_allocateLogBlock)

theorem scoped_commit : Scoped cfg (fun _ => True) (commit cfg) := by
  refine .seq .anyTxn (.seq scoped_siCommit (.ite (.seq (scoped_uninitialize_of .anyTxn) ?_) .skip))
  split
  · exact .ite scoped_enqueueCommittedXct .skip
  · exact .skip

theorem scoped_abort : Scoped cfg (fun _ => True) abort :=
  .seq .anyTxn (scoped_forWriteSet (.seq .anyTxn .anyTxn))

end PreemptDB
