/-
Preemption and the locks of the main context.

`handler_helper` switches to the preemptive context only while the lock counter
is zero.  So the main context must not own a lock then: the preemptive context
runs on the same thread, and would wait for the lock forever.

The counter is raised around every lock but one.  `straggler_check` takes the
mutex of an epoch manager, and the constructor of a transaction reaches it with
the counter at zero, through `xid_alloc` and `MM::epoch_enter`
(`mutex_held_at_switch`).  In runs in which no such call finds an epoch change
in progress, the main context owns no lock when it is switched out
(`no_lock_at_switch`).

* `Exposed` — what may run with the counter at zero, and its rules;
* `exposed_runTransaction`, `guarded_myWork` — the program.
-/
import PreemptDB.LockScopes

namespace PreemptDB

open Command Command.Cmd StepRun

variable {cfg : WorkerConfig} {c d : Prog}

/-- When `straggler_check` is reached with the counter at zero and interrupts
on, the epoch change up to `tmp` is complete. -/
def EpochClosed : Op ⊕ Test → Own → Shared → Prop
  | .inr (.endBefore m tmp), o, g =>
    o.pc.lockCounter = 0 → o.pc.uintr = true → tmp o.regs ≤ (g.epochs m).endEpoch
  | _, _, _ => True

instance : ∀ h o g, Decidable (EpochClosed h o g)
  | .inr (.endBefore m tmp), o, g =>
    inferInstanceAs (Decidable (o.pc.lockCounter = 0 → o.pc.uintr = true →
      tmp o.regs ≤ (g.epochs m).endEpoch))
  | .inr .phantom, _, _ => isTrue trivial
  | .inr (.cond _), _, _ => isTrue trivial
  | .inl _, _, _ => isTrue trivial

/-- If an interrupt can be delivered and a lock is owned, the counter is raised. -/
def Guarded (o : Own) : Prop := o.pc.uintr = true → o.pc.owned ≠ [] → 0 < o.pc.lockCounter

/-- Between two calls: no lock is owned, and the log is there. -/
def Ready (o : Own) : Prop := (∃ u, o.pc = ⟨u, 0, []⟩) ∧ o.logInitialized = true

theorem Ready.guarded (o : Own) (h : Ready o) : Guarded o := by
  obtain ⟨⟨u, hu⟩, _⟩ := h
  intro _ hne
  rw [hu] at hne
  exact absurd rfl hne

/-- `c` may run with the counter at zero. -/
def Exposed (cfg : WorkerConfig) (c : Prog) : Prop :=
  Keeps (workerMachine cfg) EpochClosed Guarded Ready c

/-- The log stays initialized. -/
theorem keeps_logInitialized (c : Prog) :
    Keeps (workerMachine cfg) EpochClosed (fun _ => True) (fun o => o.logInitialized = true) c := by
  refine Keeps.of_exec (fun _ _ => trivial) ?_ c
  intro a o g o' g' ho _ he
  cases a with
  | lock => cases he; exact ho
  | unlock => cases he; exact ho
  | clui => cases he; exact ho
  | stui => cases he; exact ho
  | acquire l =>
    simp only [workerMachine, Op.exec] at he
    split at he
    · cases he
    · cases he; exact ho
  | release l => cases he; exact ho
  | initLog => cases he; rfl
  | mem _ | txn _ =>
    obtain ⟨x, _, hx⟩ := Option.map_eq_some_iff.mp he
    cases hx
    exact ho

/-- A scope that is entered with the counter up, or with interrupts off, is
guarded throughout. -/
theorem Scoped.guarded (hc : Scoped cfg (fun _ => True) c) {p : Pcontext}
    (hp : p.uintr = true → 0 < p.lockCounter) :
    Triple (workerMachine cfg) EpochClosed Guarded
      (fun o => o.pc = p ∧ o.logInitialized = true) c
      (fun o => o.pc = p ∧ o.logInitialized = true) := by
  have hscope := (hc p).triple.assume EpochClosed
  refine (hscope.and (keeps_logInitialized c).triple).mono (fun _ _ _ => id) ?_
    (fun o h => ⟨⟨h.1, trivial⟩, h.2⟩) (fun o h => ⟨h.1.1, h.2⟩)
  rintro o ⟨⟨⟨hle, hu⟩, _⟩, _⟩ huo _
  exact Nat.lt_of_lt_of_le (hp (hu ▸ huo)) hle

namespace Exposed

theorem skip : Exposed cfg .skip := Keeps.skip Ready.guarded

theorem mem {f : Regs → WorkerTxn → Shared → Option (Regs × Shared)} :
    Exposed cfg (.prim (.mem f)) :=
  Keeps.prim Ready.guarded fun o g o' g' ho _ he => by
    obtain ⟨x, _, hx⟩ := Option.map_eq_some_iff.mp he
    cases hx
    exact ho

theorem txn {f : Regs → WorkerTxn → Shared → Option WorkerTxn} : Exposed cfg (.prim (.txn f)) :=
  Keeps.prim Ready.guarded fun o g o' g' ho _ he => by
    obtain ⟨x, _, hx⟩ := Option.map_eq_some_iff.mp he
    cases hx
    exact ho

theorem seq (hc : Exposed cfg c) (hd : Exposed cfg d) : Exposed cfg (.seq c d) := Keeps.seq hc hd

theorem ite {b : Test} (hc : Exposed cfg c) (hd : Exposed cfg d) : Exposed cfg (.ite b c d) :=
  Keeps.ite hc hd

theorem loop {b : Test} (hc : Exposed cfg c) : Exposed cfg (.loop b c) := Keeps.loop hc

theorem pick {f : ℕ → Prog} (h : ∀ i, Exposed cfg (f i)) : Exposed cfg (.pick f) := Keeps.pick h

theorem star (hc : Exposed cfg c) : Exposed cfg (.star c) := Keeps.star hc

theorem choice (hc : Exposed cfg c) (hd : Exposed cfg d) : Exposed cfg (choice c d) :=
  pick fun i => by
    split
    · exact hc
    · exact hd

/-- With the counter raised, any scope is fine. -/
theorem locked (hc : Scoped cfg (fun _ => True) c) : Exposed cfg (locked c) := by
  have hin : ∀ u, Triple (workerMachine cfg) EpochClosed Guarded
      (fun o => o.pc = ⟨u, 1, []⟩ ∧ o.logInitialized = true) c
      (fun o => o.pc = ⟨u, 1, []⟩ ∧ o.logInitialized = true) :=
    fun u => hc.guarded fun _ => Nat.one_pos
  have hup : ∀ o, (∃ u, o.pc = ⟨u, 1, []⟩ ∧ o.logInitialized = true) → Guarded o := by
    rintro o ⟨u, hu, _⟩ _ _
    rw [hu]
    exact Nat.one_pos
  refine ⟨Ready.guarded, Triple.seq (R := fun o => ∃ u, o.pc = ⟨u, 1, []⟩ ∧ o.logInitialized = true)
    (Triple.prim Ready.guarded hup ?_)
    (Triple.seq (Triple.exists_pre fun u => (hin u).post fun o h => ⟨u, h⟩)
      (Triple.prim hup Ready.guarded ?_))⟩
  · rintro o g o' g' ⟨⟨u, hu⟩, hlog⟩ _ he
    cases he
    exact ⟨u, by rw [hu], hlog⟩
  · rintro o g o' g' ⟨u, hu, hlog⟩ _ he
    cases he
    exact ⟨⟨u, by simp [hu]⟩, hlog⟩

theorem deferUnlock {l : Lock} (hc : Scoped cfg (fun _ => True) c) :
    Exposed cfg (deferUnlock l c) :=
  locked hc.criticalSection

end Exposed

section EpochMgr

variable (m : EpochMgr)

/-- The mutex is taken with interrupts off, or not at all. -/
theorem exposed_stragglerCheck (tmp : Regs → ℕ) : Exposed cfg (stragglerCheck m tmp) := by
  refine .seq ⟨Ready.guarded, Triple.ite Ready.guarded ?_
    (Exposed.skip.triple.pre fun _ => And.left)⟩
    (.ite (.seq .mem (.seq .mem (.ite .mem .skip))) .skip)
  have hscope : Scoped cfg (fun _ => True) (criticalSection (.epochMutex m) .skip) :=
    .criticalSection .skip
  have hoff := hscope.guarded (p := ⟨false, 0, []⟩) nofun
  refine hoff.mono (fun _ _ _ => id) (fun _ => id) ?_ fun o h => ⟨⟨false, h.1⟩, h.2⟩
  rintro o ⟨⟨⟨u, hu⟩, hlog⟩, g, hclosed, htest⟩
  cases u with
  | false => exact ⟨hu, hlog⟩
  | true =>
    -- the assumption says the test failed
    have hle : tmp o.regs ≤ (g.epochs m).endEpoch := hclosed (by rw [hu]) (by rw [hu])
    have hlt : (g.epochs m).endEpoch < tmp o.regs := of_decide_eq_true htest
    omega

theorem exposed_contextEnter : Exposed cfg (contextEnter m) := by
  have hcheck : Exposed cfg (stragglerCheck m Regs.tmp2) := exposed_stragglerCheck m _
  refine .seq .mem (.seq .mem (.seq .mem (.loop
    (.seq .mem (.seq .mem (.seq .mem (.seq .mem (.ite ?_ ?_))))))))
  · exact .seq .mem (.ite (.seq .mem (.seq .mem hcheck)) .skip)
  · exact .seq .mem (.ite hcheck .skip)

theorem exposed_contextExit : Exposed cfg (contextExit m) := by
  have hcheck : Exposed cfg (stragglerCheck m Regs.tmp) := exposed_stragglerCheck m _
  exact .seq .mem (.seq .mem (.seq .mem (.ite (.seq .mem (.ite .skip hcheck)) hcheck)))

end EpochMgr

theorem exposed_xidAlloc : Exposed cfg xidAlloc := by
  refine .seq (.locked (.ite (scoped_contextInit .xid) .skip)) (.seq (.loop ?_) (.seq .txn .mem))
  refine .seq (exposed_contextEnter .xid)
    (.seq .mem (.seq .mem (.seq (.loop .mem) (.ite (.seq (exposed_contextExit .xid) ?_) ?_))))
  · exact .deferUnlock (.ite (.seq .mem (.seq .mem (.loop (scoped_newEpoch .xid)))) .skip)
  · exact .seq .mem (.seq (.pick fun _ => .mem) (exposed_contextExit .xid))

/-- A second call of `GetLog` does nothing. -/
theorem exposed_getLog : Exposed cfg getLog := by
  refine ⟨Ready.guarded, Triple.ite Ready.guarded ?_ (Exposed.skip.triple.pre fun _ => And.left)⟩
  rintro n o ⟨⟨_, hlog⟩, g, _, htest⟩
  have hnot : (!o.logInitialized) = true := htest
  rw [hlog] at hnot
  cases hnot

theorem exposed_newTransaction (readOnly cswitch : Bool) :
    Exposed cfg (newTransaction cfg readOnly cswitch) := by
  refine .seq .txn (.seq exposed_xidAlloc (.seq ?_ (.seq exposed_getLog .txn)))
  split
  · exact .seq (exposed_contextEnter .mm) .txn
  · exact .txn

theorem exposed_allocOid (f : ℕ) : Exposed cfg (allocOid f) := by
  have hrevoke : Exposed cfg contextRevokeCaches :=
    .seq (.star (.pick fun _ => .deferUnlock .skip)) (.deferUnlock .skip)
  have hcache : Exposed cfg contextCache :=
    .seq (.locked (.ite (.deferUnlock .mem) .skip)) (.choice .skip hrevoke)
  have halloc := hcache.seq (.choice .skip (.deferUnlock (l := fileMutex f) .skip))
  exact .seq halloc (.star halloc)

theorem exposed_createVersion : Exposed cfg createVersion := .seq .txn .txn

theorem exposed_insertOid (n : ℕ) : Exposed cfg (insertOid cfg n) := by
  refine .choice (.seq (.locked .mem) ?_) .skip
  split
  · exact .txn
  · exact .skip

theorem exposed_operation : Exposed cfg (operation cfg) := by
  refine .pick fun f => .pick fun o => .choice ?_ (.choice ?_ (.choice
    (.seq ?_ (exposed_insertOid o)) (exposed_insertOid o)))
  · exact .ite (.seq exposed_createVersion .txn)
      (.choice .skip (.seq exposed_createVersion (.seq .txn .txn)))
  · rw [doNodeRead]
    split
    · exact .txn
    · exact .skip
  · exact .seq exposed_createVersion (.seq (exposed_allocOid _) (.seq .txn .txn))

/-- Commit and abort run with the counter raised. -/
theorem exposed_runTransaction : Exposed cfg (runTransaction cfg) := by
  have habort : Exposed cfg (engineAbort cfg) :=
    .locked (.seq scoped_abort (scoped_uninitialize_of .anyTxn))
  exact .seq (.pick fun _ => exposed_newTransaction _ _) (.seq (.star exposed_operation)
    (.choice (.seq (.locked scoped_commit) (.ite habort .skip)) habort))

/-- The first call of `GetLog` initializes the log. -/
theorem getLog_initializes : Triple (workerMachine cfg) EpochClosed (fun _ => True)
    (fun _ => True) getLog (fun o => o.logInitialized = true) := by
  have hany : ∀ c : Prog, Triple (workerMachine cfg) EpochClosed (fun _ => True)
      (fun _ => True) c (fun _ => True) := fun c =>
    (Keeps.of_exec (fun _ => id) (fun _ _ _ _ _ _ _ _ => trivial) c).triple
  refine Triple.ite (fun _ => id) ?_ ?_
  · refine ((hany _).seq ((hany _).seq (Triple.seq ?_ (keeps_logInitialized _).triple))).pre
      fun _ _ => trivial
    refine (hany _).seq (Triple.seq (Triple.prim (fun _ => id) (fun _ _ => trivial) ?_)
      (keeps_logInitialized _).triple)
    intro o g o' g' _ _ he
    cases he
    rfl
  · refine (Triple.skip fun _ _ => trivial).pre ?_
    rintro o ⟨_, g, _, htest⟩
    have hnot : (!o.logInitialized) = false := htest
    simpa using hnot

/-- `MyWork` is guarded: while the log is set up, interrupts are off. -/
theorem guarded_myWork : Triple (workerMachine cfg) EpochClosed Guarded
    (fun o => o.pc = ⟨false, 0, []⟩) (myWork cfg) Ready := by
  have hlog : Triple (workerMachine cfg) EpochClosed Guarded
      (fun o => o.pc = ⟨false, 0, []⟩) getLog Ready := by
    have hscope : Scoped cfg (fun _ => True) getLog := scoped_getLog
    have h := ((hscope ⟨false, 0, []⟩).triple.assume EpochClosed).and getLog_initializes
    refine h.mono (fun _ _ _ => id) ?_ (fun o ho => ⟨⟨ho, trivial⟩, trivial⟩)
      fun o ho => ⟨⟨false, ho.1.1⟩, ho.2⟩
    rintro o ⟨⟨⟨_, hu⟩, _⟩, _⟩ huo
    rw [hu] at huo
    cases huo
  have hmask : ∀ {a : Op}, a = .stui ∨ a = .clui → Exposed cfg (.prim a) := by
    rintro a (rfl | rfl)
    all_goals
      refine Keeps.prim Ready.guarded ?_
      rintro o g o' g' ⟨⟨u, hu⟩, hl⟩ _ he
      cases he
      exact ⟨⟨_, by rw [hu]⟩, hl⟩
  have hwork : Exposed cfg (doWorkloadFunction cfg) :=
    .seq exposed_runTransaction (.star exposed_runTransaction)
  have hserve : Exposed cfg (choice .skip (choice (doWorkloadFunction cfg)
      (block [.prim .stui, doWorkloadFunction cfg]))) :=
    .choice .skip (.choice hwork (.seq (hmask (.inl rfl)) hwork))
  exact hlog.seq ((hmask (.inl rfl)).seq (.star (.seq (hmask (.inr rfl)) hserve))).triple

/-- **Preemption does not interrupt a lock holder**, in every run in which no
`straggler_check` with the counter at zero finds an epoch change in progress:
whenever the preemptive context runs, the main context owns no lock; and at
every step at which it owns one and an interrupt could be delivered, its counter
is positive. -/
theorem no_lock_at_switch {g : Shared} {acts : List WorkerAct} {s : Worker}
    (hok : Along (Worker.step cfg) (Worker.Meets EpochClosed) (Worker.start cfg g) acts)
    (hr : run (Worker.step cfg) (Worker.start cfg g) acts = some s) :
    (s.current = .preemptive → s.own.pc.owned = []) ∧
      (s.own.pc.uintr = true → s.own.pc.owned ≠ [] → 0 < s.own.pc.lockCounter) := by
  refine switched_of_myWork (J := fun o => o.pc.owned = []) guarded_myWork rfl ?_ hok hr
  intro o hguarded hu hzero
  by_contra hne
  exact absurd (hguarded hu hne) (by omega)

/-- Two epoch changes by another thread, the second one up to its write of `begin`. -/
def twoEpochs : List OtherAct :=
  [.acquire (.epochMutex .xid), .openEpoch .xid, .closeEpoch .xid, .release (.epochMutex .xid),
   .quiesce .xid, .acquire (.epochMutex .xid), .openEpoch .xid]

/-- The end of the second change. -/
def lastEpoch : List OtherAct := [.closeEpoch .xid, .release (.epochMutex .xid)]

/-- A worker without pipelined commit, phantom protection or its own allocator. -/
def plainConfig : WorkerConfig := ⟨false, false, false, false⟩

theorem no_lock_at_switch_closed :
    ∃ s, run (Worker.step plainConfig) (Worker.start plainConfig Shared.quiet)
        (enterXidEpoch ++ (twoEpochs ++ lastEpoch).map .others ++ mainSteps 12 ++ [.interrupt]) =
          some s ∧ s.current = .preemptive ∧ s.own.pc.owned = [] := by
  have hok : Along (Worker.step plainConfig) (Worker.Meets EpochClosed)
      (Worker.start plainConfig Shared.quiet)
      (enterXidEpoch ++ (twoEpochs ++ lastEpoch).map .others ++ mainSteps 12 ++ [.interrupt]) := by
    decide +kernel
  have hswitch : (run (Worker.step plainConfig) (Worker.start plainConfig Shared.quiet)
      (enterXidEpoch ++ (twoEpochs ++ lastEpoch).map .others ++ mainSteps 12 ++
        [.interrupt])).map Worker.current = some .preemptive := by
    decide +kernel
  obtain ⟨s, hs, hcur⟩ := Option.map_eq_some_iff.mp hswitch
  exact ⟨s, hs, hcur, (no_lock_at_switch hok hs).1 hcur⟩

/-- `context_enter` reads `begin`; two epochs pass, the second change not yet
complete; `straggler_check` waits for it on the mutex and gets it, with the
counter at zero.  An interrupt now switches away from the owner of the mutex. -/
theorem mutex_held_at_switch :
    ∃ s, run (Worker.step plainConfig) (Worker.start plainConfig Shared.quiet)
        (enterXidEpoch ++ twoEpochs.map .others ++ mainSteps 12 ++ lastEpoch.map .others ++
          [.main 0, .interrupt]) = some s ∧
      s.current = .preemptive ∧ s.own.pc.owned = [.epochMutex .xid] := by
  have hswitch : (run (Worker.step plainConfig) (Worker.start plainConfig Shared.quiet)
      (enterXidEpoch ++ twoEpochs.map .others ++ mainSteps 12 ++ lastEpoch.map .others ++
        [.main 0, .interrupt])).map (fun s => (s.current, s.own.pc.owned)) =
          some (.preemptive, [.epochMutex .xid]) := by
    decide +kernel
  obtain ⟨s, hs, he⟩ := Option.map_eq_some_iff.mp hswitch
  exact ⟨s, hs, congrArg Prod.fst he, congrArg Prod.snd he⟩

end PreemptDB
