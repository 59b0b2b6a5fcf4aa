/-
What a step of the epoch manager can change.

A user of the manager relies on little: the threads that do not move stay where
they are, a registered context stays registered until its own `context_fini`, and
the epoch moves by one, and only in `new_epoch` or when no context is left.

* `Duty` — the call of a thread that can change epochs or contexts;
* `Effect` — what a step changes;
* `Inv.effect`, `called` — every step has such an effect, and every call has less.
-/
import PreemptDB.EpochRun

namespace PreemptDB

open Function

namespace Epoch

variable {ι : Type*} {i j : ι} {s s' : State ι} {ph : Phase ι} {fl : ℕ}

/-- The calls that change the set of contexts or the epoch. -/
inductive Duty
  | init
  | fini
  | new
  deriving DecidableEq

/-- A helper function that returns to `context_fini` belongs to it. -/
def Cont.duty : Cont → Option Duty
  | .fini => some .fini
  | _ => none

/-- The call in which a thread is, if it is one of these. -/
def Pc.duty : Pc ι → Option Duty
  | .initLock | .initInsert | .initUnlock => some .init
  | .finiLock | .finiErase | .finiRead | .finiEnd _ | .finiBegin _ | .finiCookie _ | .finiSwap _
  | .finiStore _ _ | .finiUnlock _ | .finiReclaim _ | .finiCall _ _ => some .fini
  | .newLock | .newReady | .newRead | .newBegin _ | .newUnready _ | .newEnded _ | .newScan _ _ _ _
  | .newScanEnd _ _ _ _ _ _ | .newCooling _ _ _ | .newCold _ _ _ _ | .newCookie _ _ _
  | .newCount _ _ | .newFlag _ _ | .newEnd _ _ | .newUnlock _ _ => some .new
  | .checkEnd _ k | .checkLock k | .checkUnlock k | .checkFlag k | .checkClear k | .ended k
  | .quiesceSwap k | .quiesceStore _ k | .reclaimed _ k | .quiesceReady k
  | .exitRead k | .exitEnd _ k | .exitCheck k => k.duty
  | _ => none

/-- The step of a thread, for a user of the manager. -/
structure Effect (i : ι) (s s' : State ι) : Prop where
  pc : ∀ j, j ≠ i → s'.pc j = s.pc j
  region : ∀ j, j ≠ i → s'.region j = s.region j
  duty : (s'.pc i).duty = (s.pc i).duty ∨ (s'.pc i).duty = none
  mem : ∀ j, j ∈ s.contexts → j ∈ s'.contexts ∨ j = i ∧ (s.pc i).duty = some .fini
  epoch : s'.beginEpoch = s.beginEpoch ∨
    s'.beginEpoch = s.beginEpoch + 1 ∧ ((s.pc i).duty = some .new ∨ s.contexts = ∅)

theorem Effect.le (h : Effect i s s') : s.beginEpoch ≤ s'.beginEpoch := by
  rcases h.epoch with heq | ⟨heq, -⟩ <;> omega

/-- The part of a call that changes contexts or epochs. -/
def Call.duty : Call → Option Duty
  | .init => some .init
  | .fini => some .fini
  | .newEpoch => some .new
  | .enter | .exit | .quiesce => none

/-- A call only moves the caller, out of its region perhaps. -/
structure Called (i : ι) (f : Call) (s s' : State ι) : Prop where
  pc : ∀ j, j ≠ i → s'.pc j = s.pc j
  region : ∀ j, j ≠ i → s'.region j = s.region j
  duty : (s'.pc i).duty = f.duty
  contexts : s'.contexts = s.contexts
  epoch : s'.beginEpoch = s.beginEpoch
  mem : f ≠ .init → i ∈ s.contexts

section Steps

variable [DecidableEq ι]

/-- The thread writes something else and goes on. -/
theorem Effect.goto {t : State ι} {q p : Pc ι} (hq : s.pc i = q) (hpc : t.pc = s.pc)
    (hr : ∀ j, j ≠ i → t.region j = s.region j) (hc : t.contexts = s.contexts)
    (hb : t.beginEpoch = s.beginEpoch) (hd : p.duty = q.duty ∨ p.duty = none) :
    Effect i s (t.goto i p) := by
  refine ⟨fun j hj => ?_, hr, ?_, fun _ hj => .inl (hc ▸ hj), .inl hb⟩
  · exact (update_of_ne hj _ _).trans (congrFun hpc j)
  · rw [State.goto_pc, hq]
    exact hd

theorem Effect.resume {t : State ι} {q : Pc ι} {k : Cont} (hq : s.pc i = q) (hpc : t.pc = s.pc)
    (hr : ∀ j, j ≠ i → t.region j = s.region j) (hc : t.contexts = s.contexts)
    (hb : t.beginEpoch = s.beginEpoch) (hd : q.duty = k.duty) : Effect i s (t.resume i k) := by
  cases k with
  | retry | done => exact .goto hq hpc hr hc hb (.inr rfl)
  | fini => exact .goto hq hpc hr hc hb (.inl hd.symm)
  | moved =>
    refine .goto hq hpc (fun j hj => ?_) hc hb (.inr rfl)
    exact (update_of_ne hj _ _).trans (hr j hj)

/-- The plain case: only the program counter and the thread's own fields. -/
theorem Effect.write {t : State ι} {q p : Pc ι} (hq : s.pc i = q) (hpc : t.pc = s.pc)
    (hr : t.region = s.region) (hc : t.contexts = s.contexts) (hb : t.beginEpoch = s.beginEpoch)
    (hd : p.duty = q.duty ∨ p.duty = none) : Effect i s (t.goto i p) :=
  .goto hq hpc (fun j _ => congrFun hr j) hc hb hd

theorem Effect.lock {q p : Pc ι} (hq : s.pc i = q) (hd : p.duty = q.duty)
    (hs : s.lock i p = some s') : Effect i s s' := by
  obtain ⟨-, hs⟩ := Option.ite_none_right_eq_some.mp hs
  cases hs
  exact .write hq rfl rfl rfl rfl (.inl hd)

theorem Effect.stepContext (hs : s.stepContext i (s.pc i) = some s') : Effect i s s' := by
  generalize hq : s.pc i = q at hs
  cases q with
  | enterRead | enterEnd _ | enterBegin _ | moveClear | moveEnd | moveRead | moveBegin _
  | checkUnlock _ | checkClear _ | quiesceSwap _ | reclaimed _ _ | exitRead _ =>
    cases hs
    exact .write hq rfl rfl rfl rfl (.inl rfl)
  | enterCheck tmp =>
    rw [State.stepContext] at hs
    split at hs <;> cases hs <;> exact .write hq rfl rfl rfl rfl (.inl rfl)
  | enterLate tmp2 check =>
    cases hs
    cases check <;> exact .write hq rfl rfl rfl rfl (.inl rfl)
  | enterFlag tmp tmp2 =>
    rw [State.stepContext] at hs
    by_cases hflag : (s.ctx i).straggler = true
    · rw [if_pos hflag] at hs
      cases hs
      exact .write hq rfl rfl rfl rfl (.inl rfl)
    · rw [if_neg hflag] at hs
      cases hs
      exact .goto hq rfl (fun j hj => update_of_ne hj _ _) rfl rfl (.inl rfl)
  | checkEnd _ _ | exitEnd _ _ =>
    cases hs
    refine .write hq rfl rfl rfl rfl (.inl ?_)
    split <;> rfl
  | checkLock k =>
    exact Effect.lock hq (p := .checkUnlock k) rfl hs
  | checkFlag k =>
    rw [State.stepContext] at hs
    by_cases hflag : (s.ctx i).straggler = true
    · rw [if_pos hflag] at hs
      cases hs
      exact .write hq rfl rfl rfl rfl (.inl rfl)
    · rw [if_neg hflag] at hs
      cases hs
      exact .resume hq rfl (fun _ _ => rfl) rfl rfl rfl
  | ended k =>
    cases hs
    by_cases hz : s.nstragglers - 1 = 0
    · simp only [if_pos hz]
      exact .write hq rfl rfl rfl rfl (.inl rfl)
    · simp only [if_neg hz]
      exact .resume hq rfl (fun _ _ => rfl) rfl rfl rfl
  | quiesceStore cookie k =>
    cases hs
    cases cookie <;> exact .write hq rfl rfl rfl rfl (.inl rfl)
  | quiesceReady k =>
    cases hs
    exact .resume hq rfl (fun _ _ => rfl) rfl rfl rfl
  | exitCheck k =>
    cases hs
    by_cases hlt : s.endEpoch < (s.ctx i).beginEpoch + 2
    · simp only [if_pos hlt]
      exact .resume hq rfl (fun _ _ => rfl) rfl rfl rfl
    · simp only [if_neg hlt]
      exact .write hq rfl rfl rfl rfl (.inl rfl)
  | _ =>
    cases hs

theorem Inv.effect_registry (h : Inv s ph fl) {cookie : Bool}
    (hs : s.stepRegistry i cookie (s.pc i) = some s') : Effect i s s' := by
  have hrole := (h.thread i).role
  generalize hq : s.pc i = q at hs hrole
  cases q with
  | initLock =>
    exact Effect.lock hq (p := .initInsert) rfl hs
  | initInsert =>
    cases hs
    refine ⟨fun j hj => update_of_ne hj _ _, fun _ _ => rfl, .inl ?_, fun j hj => ?_,
      .inl rfl⟩
    · rw [State.goto_pc, hq]; rfl
    · exact .inl (Finset.mem_insert_of_mem hj)
  | initUnlock | finiRead | finiEnd _ | finiCookie _ | finiSwap _ | finiStore _ _ | finiUnlock _
  | finiCall _ _ =>
    cases hs
    exact .write hq rfl rfl rfl rfl (by first | exact .inl rfl | exact .inr rfl)
  | finiLock =>
    exact Effect.lock hq (p := .finiErase) rfl hs
  | finiErase =>
    cases hs
    refine ⟨fun j hj => update_of_ne hj _ _, fun _ _ => rfl, .inl ?_, fun j hj => ?_,
      .inl rfl⟩
    · rw [State.goto_pc, hq]
      split <;> rfl
    · by_cases hji : j = i
      · exact .inr ⟨hji, by rw [hq]; rfl⟩
      · exact .inl (Finset.mem_erase.mpr ⟨hji, hj⟩)
  | finiBegin n =>
    cases hs
    obtain ⟨hempty, hn⟩ : s.contexts = ∅ ∧ n = s.beginEpoch := hrole
    refine ⟨fun j hj => update_of_ne hj _ _, fun _ _ => rfl, .inl ?_, fun _ => .inl,
      .inr ⟨congrArg (· + 1) hn, .inr hempty⟩⟩
    rw [State.goto_pc, hq]; rfl
  | finiReclaim cookies =>
    cases cookies with
    | nil =>
      cases hs
      exact .write hq rfl rfl rfl rfl (.inr rfl)
    | cons n cookies =>
      cases hs
      exact .write hq rfl rfl rfl rfl (.inl rfl)
  | _ =>
    cases hs

theorem Inv.effect_new (h : Inv s ph fl) {pick : ι} {cookie : Bool}
    (hs : s.stepNew i pick cookie (s.pc i) = some s') : Effect i s s' := by
  have hrole := (h.thread i).role
  generalize hq : s.pc i = q at hs hrole
  cases q with
  | newLock =>
    exact Effect.lock hq (p := .newReady) rfl hs
  | newReady =>
    cases hs
    refine .write hq rfl rfl rfl rfl (.inl ?_)
    split <;> rfl
  | newRead | newUnready _ | newEnded _ | newScanEnd _ _ _ _ _ _ | newCooling _ _ _
  | newCold _ _ _ _ | newCookie _ _ _ | newEnd _ _ =>
    cases hs
    exact .write hq rfl rfl rfl rfl (.inl rfl)
  | newBegin n =>
    cases hs
    obtain ⟨-, -, hn⟩ : i ∈ s.contexts ∧ ph = .calm ∧ n = s.beginEpoch := hrole
    refine ⟨fun j hj => update_of_ne hj _ _, fun _ _ => rfl, .inl ?_, fun _ => .inl,
      .inr ⟨congrArg (· + 1) hn, .inl (by rw [hq]; rfl)⟩⟩
    rw [State.goto_pc, hq]; rfl
  | newScan _ _ todo _ | newFlag _ todo =>
    rw [State.stepNew] at hs
    by_cases hempty : todo = ∅
    · rw [if_pos hempty] at hs
      cases hs
      exact .write hq rfl rfl rfl rfl (.inl rfl)
    · rw [if_neg hempty] at hs
      obtain ⟨-, hs⟩ := Option.ite_none_right_eq_some.mp hs
      cases hs
      exact .write hq rfl rfl rfl rfl (.inl rfl)
  | newCount n found =>
    rw [State.stepNew] at hs
    split at hs <;> cases hs <;> exact .write hq rfl rfl rfl rfl (.inl rfl)
  | newUnlock ok direct =>
    cases hs
    refine .write hq rfl rfl rfl rfl (.inr ?_)
    cases direct <;> rfl
  | _ =>
    cases hs

/-- Every step of the manager has such an effect. -/
theorem Inv.effect (h : Inv s ph fl) {pick : ι} {cookie : Bool}
    (hs : s.step (.step i pick cookie) = some s') : Effect i s s' := by
  rcases Option.or_eq_some_iff.mp hs with hs | ⟨-, hs⟩
  · exact .stepContext hs
  · rcases Option.or_eq_some_iff.mp hs with hs | ⟨-, hs⟩
    · exact h.effect_registry hs
    · exact h.effect_new hs

theorem State.step_call {f : Call} (hs : s.step (.call i f) = some s') :
    s.pc i = .idle ∧ s.call i f = some s' := by
  rw [State.step] at hs
  generalize hq : s.pc i = q at hs
  cases q with
  | idle =>
    exact ⟨rfl, hs⟩
  | _ =>
    cases hs

theorem Called.goto {t : State ι} {f : Call} {p : Pc ι} (hpc : t.pc = s.pc)
    (hr : ∀ j, j ≠ i → t.region j = s.region j) (hc : t.contexts = s.contexts)
    (hb : t.beginEpoch = s.beginEpoch) (hd : p.duty = f.duty) (hm : f ≠ .init → i ∈ s.contexts) :
    Called i f s (t.goto i p) := by
  refine ⟨fun j hj => ?_, hr, ?_, hc, hb, hm⟩
  · exact (update_of_ne hj _ _).trans (congrFun hpc j)
  · rw [State.goto_pc]
    exact hd

theorem called {f : Call} (hs : s.step (.call i f) = some s') : Called i f s s' := by
  obtain ⟨hq, hs⟩ := State.step_call hs
  have hout : ∀ j, j ≠ i → (s.setRegion i none).region j = s.region j := fun j hj =>
    update_of_ne hj _ _
  cases f with
  | enter =>
    obtain ⟨⟨hmem, -⟩, hs⟩ := Option.ite_none_right_eq_some.mp hs
    cases hs
    exact .goto rfl (fun _ _ => rfl) rfl rfl rfl fun _ => hmem
  | exit =>
    obtain ⟨⟨hmem, -⟩, hs⟩ := Option.ite_none_right_eq_some.mp hs
    cases hs
    exact .goto rfl hout rfl rfl rfl fun _ => hmem
  | quiesce =>
    obtain ⟨⟨hmem, -⟩, hs⟩ := Option.ite_none_right_eq_some.mp hs
    by_cases hflag : (s.ctx i).straggler = true
    · rw [if_pos hflag] at hs
      cases hs
      exact .goto rfl hout rfl rfl rfl fun _ => hmem
    · rw [if_neg hflag] at hs
      cases hs
      exact ⟨fun _ _ => rfl, fun _ _ => rfl, by rw [hq]; rfl, rfl, rfl, fun _ => hmem⟩
  | init =>
    obtain ⟨-, hs⟩ := Option.ite_none_right_eq_some.mp hs
    cases hs
    exact .goto rfl (fun _ _ => rfl) rfl rfl rfl fun hne => absurd rfl hne
  | fini =>
    obtain ⟨hmem, hs⟩ := Option.ite_none_right_eq_some.mp hs
    by_cases hactive : (s.ctx i).active
    · rw [if_pos hactive] at hs
      cases hs
      exact .goto rfl hout rfl rfl rfl fun _ => hmem
    · rw [if_neg hactive] at hs
      cases hs
      exact .goto rfl (fun _ _ => rfl) rfl rfl rfl fun _ => hmem
  | newEpoch =>
    obtain ⟨hmem, hs⟩ := Option.ite_none_right_eq_some.mp hs
    cases hs
    exact .goto rfl (fun _ _ => rfl) rfl rfl rfl fun _ => hmem

/-- A thread that is in no call takes no step. -/
theorem step_idle (hq : s.pc i = .idle) (pick : ι) (cookie : Bool) :
    s.step (.step i pick cookie) = none := by
  simp only [State.step, hq]
  rfl

end Steps

end Epoch

end PreemptDB
