/-
Handing tasks to a pool thread (`sm-thread.h`, `sm-thread.cpp`).

A pool thread runs `IdleTask`: it runs a task when `state` says so, and sleeps on a condition
variable when there is none.  A controller calls `StartTask` and then `Join`, again and again.
Both sides change `state` by compare-and-swap and by plain stores, and the controller notifies
without the mutex.

* `poolStep`, `ctrlStep`, `step` — every access to shared memory is a step of its own;
* `Inv` — where the two threads can be for each value of `state`;
* `step_inv` — every step keeps it;
* `step_progress` — some step brings the current task nearer to its end;
* `hand_off` — what holds in every run.

The pool thread is not shut down here.
-/
import PreemptDB.StepRun

namespace PreemptDB

open StepRun

namespace HandOff

/-- `kStateHasWork`, `kStateSleep` and `kStateNoWork` -/
inductive Status
  | hasWork
  | sleep
  | noWork
  deriving DecidableEq

/-- Where the pool thread is in `IdleTask`. -/
inductive Pool (τ ι : Type*)
  /-- before the load of `state` at the head of the loop -/
  | check
  | readTask
  | readInput (task : τ)
  | running (task : τ) (input : ι)
  /-- the task has returned, `state` is about to be stored -/
  | finish
  | casSleep
  /-- in `trigger.wait`, not yet asleep -/
  | enterWait
  | waiting
  | woken
  | spin
  deriving DecidableEq

/-- Where the controller is; in `started` it is in `Join`. -/
inductive Ctrl (ι : Type*)
  | idle
  | setInput (input : ι)
  | cas
  | awaitNoWork
  | notify
  | setHasWork
  | started
  /-- `ALWAYS_ASSERT` has fired. -/
  | failed
  deriving DecidableEq

structure Thread (τ ι : Type*) where
  state : Status
  task : τ
  input : ι
  pool : Pool τ ι
  ctrl : Ctrl ι
  /-- The tasks of the calls of `StartTask`, and the ones that have returned. -/
  started : List (τ × ι)
  executed : List (τ × ι)

inductive Act (τ ι : Type*)
  | pool
  /-- a wake-up that nobody caused -/
  | wake
  | startTask (task : τ) (input : ι)
  | ctrl

variable {τ ι : Type*}

/-- A new thread; `task` and `task_input` hold something. -/
def newThread (t : τ) (i : ι) : Thread τ ι := ⟨.noWork, t, i, .check, .idle, [], []⟩

namespace Thread

/-- The next step of the pool thread. -/
def poolStep (sleepWhenIdle : Bool) (s : Thread τ ι) : Option (Thread τ ι) :=
  match s.pool with
  | .check => some { s with pool := if s.state = .hasWork then .readTask else .casSleep }
  | .readTask => some { s with pool := .readInput s.task }
  | .readInput t => some { s with pool := .running t s.input }
  | .running t i => some { s with pool := .finish, executed := s.executed ++ [(t, i)] }
  | .finish => some { s with pool := .casSleep, state := .noWork }
  | .casSleep =>
    if sleepWhenIdle = true ∧ s.state = .noWork then
      some { s with pool := .enterWait, state := .sleep }
    else some { s with pool := .check }
  | .enterWait => some { s with pool := .waiting }
  | .waiting => none
  | .woken => some { s with pool := .spin, state := .noWork }
  | .spin => some { s with pool := if s.state = .hasWork then .check else .spin }

/-- The next step of the controller. -/
def ctrlStep (s : Thread τ ι) : Option (Thread τ ι) :=
  match s.ctrl with
  | .idle => none
  | .setInput i => some { s with input := i, ctrl := .cas }
  | .cas =>
    match s.state with
    | .noWork => some { s with state := .hasWork, ctrl := .started }
    | .sleep => some { s with ctrl := .awaitNoWork }
    | .hasWork => some { s with ctrl := .failed }
  | .awaitNoWork => some { s with ctrl := if s.state = .noWork then .setHasWork else .notify }
  | .notify =>
    match s.pool with
    | .waiting => some { s with ctrl := .awaitNoWork, pool := .woken }
    | _ => some { s with ctrl := .awaitNoWork }
  | .setHasWork => some { s with state := .hasWork, ctrl := .started }
  | .started => some { s with ctrl := if s.state = .hasWork then .started else .idle }
  | .failed => none

def step (sleepWhenIdle : Bool) (s : Thread τ ι) : Act τ ι → Option (Thread τ ι)
  | .pool => s.poolStep sleepWhenIdle
  | .wake =>
    match s.pool with
    | .waiting => some { s with pool := .woken }
    | _ => none
  | .startTask t i =>
    match s.ctrl with
    | .idle => some { s with task := t, ctrl := .setInput i, started := s.started ++ [(t, i)] }
    | _ => none
  | .ctrl => s.ctrlStep

/-- The pool thread has nothing to do; `state` says whether it is on its way to sleep and back. -/
def Resting (s : Thread τ ι) : Prop :=
  match s.pool with
  | .check | .casSleep | .spin => s.state = .noWork
  | .enterWait | .waiting | .woken => s.state = .sleep
  | _ => False

/-- All tasks but the last have been executed. -/
def Pending (s : Thread τ ι) : Prop := s.started = s.executed ++ [(s.task, s.input)]

/-- The pool thread has the last task, or is about to see it. -/
def Working (s : Thread τ ι) : Prop :=
  s.state = .hasWork ∧
    match s.pool with
    | .check | .casSleep | .spin | .readTask => s.Pending
    | .readInput t => t = s.task ∧ s.Pending
    | .running t i => t = s.task ∧ i = s.input ∧ s.Pending
    | .finish => s.executed = s.started
    | _ => False

/-- What the controller knows of the pool thread. -/
def Inv (s : Thread τ ι) : Prop :=
  match s.ctrl with
  | .idle => s.Resting ∧ s.executed = s.started
  | .setInput i => s.Resting ∧ s.started = s.executed ++ [(s.task, i)]
  | .cas => s.Resting ∧ s.Pending
  -- after it was seen asleep, the pool thread gets to its second loop
  | .awaitNoWork | .notify => s.Resting ∧ s.Pending ∧ s.pool ≠ .check ∧ s.pool ≠ .casSleep
  | .setHasWork => s.pool = .spin ∧ s.state = .noWork ∧ s.Pending
  | .started => (s.Resting ∧ s.executed = s.started) ∨ s.Working
  | .failed => False

section Steps

variable {sleepWhenIdle : Bool} {s s' : Thread τ ι}

/-- What a step of the pool thread leaves alone while there is nothing to do. -/
theorem poolStep_resting (hr : s.Resting) (h : s.poolStep sleepWhenIdle = some s') :
    s'.Resting ∧ s'.ctrl = s.ctrl ∧ s'.task = s.task ∧ s'.input = s.input ∧
      s'.started = s.started ∧ s'.executed = s.executed ∧
      (s.pool ≠ .check → s.pool ≠ .casSleep → s'.pool ≠ .check ∧ s'.pool ≠ .casSleep) ∧
      (s.pool = .spin → s'.pool = .spin ∧ s'.state = s.state) := by
  rw [Resting] at hr
  rw [poolStep] at h
  cases hpool : s.pool with
  | check =>
    simp only [hpool] at hr h
    rw [hr, if_neg (by decide)] at h
    cases h
    exact ⟨rfl, rfl, rfl, rfl, rfl, rfl, fun hne => absurd rfl hne, nofun⟩
  | casSleep =>
    simp only [hpool] at hr h
    split at h
    · cases h
      exact ⟨rfl, rfl, rfl, rfl, rfl, rfl, fun _ hne => absurd rfl hne, nofun⟩
    · cases h
      exact ⟨hr, rfl, rfl, rfl, rfl, rfl, fun _ hne => absurd rfl hne, nofun⟩
  | spin =>
    simp only [hpool] at hr h
    rw [hr, if_neg (by decide)] at h
    cases h
    exact ⟨rfl, rfl, rfl, rfl, rfl, rfl, fun _ _ => ⟨nofun, nofun⟩, fun _ => ⟨rfl, hr.symm⟩⟩
  | enterWait =>
    simp only [hpool] at hr h
    cases h
    exact ⟨hr, rfl, rfl, rfl, rfl, rfl, fun _ _ => ⟨nofun, nofun⟩, nofun⟩
  | waiting =>
    simp only [hpool] at h
    cases h
  | woken =>
    simp only [hpool] at h
    cases h
    exact ⟨rfl, rfl, rfl, rfl, rfl, rfl, fun _ _ => ⟨nofun, nofun⟩, nofun⟩
  | readTask => simp only [hpool] at hr
  | readInput t => simp only [hpool] at hr
  | running t i => simp only [hpool] at hr
  | finish => simp only [hpool] at hr

/-- The pool thread takes the task, runs it and reports. -/
theorem poolStep_working (hw : s.Working) (h : s.poolStep sleepWhenIdle = some s') :
    s'.ctrl = s.ctrl ∧ s'.started = s.started ∧
      ((s'.Resting ∧ s'.executed = s'.started) ∨ s'.Working) := by
  obtain ⟨hstate, hw⟩ := hw
  rw [poolStep] at h
  cases hpool : s.pool with
  | check | spin =>
    simp only [hpool] at hw h
    rw [hstate, if_pos rfl] at h
    cases h
    exact ⟨rfl, rfl, .inr ⟨rfl, hw⟩⟩
  | casSleep =>
    simp only [hpool] at hw h
    rw [if_neg (by simp [hstate])] at h
    cases h
    exact ⟨rfl, rfl, .inr ⟨hstate, hw⟩⟩
  | readTask =>
    simp only [hpool] at hw h
    cases h
    exact ⟨rfl, rfl, .inr ⟨hstate, rfl, hw⟩⟩
  | readInput t =>
    simp only [hpool] at hw h
    cases h
    exact ⟨rfl, rfl, .inr ⟨hstate, hw.1, rfl, hw.2⟩⟩
  | running t i =>
    simp only [hpool] at hw h
    obtain ⟨rfl, rfl, hpending⟩ := hw
    cases h
    exact ⟨rfl, rfl, .inr ⟨hstate, hpending.symm⟩⟩
  | finish =>
    simp only [hpool] at hw h
    cases h
    exact ⟨rfl, rfl, .inl ⟨rfl, hw⟩⟩
  | enterWait => simp only [hpool] at hw
  | waiting => simp only [hpool] at hw
  | woken => simp only [hpool] at hw

theorem Inv.poolStep (hi : s.Inv) (h : s.poolStep sleepWhenIdle = some s') : s'.Inv := by
  rw [Inv] at hi ⊢
  cases hctrl : s.ctrl with
  | idle =>
    simp only [hctrl] at hi
    obtain ⟨hr, hc, -, -, hst, hex, -⟩ := poolStep_resting hi.1 h
    simp only [hc, hctrl, hst, hex]
    exact ⟨hr, hi.2⟩
  | setInput i =>
    simp only [hctrl] at hi
    obtain ⟨hr, hc, ht, -, hst, hex, -⟩ := poolStep_resting hi.1 h
    simp only [hc, hctrl, hst, hex, ht]
    exact ⟨hr, hi.2⟩
  | cas =>
    simp only [hctrl] at hi
    obtain ⟨hr, hc, ht, hin, hst, hex, -⟩ := poolStep_resting hi.1 h
    simp only [hc, hctrl, Pending, hst, hex, ht, hin]
    exact ⟨hr, hi.2⟩
  | awaitNoWork | notify =>
    simp only [hctrl] at hi
    obtain ⟨hr, hc, ht, hin, hst, hex, hpool, -⟩ := poolStep_resting hi.1 h
    simp only [hc, hctrl, Pending, hst, hex, ht, hin]
    exact ⟨hr, hi.2.1, hpool hi.2.2.1 hi.2.2.2⟩
  | setHasWork =>
    simp only [hctrl] at hi
    have hr : s.Resting := by
      simp only [Resting, hi.1]
      exact hi.2.1
    obtain ⟨-, hc, ht, hin, hst, hex, -, hspin⟩ := poolStep_resting hr h
    simp only [hc, hctrl, Pending, hst, hex, ht, hin]
    exact ⟨(hspin hi.1).1, (hspin hi.1).2.trans hi.2.1, hi.2.2⟩
  | started =>
    simp only [hctrl] at hi
    rcases hi with ⟨hr, hdone⟩ | hw
    · obtain ⟨hr, hc, -, -, hst, hex, -⟩ := poolStep_resting hr h
      simp only [hc, hctrl, hst, hex]
      exact .inl ⟨hr, hdone⟩
    · obtain ⟨hc, -, hnext⟩ := poolStep_working hw h
      simp only [hc, hctrl]
      exact hnext
  | failed => simp only [hctrl] at hi

theorem Inv.ctrlStep (hi : s.Inv) (h : s.ctrlStep = some s') : s'.Inv := by
  rw [Inv] at hi
  rw [Thread.ctrlStep] at h
  cases hctrl : s.ctrl with
  | idle =>
    simp only [hctrl] at h
    cases h
  | setInput i =>
    simp only [hctrl] at hi h
    cases h
    exact hi
  | cas =>
    simp only [hctrl] at hi h
    obtain ⟨hr, hpending⟩ := hi
    cases hstate : s.state with
    | noWork =>
      simp only [hstate] at h
      cases h
      refine .inr ⟨rfl, ?_⟩
      cases hpool : s.pool with
      | check | casSleep | spin => exact hpending
      | _ => simp [Resting, hpool, hstate] at hr
    | sleep =>
      simp only [hstate] at h
      cases h
      have hr' := hr
      rw [Resting, hstate] at hr'
      refine ⟨hr', hpending, fun hpool => ?_, fun hpool => ?_⟩
      · have hpool : s.pool = .check := hpool
        simp [Resting, hpool, hstate] at hr
      · have hpool : s.pool = .casSleep := hpool
        simp [Resting, hpool, hstate] at hr
    | hasWork =>
      -- while the pool thread has nothing to do, `state` is not `kStateHasWork`
      cases hpool : s.pool <;> simp [Resting, hpool, hstate] at hr
  | awaitNoWork =>
    simp only [hctrl] at hi h
    obtain ⟨hr, hpending, hcheck, hcas⟩ := hi
    split at h
    · rename_i hstate
      cases h
      refine ⟨?_, hstate, hpending⟩
      cases hpool : s.pool with
      | spin => rfl
      | check => exact absurd hpool hcheck
      | casSleep => exact absurd hpool hcas
      | _ => simp [Resting, hpool, hstate] at hr
    · cases h
      exact ⟨hr, hpending, hcheck, hcas⟩
  | notify =>
    simp only [hctrl] at hi h
    obtain ⟨hr, hpending, hcheck, hcas⟩ := hi
    split at h
    · rename_i hpool
      cases h
      refine ⟨?_, hpending, nofun, nofun⟩
      simpa [Resting, hpool] using hr
    · cases h
      exact ⟨hr, hpending, hcheck, hcas⟩
  | setHasWork =>
    simp only [hctrl] at hi h
    cases h
    refine .inr ⟨rfl, ?_⟩
    simp only [hi.1]
    exact hi.2.2
  | started =>
    simp only [hctrl] at hi h
    split at h
    · cases h
      exact hi
    · rename_i hstate
      cases h
      exact hi.resolve_right fun hw => hstate hw.1
  | failed => simp only [hctrl] at hi

/-- Waking up changes nothing that the controller relies on. -/
theorem Inv.wake (hi : s.Inv) (hpool : s.pool = .waiting) : Inv { s with pool := .woken } := by
  have hrest : s.Resting → Resting { s with pool := .woken } := by
    intro hr
    simpa [Resting, hpool] using hr
  rw [Inv] at hi
  cases hctrl : s.ctrl with
  | idle =>
    simp only [hctrl] at hi
    simp only [Inv]
    exact ⟨hrest hi.1, hi.2⟩
  | setInput _ | cas =>
    simp only [hctrl] at hi
    exact ⟨hrest hi.1, hi.2⟩
  | awaitNoWork | notify =>
    simp only [hctrl] at hi
    exact ⟨hrest hi.1, hi.2.1, nofun, nofun⟩
  | setHasWork =>
    simp only [hctrl, hpool] at hi
    exact absurd hi.1 nofun
  | started =>
    simp only [hctrl] at hi
    rcases hi with ⟨hr, hdone⟩ | hw
    · exact .inl ⟨hrest hr, hdone⟩
    · simp [Working, hpool] at hw
  | failed => simp only [hctrl] at hi

theorem step_inv {a : Act τ ι} (h : s.step sleepWhenIdle a = some s') (hi : s.Inv) : s'.Inv := by
  cases a with
  | pool => exact hi.poolStep h
  | ctrl => exact hi.ctrlStep h
  | wake =>
    rw [step] at h
    split at h
    · cases h
      exact hi.wake ‹_›
    · cases h
  | startTask t i =>
    rw [step] at h
    split at h
    · rename_i hctrl
      cases h
      simp only [Inv, hctrl] at hi
      obtain ⟨hr, hdone⟩ := hi
      refine ⟨hr, ?_⟩
      show s.started ++ [(t, i)] = s.executed ++ [(t, i)]
      rw [hdone]
    · cases h

end Steps

section Progress

/-- How far the controller is from the return of `Join`. -/
def rank (s : Thread τ ι) : ℕ :=
  match s.ctrl with
  | .idle | .failed => 0
  | .setInput _ => 30
  | .cas => 29
  | .notify =>
    match s.pool with
    | .enterWait => 27
    | .waiting => 24
    | .woken => 22
    | _ => 21
  | .awaitNoWork =>
    match s.pool with
    | .enterWait => 26
    | .waiting => 25
    | .woken => 23
    | _ => 20
  | .setHasWork => 19
  | .started =>
    if s.state = .hasWork then
      match s.pool with
      | .casSleep | .spin => 12
      | .check => 11
      | .readTask => 10
      | .readInput _ => 9
      | .running _ _ => 8
      | _ => 7
    else 1

variable (sleepWhenIdle : Bool) {s : Thread τ ι}

/-- A call of `StartTask` that waits for the pool thread gets ahead: by the pool thread if that
is not asleep, and by the notification if it is. -/
theorem waking_progress (hi : s.Inv) (hctrl : s.ctrl = .awaitNoWork ∨ s.ctrl = .notify) :
    ∃ a s', s.step sleepWhenIdle a = some s' ∧ s'.started = s.started ∧ s'.rank < s.rank := by
  have hr : s.Resting ∧ s.pool ≠ .check ∧ s.pool ≠ .casSleep := by
    rw [Inv] at hi
    rcases hctrl with hctrl | hctrl
    · simp only [hctrl] at hi
      exact ⟨hi.1, hi.2.2⟩
    · simp only [hctrl] at hi
      exact ⟨hi.1, hi.2.2⟩
  obtain ⟨hr, hcheck, hcas⟩ := hr
  rw [Resting] at hr
  cases hpool : s.pool with
  | enterWait =>
    refine ⟨.pool, { s with pool := .waiting }, by rw [step, poolStep, hpool], rfl, ?_⟩
    rcases hctrl with hctrl | hctrl
    · simp [rank, hctrl, hpool]
    · simp [rank, hctrl, hpool]
  | woken =>
    refine ⟨.pool, { s with pool := .spin, state := .noWork }, by rw [step, poolStep, hpool], rfl,
      ?_⟩
    rcases hctrl with hctrl | hctrl
    · simp [rank, hctrl, hpool]
    · simp [rank, hctrl, hpool]
  | waiting =>
    simp only [hpool] at hr
    rcases hctrl with hctrl | hctrl
    · refine ⟨.ctrl, { s with ctrl := .notify }, by simp [step, ctrlStep, hctrl, hr], rfl, ?_⟩
      simp [rank, hctrl, hpool]
    · refine ⟨.ctrl, { s with ctrl := .awaitNoWork, pool := .woken },
        by simp [step, ctrlStep, hctrl, hpool], rfl, ?_⟩
      simp [rank, hctrl, hpool]
  | spin =>
    simp only [hpool] at hr
    rcases hctrl with hctrl | hctrl
    · refine ⟨.ctrl, { s with ctrl := .setHasWork }, by simp [step, ctrlStep, hctrl, hr], rfl, ?_⟩
      simp [rank, hctrl, hpool]
    · refine ⟨.ctrl, { s with ctrl := .awaitNoWork }, by simp [step, ctrlStep, hctrl, hpool], rfl,
        ?_⟩
      simp [rank, hctrl, hpool]
  | check => exact absurd hpool hcheck
  | casSleep => exact absurd hpool hcas
  | readTask => simp only [hpool] at hr
  | readInput t => simp only [hpool] at hr
  | running t i => simp only [hpool] at hr
  | finish => simp only [hpool] at hr

/-- The pool thread gets ahead with the task. -/
theorem working_progress (hctrl : s.ctrl = .started) (hw : s.Working) :
    ∃ a s', s.step sleepWhenIdle a = some s' ∧ s'.started = s.started ∧ s'.rank < s.rank := by
  obtain ⟨hstate, hw⟩ := hw
  cases hpool : s.pool with
  | check =>
    refine ⟨.pool, { s with pool := .readTask }, by simp [step, poolStep, hpool, hstate], rfl, ?_⟩
    simp [rank, hctrl, hstate, hpool]
  | casSleep | spin =>
    refine ⟨.pool, { s with pool := .check }, by simp [step, poolStep, hpool, hstate], rfl, ?_⟩
    simp [rank, hctrl, hstate, hpool]
  | readTask =>
    refine ⟨.pool, { s with pool := .readInput s.task }, by rw [step, poolStep, hpool], rfl, ?_⟩
    simp [rank, hctrl, hstate, hpool]
  | readInput t =>
    refine ⟨.pool, { s with pool := .running t s.input }, by rw [step, poolStep, hpool], rfl, ?_⟩
    simp [rank, hctrl, hstate, hpool]
  | running t i =>
    refine ⟨.pool, { s with pool := .finish, executed := s.executed ++ [(t, i)] },
      by rw [step, poolStep, hpool], rfl, ?_⟩
    simp [rank, hctrl, hstate, hpool]
  | finish =>
    refine ⟨.pool, { s with pool := .casSleep, state := .noWork }, by rw [step, poolStep, hpool],
      rfl,
      ?_⟩
    simp [rank, hctrl, hstate, hpool]
  | enterWait => simp only [hpool] at hw
  | waiting => simp only [hpool] at hw
  | woken => simp only [hpool] at hw

theorem step_progress (hi : s.Inv) (hbusy : s.ctrl ≠ .idle) :
    ∃ a s', s.step sleepWhenIdle a = some s' ∧ s'.started = s.started ∧ s'.rank < s.rank := by
  cases hctrl : s.ctrl with
  | idle => exact absurd hctrl hbusy
  | setInput i =>
    refine ⟨.ctrl, { s with input := i, ctrl := .cas }, by rw [step, ctrlStep, hctrl], rfl, ?_⟩
    simp [rank, hctrl]
  | cas =>
    cases hstate : s.state with
    | noWork =>
      refine ⟨.ctrl, { s with state := .hasWork, ctrl := .started },
        by rw [step, ctrlStep, hctrl, hstate], rfl, ?_⟩
      simp only [rank, hctrl, if_true]
      split <;> omega
    | sleep =>
      refine ⟨.ctrl, { s with ctrl := .awaitNoWork }, by simp [step, ctrlStep, hctrl, hstate], rfl,
        ?_⟩
      simp only [rank, hctrl]
      split <;> omega
    | hasWork =>
      rw [Inv] at hi
      simp only [hctrl] at hi
      cases hpool : s.pool <;> simp [Resting, hpool, hstate] at hi
  | awaitNoWork => exact waking_progress sleepWhenIdle hi (.inl hctrl)
  | notify => exact waking_progress sleepWhenIdle hi (.inr hctrl)
  | setHasWork =>
    refine ⟨.ctrl, { s with state := .hasWork, ctrl := .started }, by rw [step, ctrlStep, hctrl],
      rfl,
      ?_⟩
    simp only [rank, hctrl, if_true]
    split <;> omega
  | started =>
    by_cases hstate : s.state = .hasWork
    · have hw : s.Working := by
        rw [Inv] at hi
        simp only [hctrl] at hi
        refine hi.resolve_left fun hr => ?_
        cases hpool : s.pool <;> simp [Resting, hpool, hstate] at hr
      exact working_progress sleepWhenIdle hctrl hw
    · refine ⟨.ctrl, { s with ctrl := .idle }, by simp [step, ctrlStep, hctrl, hstate], rfl, ?_⟩
      simp [rank, hctrl, hstate]
  | failed =>
    rw [Inv] at hi
    simp only [hctrl] at hi

/-- From every state the calls that are under way can return. -/
theorem can_finish (hi : s.Inv) : ∃ acts s', run (step sleepWhenIdle) s acts = some s' ∧
    s'.ctrl = .idle ∧ s'.started = s.started ∧ s'.Inv := by
  induction hn : s.rank using Nat.strongRecOn generalizing s with
  | ind n ih =>
    subst hn
    by_cases hidle : s.ctrl = .idle
    · exact ⟨[], s, rfl, hidle, rfl, hi⟩
    · obtain ⟨a, s₁, hstep, hstarted, hlt⟩ := step_progress sleepWhenIdle hi hidle
      obtain ⟨acts, s₂, hrun, hidle₂, hstarted₂, hi₂⟩ := ih s₁.rank hlt (step_inv hstep hi) rfl
      exact ⟨a :: acts, s₂, run_cons_eq_some.mpr ⟨s₁, hstep, hrun⟩, hidle₂,
        hstarted₂.trans hstarted, hi₂⟩

end Progress

section Consequences

variable {s : Thread τ ι}

theorem Inv.executed_or (hi : s.Inv) :
    s.executed = s.started ∨ ∃ x, s.started = s.executed ++ [x] := by
  rw [Inv] at hi
  cases hctrl : s.ctrl with
  | idle =>
    simp only [hctrl] at hi
    exact .inl hi.2
  | setInput _ | cas =>
    simp only [hctrl] at hi
    exact .inr ⟨_, hi.2⟩
  | awaitNoWork | notify =>
    simp only [hctrl] at hi
    exact .inr ⟨_, hi.2.1⟩
  | setHasWork =>
    simp only [hctrl] at hi
    exact .inr ⟨_, hi.2.2⟩
  | started =>
    simp only [hctrl] at hi
    rcases hi with ⟨-, hdone⟩ | ⟨-, hw⟩
    · exact .inl hdone
    · cases hpool : s.pool with
      | check | casSleep | spin | readTask =>
        simp only [hpool] at hw
        exact .inr ⟨_, hw⟩
      | readInput t =>
        simp only [hpool] at hw
        exact .inr ⟨_, hw.2⟩
      | running t i =>
        simp only [hpool] at hw
        exact .inr ⟨_, hw.2.2⟩
      | finish =>
        simp only [hpool] at hw
        exact .inl hw
      | enterWait => simp only [hpool] at hw
      | waiting => simp only [hpool] at hw
      | woken => simp only [hpool] at hw
  | failed => simp only [hctrl] at hi

/-- A pool thread in `trigger.wait` has left `kStateSleep` behind. -/
theorem Inv.asleep (hi : s.Inv) (hpool : s.pool = .enterWait ∨ s.pool = .waiting) :
    s.state = .sleep := by
  have hrest : s.Resting → s.state = .sleep := by
    intro hr
    rcases hpool with hpool | hpool
    · simpa [Resting, hpool] using hr
    · simpa [Resting, hpool] using hr
  rw [Inv] at hi
  cases hctrl : s.ctrl with
  | idle | setInput _ | cas | awaitNoWork | notify =>
    simp only [hctrl] at hi
    exact hrest hi.1
  | setHasWork =>
    simp only [hctrl] at hi
    rcases hpool with hpool | hpool
    · exact absurd (hpool.symm.trans hi.1) nofun
    · exact absurd (hpool.symm.trans hi.1) nofun
  | started =>
    simp only [hctrl] at hi
    rcases hi with ⟨hr, -⟩ | ⟨-, hw⟩
    · exact hrest hr
    · rcases hpool with hpool | hpool
      · simp only [hpool] at hw
      · simp only [hpool] at hw
  | failed => simp only [hctrl] at hi

end Consequences

end Thread

/-- The tasks of the calls of `StartTask` in a run. -/
def startedIn (acts : List (Act τ ι)) : List (τ × ι) :=
  acts.filterMap fun
    | .startTask t i => some (t, i)
    | _ => none

theorem started_step {sleepWhenIdle : Bool} {s s' : Thread τ ι} {a : Act τ ι}
    (h : s.step sleepWhenIdle a = some s') : s'.started = s.started ++ startedIn [a] := by
  cases a with
  | pool =>
    rw [Thread.step, Thread.poolStep] at h
    repeat' split at h
    all_goals cases h
    all_goals exact (List.append_nil _).symm
  | wake =>
    rw [Thread.step] at h
    split at h
    · cases h
      exact (List.append_nil _).symm
    · cases h
  | startTask t i =>
    rw [Thread.step] at h
    split at h
    · cases h
      rfl
    · cases h
  | ctrl =>
    rw [Thread.step, Thread.ctrlStep] at h
    repeat' split at h
    all_goals cases h
    all_goals exact (List.append_nil _).symm

theorem started_run {sleepWhenIdle : Bool} {s s' : Thread τ ι} {acts : List (Act τ ι)}
    (h : run (Thread.step sleepWhenIdle) s acts = some s') :
    s'.started = s.started ++ startedIn acts := by
  induction acts generalizing s with
  | nil =>
    rw [run_nil, Option.some_inj] at h
    rw [h]
    exact (List.append_nil _).symm
  | cons a acts ih =>
    obtain ⟨s₁, hstep, hrun⟩ := run_cons_eq_some.mp h
    rw [ih hrun, started_step hstep, List.append_assoc, startedIn, startedIn, startedIn,
      ← List.filterMap_append, List.singleton_append]

/-- In every run the tasks are executed once each, with their inputs and in order; all have been
when `Join` has returned; the assertion does not fire; and a pool thread in `trigger.wait` does
not have work.  From every state the calls under way can return. -/
theorem hand_off (sleepWhenIdle : Bool) (t : τ) (i : ι) {acts : List (Act τ ι)} {s : Thread τ ι}
    (h : run (Thread.step sleepWhenIdle) (newThread t i) acts = some s) :
    s.started = startedIn acts ∧
      (s.executed = s.started ∨ ∃ x, s.started = s.executed ++ [x]) ∧
      (s.ctrl = .idle → s.executed = s.started) ∧ s.ctrl ≠ .failed ∧
      (s.pool = .enterWait ∨ s.pool = .waiting → s.state ≠ .hasWork) ∧
      ∃ acts' s', run (Thread.step sleepWhenIdle) s acts' = some s' ∧
        s'.ctrl = .idle ∧ s'.started = s.started ∧ s'.executed = s.started := by
  have hi : s.Inv := run_invariant (I := Thread.Inv) Thread.step_inv h ⟨rfl, rfl⟩
  have hidle : ∀ {u : Thread τ ι}, u.Inv → u.ctrl = .idle → u.executed = u.started := by
    intro u hu hctrl
    simp only [Thread.Inv, hctrl] at hu
    exact hu.2
  refine ⟨?_, hi.executed_or, hidle hi, fun hfail => ?_, fun hpool => ?_, ?_⟩
  · rw [started_run h]
    rfl
  · simp only [Thread.Inv, hfail] at hi
  · rw [hi.asleep hpool]
    decide
  · obtain ⟨acts', s', hrun, hctrl, hstarted, hi'⟩ := Thread.can_finish sleepWhenIdle hi
    exact ⟨acts', s', hrun, hctrl, hstarted, (hidle hi' hctrl).trans hstarted⟩

/-- A task is started while the pool thread sleeps, and `Join` returns. -/
def wakeActs : List (Act ℕ ℕ) :=
  [.pool, .pool, .pool, .startTask 1 2, .ctrl, .ctrl, .ctrl, .ctrl, .pool, .ctrl, .ctrl, .pool,
    .pool, .pool, .pool, .pool, .pool, .ctrl]

theorem hand_off_wake :
    ∃ s, run (Thread.step true) (newThread 0 0) wakeActs = some s ∧
      s.ctrl = .idle ∧ s.executed = [(1, 2)] ∧
      s.started = startedIn wakeActs ∧
      (s.executed = s.started ∨ ∃ x, s.started = s.executed ++ [x]) ∧
      (s.ctrl = .idle → s.executed = s.started) ∧ s.ctrl ≠ .failed ∧
      (s.pool = .enterWait ∨ s.pool = .waiting → s.state ≠ .hasWork) ∧
      ∃ acts' s', run (Thread.step true) s acts' = some s' ∧
        s'.ctrl = .idle ∧ s'.started = s.started ∧ s'.executed = s.started :=
  ⟨_, rfl, rfl, rfl, hand_off true 0 0
    (show run (Thread.step true) (newThread 0 0) wakeActs = some _ from rfl)⟩

end HandOff

end PreemptDB
