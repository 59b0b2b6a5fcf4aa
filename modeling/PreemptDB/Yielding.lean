/-
Cooperative yielding (policy 3).

There are no user interrupts under this policy.  Instead, `txn_query2` counts the
records that it reads and, above a threshold, calls `swap_context` from the main to
the preemptive context.  It does so whichever context runs it, and whichever queue
its request came from.

* `Coop`, `Coop.step` — the worker, the record counters and the calls of
  `swap_context`;
* `yield_exactly_once` — as under the preemptive policy, if no prioritized request
  is a `Query2`;
* `prioritized_query2` — a prioritized `Query2` that is executed twice, and one that
  swaps away from a context that does not run.
-/
import PreemptDB.ExactlyOnce

namespace PreemptDB.Scheduling

open Function StepRun

variable {α β : Type*}

/-- A worker under policy 3.  `query2` says whether the transaction that a context runs is
`txn_query2`, `count` is its `record_count`; `swaps` has the first argument of each call of
`swap_context` with the context that was running. -/
structure Coop (α β : Type*) where
  worker : Worker α β
  query2 : Ctx → Bool
  count : Ctx → ℕ
  swaps : List (Ctx × Ctx)
  /-- the registers of a context have been stored in another one -/
  lost : Bool

/-- Steps; a `WorkerAct` other than an interrupt, an access to a record in `txn_query2`, and the
repetition of a transaction that was aborted. -/
inductive CoopAct (α β : Type*)
  | worker (a : WorkerAct α β)
  | access
  | retry

def WorkerAct.isInterrupt : WorkerAct α β → Bool
  | .interrupt _ => true
  | _ => false

namespace Coop

def init (data : Ctx → ℕ → α × β) (size : Ctx → ℕ) (uif : Bool) : Coop α β :=
  ⟨.init data size uif, fun _ => false, fun _ => 0, [], false⟩

/-- The context `x` calls a transaction. -/
def begin (c : Coop α β) (x : Ctx) (q : Bool) : Coop α β :=
  { c with query2 := Function.update c.query2 x q, count := Function.update c.count x 0 }

/-- What a step of the worker means for the counters and the calls. -/
def after (query2 : α → Bool) (c : Coop α β) : WorkerAct α β → Coop α β
  | .main _ =>
    match c.worker.main with
    | .start _ t => c.begin .main (query2 t.1)
    | _ => c
  | .preemptive _ =>
    match c.worker.preemptive with
    | .start t => c.begin .preemptive (query2 t.1)
    | .swapClui => { c with swaps := c.swaps ++ [(.preemptive, c.worker.cur)] }
    | _ => c
  | _ => c

/-- `swap_context(MainContext(), PreemptiveContext())` in a transaction of context `x`.  If that
is not the main context, its stack pointer overwrites the one of the main context, and it goes on
with an old stack pointer of its own; what follows is not described. -/
def yield (c : Coop α β) : Ctx → Coop α β
  | .main =>
    { c with
      worker := { c.worker with cur := .preemptive, uif := true }
      swaps := c.swaps ++ [(.main, .main)] }
  | .preemptive => { c with swaps := c.swaps ++ [(.main, .preemptive)], lost := true }

/-- `++record_count` and the test of the threshold. -/
def record (threshold : ℕ) (c : Coop α β) (x : Ctx) : Coop α β :=
  if threshold < c.count x + 1 then { c with count := Function.update c.count x 0 }.yield x
  else { c with count := Function.update c.count x (c.count x + 1) }

/-- The context runs a transaction. -/
def inRun (c : Coop α β) : Bool :=
  match c.worker.cur with
  | .main =>
    match c.worker.main with
    | .run _ => c.worker.tail = .none
    | _ => false
  | .preemptive =>
    match c.worker.preemptive with
    | .run => true
    | _ => false

def step (query2 : α → Bool) (threshold : ℕ) (c : Coop α β) : CoopAct α β → Option (Coop α β)
  | .worker a =>
    if c.lost ∨ a.isInterrupt then none
    else (c.worker.step a).map fun w => { c.after query2 a with worker := w }
  | .access =>
    if c.lost ∨ ¬ c.inRun ∨ ¬ c.query2 c.worker.cur then none
    else some (c.record threshold c.worker.cur)
  | .retry =>
    if c.lost ∨ ¬ c.inRun then none
    else some { c with count := Function.update c.count c.worker.cur 0 }

end Coop

/-- No request that is pushed to the preemptive queue is a `Query2`. -/
def Unyielding (query2 : α → Bool) (_ : Coop α β) : CoopAct α β → Prop
  | .worker (.scheduler (.pushPreemptive t)) => query2 t.1 = false
  | _ => True

instance (query2 : α → Bool) (c : Coop α β) : DecidablePred (Unyielding query2 c)
  | .worker (.scheduler (.pushPreemptive t)) => inferInstanceAs (Decidable (query2 t.1 = false))
  | .worker (.scheduler (.pushMain _)) | .worker (.scheduler (.pushMainIfEmpty _))
  | .worker (.scheduler .write) | .worker (.main _) | .worker (.preemptive _)
  | .worker .swapTail | .worker (.interrupt _) | .access | .retry => isTrue trivial

/-- The request that the scheduler is pushing. -/
def SchedulerPc.request : SchedulerPc α β → Option (Ctx × (α × β))
  | .idle => none
  | .writeFirst k t | .writeSecond k t | .advance k t => some (k, t)

namespace Worker

variable {w w' : Worker α β} {b : Bool}

/-- A context does not push. -/
theorem ContextStep.pushes_eq (h : ContextStep w w') (k : Ctx) :
    pushes k w'.log = pushes k w.log := by
  rcases h.lane k with heq | hmove
  · exact congrArg Lane.pushed heq
  · exact hmove.keeps.pushed

/-- A transaction of the main context has been started by this step or before. -/
theorem mainStep_run {k : Ctx} (hs : w.mainStep b = some w') (hrun : w'.main = .run k) :
    (∃ t, w.main = .start k t ∧ w'.log = w.log ++ [.start .main k t]) ∨ w.main = .run k := by
  obtain ⟨queue, scheduler, cur, uif, tail, main, preemptive, log⟩ := w
  cases main with
  | start k' t =>
    cases hs
    cases hrun
    exact .inl ⟨t, rfl, rfl⟩
  | run k' =>
    cases b <;> cases hs <;> cases hrun
    exact .inr rfl
  | loop =>
    cases b <;> cases hs <;> cases hrun
  | statStarved p m =>
    cases hs
    cases p <;> cases m <;> cases b <;> cases hrun
  | frontSecond k' i a =>
    cases k' <;> cases hs <;> cases hrun
  | popStore k' i =>
    obtain ⟨q, -, rfl⟩ := Option.map_eq_some_iff.mp hs
    cases hrun
  | exit => cases hs
  | _ =>
    cases hs
    cases hrun

/-- The scheduler does not touch the contexts. -/
theorem schedulerStep_main {a : SchedulerAct α β} (hs : w.schedulerStep a = some w') :
    w'.main = w.main := by
  obtain ⟨queue, scheduler, cur, uif, tail, main, preemptive, log⟩ := w
  cases scheduler with
  | idle =>
    cases a with
    | pushMain t | pushMainIfEmpty t | pushPreemptive t =>
      obtain ⟨-, hs⟩ := Option.ite_none_right_eq_some.mp hs
      cases hs
      rfl
    | write => cases hs
  | writeFirst k t | writeSecond k t =>
    cases a <;> cases hs
    rfl
  | advance k t =>
    cases a with
    | write =>
      obtain ⟨q, -, rfl⟩ := Option.map_eq_some_iff.mp hs
      rfl
    | _ => cases hs

/-- What the scheduler pushes. -/
theorem schedulerStep_request {a : SchedulerAct α β} (hs : w.schedulerStep a = some w')
    {P : α × β → Prop} (hact : ∀ t, a = .pushPreemptive t → P t)
    (hreq : ∀ t, w.scheduler.request = some (.preemptive, t) → P t)
    (hpushed : ∀ t ∈ pushes .preemptive w.log, P t) :
    (∀ t, w'.scheduler.request = some (.preemptive, t) → P t) ∧
      ∀ t ∈ pushes .preemptive w'.log, P t := by
  obtain ⟨queue, scheduler, cur, uif, tail, main, preemptive, log⟩ := w
  cases scheduler with
  | idle =>
    cases a with
    | pushMain t | pushMainIfEmpty t =>
      obtain ⟨-, hs⟩ := Option.ite_none_right_eq_some.mp hs
      cases hs
      refine ⟨fun t' ht => ?_, hpushed⟩
      cases ht
    | pushPreemptive t =>
      obtain ⟨-, hs⟩ := Option.ite_none_right_eq_some.mp hs
      cases hs
      refine ⟨fun t' ht => ?_, hpushed⟩
      cases ht
      exact hact t rfl
    | write => cases hs
  | writeFirst k t | writeSecond k t =>
    cases a <;> cases hs
    exact ⟨hreq, hpushed⟩
  | advance k t =>
    cases a with
    | write =>
      obtain ⟨q, -, rfl⟩ := Option.map_eq_some_iff.mp hs
      refine ⟨fun t' ht => ?_, fun t' ht => ?_⟩
      · cases ht
      have hlog : pushes .preemptive (log ++ [.push k t]) =
          pushes .preemptive log ++ if k = .preemptive then [t] else [] := by
        rw [pushes, List.filterMap_append]
        cases k <;> rfl
      change t' ∈ pushes .preemptive (log ++ [.push k t]) at ht
      rw [hlog] at ht
      rcases List.mem_append.mp ht with hold | hnew
      · exact hpushed t' hold
      · cases k with
        | main => cases hnew
        | preemptive =>
          rw [List.mem_singleton.mp hnew]
          exact hreq t rfl
    | _ => cases hs

theorem Inv.mem_pushes (h : Inv w) {k : Ctx} {t : α × β} (ht : t ∈ starts k w.log) :
    t ∈ pushes k w.log :=
  (h.lane k).hold.started_of_pushed.subset ht

end Worker

namespace Coop

variable {query2 : α → Bool} {threshold : ℕ} {c c' : Coop α β}

/-- The worker keeps its invariant, and prioritized requests do not yield. -/
structure Inv (query2 : α → Bool) (c : Coop α β) : Prop where
  worker : c.worker.Inv
  pushed : ∀ t ∈ pushes .preemptive c.worker.log, query2 t.1 = false
  pushing : ∀ t, c.worker.scheduler.request = some (.preemptive, t) → query2 t.1 = false
  preemptive : c.query2 .preemptive = false
  main : c.worker.main = .run .preemptive → c.query2 .main = false
  swaps : ∀ p ∈ c.swaps, p.1 = p.2

theorem inv_init (query2 : α → Bool) (data : Ctx → ℕ → α × β) (size : Ctx → ℕ) (uif : Bool) :
    Inv query2 (init data size uif) := by
  refine ⟨Worker.inv_init data size uif, fun t ht => ?_, fun t ht => ?_, rfl, fun _ => rfl,
    fun p hp => ?_⟩
  · cases ht
  · cases ht
  · cases hp

theorem mem_starts_snoc {log : List (Event α β)} {x k : Ctx} {t : α × β} :
    t ∈ starts k (log ++ [.start x k t]) := by
  rw [starts, List.filterMap_append]
  refine List.mem_append_right _ ?_
  simp

theorem Inv.scheduler (h : Inv query2 c) {a : SchedulerAct α β} {w : Worker α β}
    (hok : Unyielding query2 c (.worker (.scheduler a)))
    (hs : c.worker.schedulerStep a = some w) : Inv query2 { c with worker := w } := by
  obtain ⟨hpushing, hpushed⟩ := Worker.schedulerStep_request (P := fun t => query2 t.1 = false) hs
    (fun t ht => by subst ht; exact hok) h.pushing h.pushed
  exact ⟨h.worker.schedulerStep hs, hpushed, hpushing, h.preemptive,
    fun hm => h.main (Worker.schedulerStep_main hs ▸ hm), h.swaps⟩

theorem Inv.mainStep (h : Inv query2 c) {b : Bool} {w : Worker α β}
    (hs : c.worker.step (.main b) = some w) :
    Inv query2 { c.after query2 (.main b) with worker := w } := by
  have hinv : w.Inv := h.worker.step hs
  obtain ⟨⟨hcur, -⟩, hs⟩ := Option.ite_none_right_eq_some.mp hs
  have hstep := Worker.mainStep_lane hcur hs
  have hpushed := hstep.pushes_eq .preemptive ▸ h.pushed
  have hpushing := hstep.scheduler ▸ h.pushing
  rw [after]
  split
  · next k t hmain =>
    refine ⟨hinv, hpushed, hpushing, ?_, fun hrun => ?_, h.swaps⟩
    · change Function.update c.query2 .main (query2 t.1) .preemptive = false
      rw [update_of_ne (by decide)]
      exact h.preemptive
    · change Function.update c.query2 .main (query2 t.1) .main = false
      rw [update_self]
      rcases Worker.mainStep_run hs hrun with ⟨t', hstart, hlog⟩ | hold
      · rw [hmain] at hstart
        cases hstart
        exact hpushed t (hinv.mem_pushes (by rw [hlog]; exact mem_starts_snoc))
      · cases hmain.symm.trans hold
  · next hmain =>
    refine ⟨hinv, hpushed, hpushing, h.preemptive, fun hrun => ?_, h.swaps⟩
    rcases Worker.mainStep_run hs hrun with ⟨t', hstart, -⟩ | hold
    · exact absurd hstart (hmain _ t')
    · exact h.main hold

theorem preemptiveStep_main {w w' : Worker α β} {b : Bool} (hs : w.preemptiveStep b = some w') :
    w'.main = w.main ∧
      ∀ t, w.preemptive = .start t → w'.log = w.log ++ [.start .preemptive .preemptive t] := by
  obtain ⟨queue, scheduler, cur, uif, tail, main, preemptive, log⟩ := w
  cases preemptive with
  | start t =>
    cases hs
    refine ⟨rfl, fun t' ht => ?_⟩
    cases ht
    rfl
  | popStore t i =>
    obtain ⟨q, -, rfl⟩ := Option.map_eq_some_iff.mp hs
    exact ⟨rfl, fun t' ht => by cases ht⟩
  | run =>
    cases b <;> cases hs <;> exact ⟨rfl, fun t' ht => by cases ht⟩
  | _ =>
    cases hs
    exact ⟨rfl, fun t' ht => by cases ht⟩

theorem Inv.preemptiveStep (h : Inv query2 c) {b : Bool} {w : Worker α β}
    (hs : c.worker.step (.preemptive b) = some w) :
    Inv query2 { c.after query2 (.preemptive b) with worker := w } := by
  have hinv : w.Inv := h.worker.step hs
  obtain ⟨hcur, hs⟩ := Option.ite_none_right_eq_some.mp hs
  have hstep := Worker.preemptiveStep_lane hcur (h.worker.control.cur_preemptive hcur).1 hs
  obtain ⟨hmain, hlog⟩ := preemptiveStep_main hs
  have hpushed := hstep.pushes_eq .preemptive ▸ h.pushed
  have hpushing := hstep.scheduler ▸ h.pushing
  rw [after]
  split
  · next t hpc =>
    refine ⟨hinv, hpushed, hpushing, ?_, fun hrun => ?_, h.swaps⟩
    · change Function.update c.query2 .preemptive (query2 t.1) .preemptive = false
      rw [update_self]
      exact hpushed t (hinv.mem_pushes (by rw [hlog t hpc]; exact mem_starts_snoc))
    · change Function.update c.query2 .preemptive (query2 t.1) .main = false
      rw [update_of_ne (by decide)]
      exact h.main (hmain ▸ hrun)
  · refine ⟨hinv, hpushed, hpushing, h.preemptive, fun hrun => h.main (hmain ▸ hrun),
      fun p hp => ?_⟩
    rcases List.mem_append.mp hp with hold | hnew
    · exact h.swaps p hold
    · rw [List.mem_singleton.mp hnew]
      exact hcur.symm
  · exact ⟨hinv, hpushed, hpushing, h.preemptive, fun hrun => h.main (hmain ▸ hrun), h.swaps⟩

theorem Inv.swapTailStep (h : Inv query2 c) {w : Worker α β}
    (hs : c.worker.swapTailStep = some w) : Inv query2 { c with worker := w } := by
  have hinv : w.Inv := h.worker.step (a := .swapTail) hs
  have hstep := (h.worker.control.swapTailStep hs).2
  have hmain : w.main = c.worker.main := by
    rw [Worker.swapTailStep] at hs
    split at hs
    · cases hs
    · cases hs
      rfl
    · cases hs
      rfl
  refine ⟨hinv, ?_, ?_, h.preemptive, fun hrun => h.main (hmain ▸ hrun), h.swaps⟩
  · rw [hstep.pushes_eq]
    exact h.pushed
  · rw [hstep.scheduler]
    exact h.pushing

theorem Inv.setCount (h : Inv query2 c) (count : Ctx → ℕ) :
    Inv query2 { c with count := count } :=
  ⟨h.worker, h.pushed, h.pushing, h.preemptive, h.main, h.swaps⟩

/-- The main context yields in a request of its own queue. -/
theorem Inv.yield (h : Inv query2 c) (hcur : c.worker.cur = .main) (htail : c.worker.tail = .none)
    (hrun : c.worker.main = .run .main) : Inv query2 (c.yield .main) := by
  have hpre := h.worker.control.cur_main hcur
  obtain ⟨hctl, hstep⟩ := h.worker.control.preempt hpre (by rw [hrun]; rfl) htail true
  refine ⟨h.worker.contextStep hctl hstep, h.pushed, h.pushing, h.preemptive, h.main,
    fun p hp => ?_⟩
  rcases List.mem_append.mp hp with hold | hnew
  · exact h.swaps p hold
  · rw [List.mem_singleton.mp hnew]

theorem Inv.access (h : Inv query2 c) (hs : step query2 threshold c .access = some c') :
    Inv query2 c' := by
  obtain ⟨hcond, hs⟩ := Option.ite_none_left_eq_some.mp hs
  cases hs
  simp only [not_or, not_not] at hcond
  obtain ⟨-, hin, hq⟩ := hcond
  cases hcur : c.worker.cur with
  | preemptive =>
    -- the preemptive context does not run a `Query2`
    rw [hcur, h.preemptive] at hq
    cases hq
  | main =>
    rw [hcur] at hq
    rw [inRun, hcur] at hin
    obtain ⟨k, hrun, htail⟩ : ∃ k, c.worker.main = .run k ∧ c.worker.tail = .none := by
      cases hm : c.worker.main with
      | run k =>
        rw [hm] at hin
        exact ⟨k, rfl, of_decide_eq_true hin⟩
      | _ =>
        rw [hm] at hin
        cases hin
    rw [record]
    split
    · cases k with
      | main => exact (h.setCount _).yield hcur htail hrun
      | preemptive =>
        rw [h.main hrun] at hq
        cases hq
    · exact h.setCount _

theorem Inv.step (h : Inv query2 c) {a : CoopAct α β} (hok : Unyielding query2 c a)
    (hs : step query2 threshold c a = some c') : Inv query2 c' := by
  cases a with
  | worker a =>
    obtain ⟨hcond, hs⟩ := Option.ite_none_left_eq_some.mp hs
    obtain ⟨w, hw, rfl⟩ := Option.map_eq_some_iff.mp hs
    cases a with
    | scheduler a => exact h.scheduler hok hw
    | main b => exact h.mainStep hw
    | preemptive b => exact h.preemptiveStep hw
    | swapTail => exact h.swapTailStep hw
    | interrupt locked => exact absurd (.inr rfl) hcond
  | access => exact h.access hs
  | retry =>
    obtain ⟨-, hs⟩ := Option.ite_none_left_eq_some.mp hs
    cases hs
    exact h.setCount _

end Coop

/-- **Exactly-once scheduling under cooperative yielding.**  If no `Query2` is pushed to the
preemptive queue: the started requests of each queue are those pushed first, in order; they are
started and popped in rounds, the queue is not empty when it is popped, and the first argument of
`swap_context` is the context that runs. -/
theorem yield_exactly_once {query2 : α → Bool} {threshold : ℕ} {data : Ctx → ℕ → α × β}
    {size : Ctx → ℕ} {uif : Bool} {as : List (CoopAct α β)} {c : Coop α β}
    (hr : run (Coop.step query2 threshold) (Coop.init data size uif) as = some c)
    (hok : Along (Coop.step query2 threshold) (Unyielding query2)
      (Coop.init data size uif) as) :
    (∀ k, starts k c.worker.log <+: pushes k c.worker.log) ∧
      (∀ k, InRounds (served k c.worker.log)) ∧ ∀ p ∈ c.swaps, p.1 = p.2 := by
  have h : Coop.Inv query2 c := run_invariant_along (I := Coop.Inv query2)
    (fun hok hs h => h.step hok hs) hok hr (Coop.inv_init query2 data size uif)
  exact ⟨fun k => (h.worker.lane k).hold.started_of_pushed,
    fun k => (h.worker.lane k).hold.inRounds, h.swaps⟩

/-- A `Query2` of the main queue yields, and the preemptive context starts a request. -/
def yieldRun : List (CoopAct ℕ ℕ) :=
  [.worker (.scheduler (.pushMain (2, 5))), .worker (.scheduler .write),
   .worker (.scheduler .write), .worker (.scheduler .write),
   .worker (.main true), .worker (.main true), .worker (.main true), .worker (.main true),
   .worker (.main false), .worker (.main true), .worker (.main true), .worker (.main true),
   .worker (.main true),
   .worker (.scheduler (.pushPreemptive (1, 10))), .worker (.scheduler .write),
   .worker (.scheduler .write), .worker (.scheduler .write),
   .access,
   .worker (.preemptive true), .worker (.preemptive true), .worker (.preemptive false),
   .worker (.preemptive true), .worker (.preemptive true), .worker (.preemptive true),
   .worker (.preemptive true), .worker (.preemptive true)]

/-- Workload 2 is `Query2`. -/
def isQuery2 (i : ℕ) : Bool := i = 2

theorem yield_exactly_once_yieldRun :
    ∃ c, run (Coop.step isQuery2 0) (Coop.init (fun _ _ => (0, 0)) (fun _ => 1) true)
        yieldRun = some c ∧
      c.worker.log = [.push .main (2, 5), .start .main .main (2, 5), .push .preemptive (1, 10),
        .pop .preemptive .preemptive false, .start .preemptive .preemptive (1, 10)] ∧
      starts .preemptive c.worker.log <+: pushes .preemptive c.worker.log ∧
      ∀ p ∈ c.swaps, p.1 = p.2 := by
  have hlog : (run (Coop.step isQuery2 0) (Coop.init (fun _ _ => (0, 0)) (fun _ => 1) true)
      yieldRun).map (fun c => c.worker.log) = some [.push .main (2, 5),
        .start .main .main (2, 5), .push .preemptive (1, 10),
        .pop .preemptive .preemptive false, .start .preemptive .preemptive (1, 10)] := by
    decide +kernel
  obtain ⟨c, hc, hlog⟩ := Option.map_eq_some_iff.mp hlog
  obtain ⟨hstarts, -, hswaps⟩ := yield_exactly_once hc (by decide +kernel)
  exact ⟨c, hc, hlog, hstarts _, hswaps⟩

/-- The main context serves a prioritized `Query2`, which yields; the preemptive context finds the
request still in the queue and starts it again. -/
def twiceRun : List (CoopAct ℕ ℕ) :=
  [.worker (.scheduler (.pushPreemptive (2, 5))), .worker (.scheduler .write),
   .worker (.scheduler .write), .worker (.scheduler .write),
   .worker (.main true), .worker (.main true), .worker (.main true), .worker (.main true),
   .worker (.main false), .worker (.main true), .worker (.main true), .worker (.main true),
   .access, .access,
   .worker (.preemptive true), .worker (.preemptive true), .worker (.preemptive false),
   .worker (.preemptive true), .worker (.preemptive true), .worker (.preemptive true),
   .worker (.preemptive true), .worker (.preemptive true)]

/-- The preemptive context reads one record, finishes and goes back, and the main context pops. -/
def popTwice : List (CoopAct ℕ ℕ) :=
  [.access, .worker (.preemptive true), .worker (.preemptive true), .worker (.preemptive true),
   .worker (.preemptive true), .worker (.preemptive true), .worker .swapTail, .worker .swapTail,
   .worker (.main true), .worker (.main true), .worker (.main true)]

/-- The request is started twice and popped twice, the second time from an empty queue; and if it
yields again in the preemptive context, that is a swap away from the main context, which does not
run. -/
theorem prioritized_query2 :
    (∃ c, run (Coop.step isQuery2 1) (Coop.init (fun _ _ => (0, 0)) (fun _ => 1) true)
        (twiceRun ++ popTwice) = some c ∧
      pushes .preemptive c.worker.log = [(2, 5)] ∧
      starts .preemptive c.worker.log = [(2, 5), (2, 5)] ∧
      Event.pop .main .preemptive true ∈ c.worker.log) ∧
    ∃ c, run (Coop.step isQuery2 1) (Coop.init (fun _ _ => (0, 0)) (fun _ => 1) true)
        (twiceRun ++ [.access, .access]) = some c ∧ (Ctx.main, Ctx.preemptive) ∈ c.swaps := by
  constructor
  · have hlog : (run (Coop.step isQuery2 1)
        (Coop.init (fun _ _ => (0, 0)) (fun _ => 1) true) (twiceRun ++ popTwice)).map
          (fun c => (pushes .preemptive c.worker.log, starts .preemptive c.worker.log,
            decide (Event.pop .main .preemptive true ∈ c.worker.log))) =
        some ([(2, 5)], [(2, 5), (2, 5)], true) := by decide +kernel
    obtain ⟨c, hc, hlog⟩ := Option.map_eq_some_iff.mp hlog
    simp only [Prod.mk.injEq, decide_eq_true_eq] at hlog
    exact ⟨c, hc, hlog⟩
  · have hswaps : (run (Coop.step isQuery2 1)
        (Coop.init (fun _ _ => (0, 0)) (fun _ => 1) true) (twiceRun ++ [.access, .access])).map
          Coop.swaps = some [(.main, .main), (.main, .preemptive)] := by decide +kernel
    obtain ⟨c, hc, hswaps⟩ := Option.map_eq_some_iff.mp hswaps
    refine ⟨c, hc, ?_⟩
    rw [hswaps]
    decide

end PreemptDB.Scheduling
