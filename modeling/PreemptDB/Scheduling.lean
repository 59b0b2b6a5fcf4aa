/-
A worker and its scheduler under the preemptive policy (`tpcc-sequential.cc`,
`bench.cc`).

The scheduler thread fills two queues.  The main context of the worker serves
both in its loop; the preemptive context, entered by a user interrupt, serves
the preemptive queue until it is empty or the main context is starved.  Both
run on one thread, so a step belongs to the context that is running, and the
interrupt flag decides where it can change.

* `Worker` — queues, program counters, interrupt flag, and a log of what
  happened;
* `Worker.step` — one access to shared data, or one change of the flag;
* `pushes`, `starts`, `served`, `running` — what the log says.
-/
import PreemptDB.ContextSwitch
import PreemptDB.OneToOneQueue
import PreemptDB.StepRun

namespace PreemptDB.Scheduling

variable {α β : Type*}

/-- Events of the log.  A queue is named after the context that it is for, `c` is
the context that acts, and `empty` is what the queue was when `pop` was applied. -/
inductive Event (α β : Type*)
  | push (queue : Ctx) (request : α × β)
  | start (c queue : Ctx) (request : α × β)
  | pop (c queue : Ctx) (empty : Bool)
  | finish (c queue : Ctx)
  deriving DecidableEq

/-- The scheduler, in `push` of a queue or between two of them. -/
inductive SchedulerPc (α β : Type*)
  | idle
  | writeFirst (queue : Ctx) (request : α × β)
  | writeSecond (queue : Ctx) (request : α × β)
  | advance (queue : Ctx) (request : α × β)
  deriving DecidableEq

/-- The loop of `MyWork`. -/
inductive MainPc (α β : Type*)
  | loop
  | clui
  | statPreemptive
  | statMain (p : Bool)
  | statStarved (p m : Bool)
  | frontFirst (queue : Ctx)
  | frontSecond (queue : Ctx) (i : ℕ) (a : α)
  | stui (request : α × β)
  | start (queue : Ctx) (request : α × β)
  | run (queue : Ctx)
  | popLoad (queue : Ctx)
  | popStore (queue : Ctx) (i : ℕ)
  | exit
  deriving DecidableEq

/-- `do_preemptive_transaction` -/
inductive PreemptivePc (α β : Type*)
  | clui
  | checkEmpty
  | checkStarved
  | swapClui
  | swapSwitch
  | frontFirst
  | frontSecond (i : ℕ) (a : α)
  | popLoad (request : α × β)
  | popStore (request : α × β) (i : ℕ)
  | start (request : α × β)
  | run
  deriving DecidableEq

/-- The last instructions of `swap_context`, on the stack of the main context. -/
inductive SwapTail
  | none | stui | jmp
  deriving DecidableEq

/-- A worker thread with its queues, and the scheduler. -/
structure Worker (α β : Type*) where
  queue : Ctx → OneToOneQueue α β
  scheduler : SchedulerPc α β
  /-- the context that runs -/
  cur : Ctx
  uif : Bool
  tail : SwapTail
  main : MainPc α β
  preemptive : PreemptivePc α β
  log : List (Event α β)

/-- What the scheduler does next: it pushes to the main queue if that is not
full, or if it is empty, and to the preemptive queue if that is not full. -/
inductive SchedulerAct (α β : Type*)
  | pushMain (request : α × β)
  | pushMainIfEmpty (request : α × β)
  | pushPreemptive (request : α × β)
  | write
  deriving DecidableEq

/-- Steps.  The Boolean is what `running`, `starved()` or the end of a transaction
turn out to be where the code asks; `locked` is the lock counter at an interrupt. -/
inductive WorkerAct (α β : Type*)
  | scheduler (a : SchedulerAct α β)
  | main (b : Bool)
  | preemptive (b : Bool)
  | swapTail
  | interrupt (locked : Bool)
  deriving DecidableEq

/-- `stat = [starved, main_queue_not_empty, preemptive_queue_not_empty]` -/
def stat (p m starved : Bool) : ℕ :=
  (if p then 1 else 0) ||| (if m then 1 <<< 1 else 0) ||| (if starved then 1 <<< 2 else 0)

/-- The branches of the loop of `MyWork`. -/
def dispatch (stat : ℕ) : MainPc α β :=
  if stat = 0b000 ∨ stat = 0b100 then .loop
  else if stat = 0b001 ∨ stat = 0b011 ∨ stat = 0b101 then .frontFirst .preemptive
  else .frontFirst .main

namespace Worker

/-- The worker before its loop; user interrupts may be masked or not. -/
def init (data : Ctx → ℕ → α × β) (size : Ctx → ℕ) (uif : Bool) : Worker α β where
  queue k := .init (data k) (size k)
  scheduler := .idle
  cur := .main
  uif := uif
  tail := .none
  main := .loop
  preemptive := .clui
  log := []

def setQueue (w : Worker α β) (k : Ctx) (q : OneToOneQueue α β) : Worker α β :=
  { w with queue := Function.update w.queue k q }

def emit (w : Worker α β) (e : Event α β) : Worker α β := { w with log := w.log ++ [e] }

def schedulerStep (w : Worker α β) (a : SchedulerAct α β) : Option (Worker α β) :=
  match w.scheduler, a with
  | .idle, .pushMain t =>
    if (w.queue .main).isFull = some false then some { w with scheduler := .writeFirst .main t }
    else none
  | .idle, .pushMainIfEmpty t =>
    if (w.queue .main).isEmpty then some { w with scheduler := .writeFirst .main t } else none
  | .idle, .pushPreemptive t =>
    if (w.queue .preemptive).isFull = some false then
      some { w with scheduler := .writeFirst .preemptive t }
    else none
  | .writeFirst k t, .write =>
    some { w.setQueue k ((w.queue k).writeFirst t.1) with scheduler := .writeSecond k t }
  | .writeSecond k t, .write =>
    some { w.setQueue k ((w.queue k).writeSecond t.2) with scheduler := .advance k t }
  | .advance k t, .write =>
    (w.queue k).advance.map fun q => { (w.setQueue k q).emit (.push k t) with scheduler := .idle }
  | _, _ => none

def mainStep (w : Worker α β) (b : Bool) : Option (Worker α β) :=
  match w.main with
  | .loop => some { w with main := if b then .clui else .exit }
  | .clui => some { w with uif := false, main := .statPreemptive }
  | .statPreemptive => some { w with main := .statMain (!(w.queue .preemptive).isEmpty) }
  | .statMain p => some { w with main := .statStarved p (!(w.queue .main).isEmpty) }
  | .statStarved p m => some { w with main := dispatch (stat p m b) }
  | .frontFirst k =>
    let i := (w.queue k).startIdx
    some { w with main := .frontSecond k i ((w.queue k).data i).1 }
  | .frontSecond k i a =>
    let t := (a, ((w.queue k).data i).2)
    match k with
    | .main => some { w with main := .stui t }
    | .preemptive => some { w with main := .start .preemptive t }
  | .stui t => some { w with uif := true, main := .start .main t }
  | .start k t => some { w.emit (.start .main k t) with main := .run k }
  | .run k => if b then some { w.emit (.finish .main k) with main := .popLoad k } else some w
  | .popLoad k => some { w with main := .popStore k (w.queue k).startIdx }
  | .popStore k i =>
    ((w.queue k).popStore i).map fun q =>
      { (w.setQueue k q).emit (.pop .main k (w.queue k).isEmpty) with main := .loop }
  | .exit => none

def preemptiveStep (w : Worker α β) (b : Bool) : Option (Worker α β) :=
  let q := w.queue .preemptive
  match w.preemptive with
  | .clui => some { w with uif := false, preemptive := .checkEmpty }
  | .checkEmpty => some { w with preemptive := if q.isEmpty then .swapClui else .checkStarved }
  | .checkStarved => some { w with preemptive := if b then .swapClui else .frontFirst }
  | .swapClui => some { w with uif := false, preemptive := .swapSwitch }
  | .swapSwitch => some { w with cur := .main, tail := .stui, preemptive := .clui }
  | .frontFirst => some { w with preemptive := .frontSecond q.startIdx (q.data q.startIdx).1 }
  | .frontSecond i a => some { w with preemptive := .popLoad (a, (q.data i).2) }
  | .popLoad t => some { w with preemptive := .popStore t q.startIdx }
  | .popStore t i =>
    (q.popStore i).map fun q' =>
      { (w.setQueue .preemptive q').emit (.pop .preemptive .preemptive q.isEmpty) with
        preemptive := .start t }
  | .start t => some { w.emit (.start .preemptive .preemptive t) with preemptive := .run }
  | .run =>
    if b then some { w.emit (.finish .preemptive .preemptive) with preemptive := .clui }
    else some w

def swapTailStep (w : Worker α β) : Option (Worker α β) :=
  match w.tail with
  | .none => none
  | .stui => some { w with uif := true, tail := .jmp }
  | .jmp => some { w with tail := .none }

/-- A user interrupt: the quick exit inside `swap_context`, and `handler_helper`
otherwise. -/
def interruptStep (w : Worker α β) (locked : Bool) : Option (Worker α β) :=
  if w.uif then
    if w.tail ≠ .none ∨ locked then some w else some { w with cur := .preemptive }
  else none

def step (w : Worker α β) : WorkerAct α β → Option (Worker α β)
  | .scheduler a => w.schedulerStep a
  | .main b => if w.cur = .main ∧ w.tail = .none then w.mainStep b else none
  | .preemptive b => if w.cur = .preemptive then w.preemptiveStep b else none
  | .swapTail => w.swapTailStep
  | .interrupt locked => w.interruptStep locked

end Worker

/-- What a context did to a queue. -/
inductive Serve (α β : Type*)
  | start (c : Ctx) (request : α × β)
  | pop (c : Ctx) (empty : Bool)
  deriving DecidableEq

/-- The requests pushed to a queue. -/
def pushes (k : Ctx) (log : List (Event α β)) : List (α × β) :=
  log.filterMap fun
    | .push k' t => if k' = k then some t else none
    | _ => none

/-- The requests of a queue that were started. -/
def starts (k : Ctx) (log : List (Event α β)) : List (α × β) :=
  log.filterMap fun
    | .start _ k' t => if k' = k then some t else none
    | _ => none

/-- The starts and pops on a queue. -/
def served (k : Ctx) (log : List (Event α β)) : List (Serve α β) :=
  log.filterMap fun
    | .start c k' t => if k' = k then some (.start c t) else none
    | .pop c k' e => if k' = k then some (.pop c e) else none
    | _ => none

/-- The context `c` has started a request and not finished it. -/
def running (c : Ctx) (log : List (Event α β)) : Bool :=
  log.foldl (fun r e => match e with
    | .start c' _ _ => if c' = c then true else r
    | .finish c' _ => if c' = c then false else r
    | _ => r) false

end PreemptDB.Scheduling
