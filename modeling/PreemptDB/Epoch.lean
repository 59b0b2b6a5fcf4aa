/-
The epoch manager (`dbcore/epoch.cpp`).

A step is one access to a shared field, or a lock, an unlock or a callback; the
threads take steps in any order.  Cookies are named after the epoch they were
returned for, and a callback may also return NULL.

* `Pc` — where a thread is in the functions of the manager;
* `State` — the fields of the manager, the contexts and the threads;
* `step` — calls and steps.

Three components are ghosts: `region` is the epoch that was reported to a context
when its critical region began, `log` has the cookies in the order in which
`epoch_reclaimed` was called for them, and `opened` is the last return value of
`new_epoch`.  The first registration creates the manager, so that it is there
from the start.
-/
import PreemptDB.StepRun

namespace PreemptDB

open Function

namespace Epoch

/-- `context_state`; a context is initialized if it is in `contexts`. -/
structure Ctx where
  beginEpoch : ℕ
  endEpoch : ℕ
  straggler : Bool
  deriving DecidableEq

/-- `context_is_active` -/
def Ctx.active (c : Ctx) : Prop := c.endEpoch < c.beginEpoch

instance (c : Ctx) : Decidable c.active := inferInstanceAs (Decidable (_ < _))

/-- Where `straggler_check`, `global_quiesce` and `context_exit` go on. -/
inductive Cont
  /-- `goto retry` in `context_enter` -/
  | retry
  /-- return to the caller -/
  | done
  /-- the end of `context_quiesce` -/
  | moved
  /-- `context_fini` -/
  | fini
  deriving DecidableEq

/-- The next access of a thread; the arguments are local variables. -/
inductive Pc (ι : Type*)
  | idle
  -- context_enter
  | enterRead
  | enterEnd (tmp : ℕ)
  | enterBegin (tmp : ℕ)
  | enterCheck (tmp : ℕ)
  | enterLate (tmp2 : ℕ) (check : Bool)
  | enterFlag (tmp tmp2 : ℕ)
  -- straggler_check, straggler_ended
  | checkEnd (tmp : ℕ) (k : Cont)
  | checkLock (k : Cont)
  | checkUnlock (k : Cont)
  | checkFlag (k : Cont)
  | checkClear (k : Cont)
  | ended (k : Cont)
  -- global_quiesce
  | quiesceSwap (k : Cont)
  | quiesceStore (cookie : Option ℕ) (k : Cont)
  | reclaimed (cookie : ℕ) (k : Cont)
  | quiesceReady (k : Cont)
  -- context_quiesce
  | moveClear
  | moveEnd
  | moveRead
  | moveBegin (tmp : ℕ)
  -- context_exit
  | exitRead (k : Cont)
  | exitEnd (tmp : ℕ) (k : Cont)
  | exitCheck (k : Cont)
  -- context_init
  | initLock
  | initInsert
  | initUnlock
  -- context_fini
  | finiLock
  | finiErase
  | finiRead
  | finiEnd (n : ℕ)
  | finiBegin (n : ℕ)
  | finiCookie (n : ℕ)
  | finiSwap (active : Option ℕ)
  | finiStore (active cooling : Option ℕ)
  | finiUnlock (cookies : List ℕ)
  | finiReclaim (cookies : List ℕ)
  | finiCall (cookie : ℕ) (cookies : List ℕ)
  -- new_epoch
  | newLock
  | newReady
  | newRead
  | newBegin (n : ℕ)
  | newUnready (n : ℕ)
  | newEnded (n : ℕ)
  | newScan (n : ℕ) (cookie : Option ℕ) (todo found : Finset ι)
  | newScanEnd (n : ℕ) (cookie : Option ℕ) (todo found : Finset ι) (t : ι) (b : ℕ)
  | newCooling (n : ℕ) (cookie : Option ℕ) (found : Finset ι)
  | newCold (n : ℕ) (cookie : Option ℕ) (found : Finset ι) (cooling : Option ℕ)
  | newCookie (n : ℕ) (cookie : Option ℕ) (found : Finset ι)
  | newCount (n : ℕ) (found : Finset ι)
  | newFlag (n : ℕ) (todo : Finset ι)
  | newEnd (n : ℕ) (direct : Bool)
  | newUnlock (ok direct : Bool)

/-- `private_state`, the contexts and the threads. -/
structure State (ι : Type*) where
  beginEpoch : ℕ
  endEpoch : ℕ
  ready : Bool
  nstragglers : ℕ
  contexts : Finset ι
  cooling : Option ℕ
  cold : Option ℕ
  mutex : Option ι
  ctx : ι → Ctx
  pc : ι → Pc ι
  region : ι → Option ℕ
  opened : ι → Bool
  log : List ℕ

/-- The functions of the manager. -/
inductive Call
  | enter
  | exit
  | quiesce
  | init
  | fini
  | newEpoch
  deriving DecidableEq

/-- A thread calls a function or takes a step.  `pick` is the next context in a loop
over contexts; `cookie` says whether a callback returns a cookie. -/
inductive Act (ι : Type*)
  | call (i : ι) (f : Call)
  | step (i pick : ι) (cookie : Bool)

/-- What a callback returns for epoch `n`. -/
def cookieOf (n : ℕ) (cookie : Bool) : Option ℕ := if cookie then some n else none

namespace State

variable {ι : Type*} [DecidableEq ι]

/-- A new manager. -/
def init : State ι where
  beginEpoch := 1
  endEpoch := 1
  ready := true
  nstragglers := 0
  contexts := ∅
  cooling := none
  cold := none
  mutex := none
  ctx _ := ⟨0, 0, false⟩
  pc _ := .idle
  region _ := none
  opened _ := false
  log := []

def goto (s : State ι) (i : ι) (p : Pc ι) : State ι := { s with pc := update s.pc i p }

def setCtx (s : State ι) (i : ι) (c : Ctx) : State ι := { s with ctx := update s.ctx i c }

def setBegin (s : State ι) (i : ι) (e : ℕ) : State ι :=
  s.setCtx i { s.ctx i with beginEpoch := e }

def setEnd (s : State ι) (i : ι) (e : ℕ) : State ι := s.setCtx i { s.ctx i with endEpoch := e }

def setStraggler (s : State ι) (i : ι) (b : Bool) : State ι :=
  s.setCtx i { s.ctx i with straggler := b }

def setRegion (s : State ι) (i : ι) (r : Option ℕ) : State ι :=
  { s with region := update s.region i r }

/-- A thread goes on when it gets the mutex. -/
def lock (s : State ι) (i : ι) (p : Pc ι) : Option (State ι) :=
  if s.mutex = none then some ({ s with mutex := some i }.goto i p) else none

def unlock (s : State ι) (i : ι) (p : Pc ι) : State ι := { s with mutex := none }.goto i p

/-- Return from a helper function. -/
def resume (s : State ι) (i : ι) : Cont → State ι
  | .retry => s.goto i .enterRead
  | .done => s.goto i .idle
  | .moved => (s.setRegion i (some (s.ctx i).beginEpoch)).goto i .idle
  | .fini => s.goto i .finiLock

/-- `epoch_reclaimed` is called. -/
def reclaim (s : State ι) (n : ℕ) : State ι := { s with log := s.log ++ [n] }

/-- A call; the checks at the start of the functions are tests of the thread's own
fields.  `context_quiesce` looks at `straggler` first. -/
def call (s : State ι) (i : ι) : Call → Option (State ι)
  | .enter =>
    if i ∈ s.contexts ∧ ¬ (s.ctx i).active then some (s.goto i .enterRead) else none
  | .exit =>
    if i ∈ s.contexts ∧ (s.ctx i).active then
      some ((s.setRegion i none).goto i (.exitRead .done))
    else none
  | .quiesce =>
    if i ∈ s.contexts ∧ (s.ctx i).active then
      if (s.ctx i).straggler then some ((s.setRegion i none).goto i .moveClear) else some s
    else none
  | .init => if i ∉ s.contexts then some (s.goto i .initLock) else none
  | .fini =>
    if i ∈ s.contexts then
      if (s.ctx i).active then some ((s.setRegion i none).goto i (.exitRead .fini))
      else some (s.goto i .finiLock)
    else none
  | .newEpoch => if i ∈ s.contexts then some (s.goto i .newLock) else none

/-- A step of `context_enter`, `straggler_check`, `context_quiesce` or `context_exit`. -/
def stepContext (s : State ι) (i : ι) : Pc ι → Option (State ι)
  | .enterRead => some (s.goto i (.enterEnd s.beginEpoch))
  | .enterEnd tmp => some ((s.setEnd i 0).goto i (.enterBegin tmp))
  | .enterBegin tmp => some ((s.setBegin i tmp).goto i (.enterCheck tmp))
  | .enterCheck tmp =>
    -- raced?
    let tmp2 := s.beginEpoch
    if tmp2 - tmp ≤ 1 then some (s.goto i (.enterFlag tmp tmp2))
    else some (s.goto i (.enterLate tmp2 (tmp2 - tmp = 2)))
  | .enterLate tmp2 check =>
    some ((s.setEnd i tmp2).goto i (if check then .checkEnd tmp2 .retry else .enterRead))
  | .enterFlag tmp tmp2 =>
    if (s.ctx i).straggler then some (s.goto i (.enterLate tmp2 true))
    else some ((s.setRegion i (some tmp)).goto i .idle)
  | .checkEnd tmp k =>
    -- wait for the epoch change to complete
    some (s.goto i (if s.endEpoch < tmp then .checkLock k else .checkFlag k))
  | .checkLock k => s.lock i (.checkUnlock k)
  | .checkUnlock k => some (s.unlock i (.checkFlag k))
  | .checkFlag k =>
    if (s.ctx i).straggler then some (s.goto i (.checkClear k)) else some (s.resume i k)
  | .checkClear k => some ((s.setStraggler i false).goto i (.ended k))
  | .ended k =>
    let s' := { s with nstragglers := s.nstragglers - 1 }
    some (if s'.nstragglers = 0 then s'.goto i (.quiesceSwap k) else s'.resume i k)
  | .quiesceSwap k => some (s.goto i (.quiesceStore s.cold k))
  | .quiesceStore cookie k =>
    let s' := { s with cold := none }
    some (match cookie with
      | some n => (s'.reclaim n).goto i (.reclaimed n k)
      | none => s'.goto i (.quiesceReady k))
  | .reclaimed _ k => some (s.goto i (.quiesceReady k))
  | .quiesceReady k => some ({ s with ready := true }.resume i k)
  | .moveClear => some ((s.setStraggler i false).goto i .moveEnd)
  | .moveEnd => some ((s.setEnd i 0).goto i .moveRead)
  | .moveRead => some (s.goto i (.moveBegin s.beginEpoch))
  | .moveBegin tmp => some ((s.setBegin i tmp).goto i (.ended .moved))
  | .exitRead k => some (s.goto i (.exitEnd s.beginEpoch k))
  | .exitEnd tmp k =>
    some ((s.setEnd i tmp).goto i
      (if tmp < (s.ctx i).beginEpoch + 2 then .exitCheck k else .checkEnd tmp k))
  | .exitCheck k =>
    let tmp := s.endEpoch
    some (if tmp < (s.ctx i).beginEpoch + 2 then s.resume i k else s.goto i (.checkEnd tmp k))
  | _ => none

/-- A step of `context_init` or `context_fini`. -/
def stepRegistry (s : State ι) (i : ι) (cookie : Bool) : Pc ι → Option (State ι)
  | .initLock => s.lock i .initInsert
  | .initInsert => some ({ s with contexts := insert i s.contexts }.goto i .initUnlock)
  | .initUnlock => some (s.unlock i .idle)
  | .finiLock => s.lock i .finiErase
  | .finiErase =>
    let s' := { s with contexts := s.contexts.erase i }
    some (s'.goto i (if s'.contexts = ∅ then .finiRead else .finiUnlock []))
  | .finiRead => some (s.goto i (.finiEnd s.beginEpoch))
  | .finiEnd n => some ({ s with endEpoch := n + 1 }.goto i (.finiBegin n))
  | .finiBegin n => some ({ s with beginEpoch := n + 1 }.goto i (.finiCookie n))
  | .finiCookie n => some (s.goto i (.finiSwap (cookieOf n cookie)))
  | .finiSwap active => some (s.goto i (.finiStore active s.cooling))
  | .finiStore active cooling =>
    some ({ s with cooling := none }.goto i (.finiUnlock (cooling.toList ++ active.toList)))
  | .finiUnlock cookies => some (s.unlock i (.finiReclaim cookies))
  | .finiReclaim [] => some (s.goto i .idle)
  | .finiReclaim (n :: cookies) => some ((s.reclaim n).goto i (.finiCall n cookies))
  | .finiCall _ cookies => some (s.goto i (.finiReclaim cookies))
  | _ => none

/-- A step of `new_epoch`; the direct reclamation comes after the mutex is released. -/
def stepNew (s : State ι) (i pick : ι) (cookie : Bool) : Pc ι → Option (State ι)
  | .newLock => s.lock i .newReady
  | .newReady => some (s.goto i (if s.ready then .newRead else .newUnlock false false))
  | .newRead => some (s.goto i (.newBegin s.beginEpoch))
  | .newBegin n => some ({ s with beginEpoch := n + 1 }.goto i (.newUnready n))
  | .newUnready n => some ({ s with ready := false }.goto i (.newEnded n))
  | .newEnded n => some (s.goto i (.newScan n (cookieOf n cookie) s.contexts ∅))
  | .newScan n c todo found =>
    if todo = ∅ then some (s.goto i (.newCooling n c found))
    else if pick ∈ todo then
      some (s.goto i (.newScanEnd n (cookieOf n cookie) (todo.erase pick) found pick
        (s.ctx pick).beginEpoch))
    else none
  | .newScanEnd n c todo found t b =>
    -- a straggler from epoch `n - 1`?
    some (s.goto i (.newScan n c todo
      (if b = n - 1 ∧ (s.ctx t).endEpoch < b then insert t found else found)))
  | .newCooling n c found => some (s.goto i (.newCold n c found s.cooling))
  | .newCold n c found cooling => some ({ s with cold := cooling }.goto i (.newCookie n c found))
  | .newCookie n c found => some ({ s with cooling := c }.goto i (.newCount n found))
  | .newCount n found =>
    if found = ∅ then some (s.goto i (.newEnd n true))
    else some ({ s with nstragglers := found.card }.goto i (.newFlag n found))
  | .newFlag n todo =>
    if todo = ∅ then some (s.goto i (.newEnd n false))
    else if pick ∈ todo then
      some ((s.setStraggler pick true).goto i (.newFlag n (todo.erase pick)))
    else none
  | .newEnd n direct => some ({ s with endEpoch := n + 1 }.goto i (.newUnlock true direct))
  | .newUnlock ok direct =>
    some ({ s with opened := update s.opened i ok }.unlock i
      (if direct then .quiesceSwap .done else .idle))
  | _ => none

def step (s : State ι) : Act ι → Option (State ι)
  | .call i f =>
    match s.pc i with
    | .idle => s.call i f
    | _ => none
  | .step i pick cookie =>
    (s.stepContext i (s.pc i)).or
      ((s.stepRegistry i cookie (s.pc i)).or (s.stepNew i pick cookie (s.pc i)))

end State

end Epoch

end PreemptDB
