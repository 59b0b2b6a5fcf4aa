/-
Every request is started once, in order.

A queue on its own is a `Lane`: what was pushed, how much was popped, what was
started, and how far a context has come with the request at the front.  A
step of the worker is a `Lane.Move` of one queue or does not concern it; this
rests on the interrupt flag, which keeps one context out while the other one
has its hands on the preemptive queue.

* `Lane.Move.ok` — the moves keep a lane in order;
* `Control` — where interrupts are masked;
* `Worker.Inv` — what holds along every run;
* `exactly_once` — the result;
* `Shows.interrupt`, `Shows.swap` — interrupts and `swap_context` are those of the
  machine.
-/
import PreemptDB.Scheduling
import PreemptDB.Transparency

namespace PreemptDB.Scheduling

variable {α β : Type*}

/-- How far a context has come with the front of a queue.  The main context runs
a request and pops it; the preemptive one pops it and runs it. -/
inductive Hold (α β : Type*)
  | idle
  | front
  | first (i : ℕ) (a : α)
  | request (t : α × β)
  | started
  | storing (i : ℕ)
  | popping (t : α × β) (i : ℕ)
  | popped (t : α × β)

/-- A queue and its history. -/
structure Lane (α β : Type*) where
  queue : OneToOneQueue α β
  pushed : List (α × β)
  popped : ℕ
  started : List (α × β)
  served : List (Serve α β)
  hold : Hold α β

/-- Each request is started and popped by one context, and the queue is not
empty when it is popped. -/
inductive Rounds : List (Serve α β) → Prop
  | nil : Rounds []
  | main {l : List (Serve α β)} (h : Rounds l) (t : α × β) :
      Rounds (l ++ [.start .main t, .pop .main false])
  | preemptive {l : List (Serve α β)} (h : Rounds l) (t : α × β) :
      Rounds (l ++ [.pop .preemptive false, .start .preemptive t])

/-- Complete rounds, and possibly the first half of the next one. -/
def InRounds (l : List (Serve α β)) : Prop :=
  ∃ r, Rounds r ∧ (l = r ∨ (∃ t, l = r ++ [.start .main t]) ∨ l = r ++ [.pop .preemptive false])

namespace Lane

/-- What a step of the worker may do to a queue. -/
inductive Move : Lane α β → Lane α β → Prop
  | test {l : Lane α β} (h : l.hold = .idle) (hne : l.queue.isEmpty = false) :
      Move l { l with hold := .front }
  | release {l : Lane α β} (h : l.hold = .front) : Move l { l with hold := .idle }
  | first {l : Lane α β} (h : l.hold = .front) :
      Move l { l with hold := .first l.queue.startIdx (l.queue.data l.queue.startIdx).1 }
  | second {l : Lane α β} {i : ℕ} {a : α} (h : l.hold = .first i a) :
      Move l { l with hold := .request (a, (l.queue.data i).2) }
  | startMain {l : Lane α β} {t : α × β} (h : l.hold = .request t) :
      Move l { l with
        started := l.started ++ [t]
        served := l.served ++ [.start .main t]
        hold := .started }
  | loadMain {l : Lane α β} (h : l.hold = .started) :
      Move l { l with hold := .storing l.queue.startIdx }
  | popMain {l : Lane α β} {i : ℕ} {q : OneToOneQueue α β} (h : l.hold = .storing i)
      (hq : l.queue.popStore i = some q) :
      Move l { l with
        queue := q
        popped := l.popped + 1
        served := l.served ++ [.pop .main l.queue.isEmpty]
        hold := .idle }
  | loadPreemptive {l : Lane α β} {t : α × β} (h : l.hold = .request t) :
      Move l { l with hold := .popping t l.queue.startIdx }
  | popPreemptive {l : Lane α β} {t : α × β} {i : ℕ} {q : OneToOneQueue α β}
      (h : l.hold = .popping t i) (hq : l.queue.popStore i = some q) :
      Move l { l with
        queue := q
        popped := l.popped + 1
        served := l.served ++ [.pop .preemptive l.queue.isEmpty]
        hold := .popped t }
  | startPreemptive {l : Lane α β} {t : α × β} (h : l.hold = .popped t) :
      Move l { l with
        started := l.started ++ [t]
        served := l.served ++ [.start .preemptive t]
        hold := .idle }

/-- There is a request at the front. -/
def Avail (l : Lane α β) : Prop := l.popped < l.pushed.length ∧ 1 < l.queue.capacity

/-- What was popped was started. -/
def Even (l : Lane α β) : Prop := l.started = l.pushed.take l.popped ∧ Rounds l.served

/-- The request at the front was started. -/
def Ahead (l : Lane α β) : Prop :=
  l.Avail ∧ l.started = l.pushed.take (l.popped + 1) ∧
    ∃ r t, Rounds r ∧ l.served = r ++ [.start .main t]

/-- What the context that holds the queue knows. -/
def HoldOk (l : Lane α β) : Prop :=
  match l.hold with
  | .idle => l.Even
  | .front => l.Even ∧ l.Avail
  | .first i a => l.Even ∧ l.Avail ∧ i = l.queue.startIdx ∧ ∃ b, l.pushed[l.popped]? = some (a, b)
  | .request t => l.Even ∧ l.Avail ∧ l.pushed[l.popped]? = some t
  | .popping t i => l.Even ∧ l.Avail ∧ i = l.queue.startIdx ∧ l.pushed[l.popped]? = some t
  | .started => l.Ahead
  | .storing i => l.Ahead ∧ i = l.queue.startIdx
  | .popped t =>
    ∃ n, l.popped = n + 1 ∧ l.pushed[n]? = some t ∧ l.started = l.pushed.take n ∧
      ∃ r, Rounds r ∧ l.served = r ++ [.pop .preemptive false]

structure Ok (l : Lane α β) : Prop where
  rep : l.queue.Rep l.pushed l.popped
  hold : l.HoldOk

variable {l l' : Lane α β}

/-- The front of the queue, read at `startIdx`. -/
theorem Ok.front_eq (hok : l.Ok) (havail : l.Avail) :
    l.pushed[l.popped]? = some (l.queue.data l.queue.startIdx) := by
  obtain ⟨t, ht⟩ : ∃ t, l.pushed[l.popped]? = some t := ⟨_, List.getElem?_eq_getElem havail.1⟩
  rw [ht, hok.rep.front_eq havail.2 ht]

theorem Move.ok (hm : Move l l') (hok : l.Ok) : l'.Ok := by
  have hold := hok.hold
  cases hm with
  | test h hne =>
    rw [HoldOk, h] at hold
    exact ⟨hok.rep, hold, hok.rep.nonempty hne⟩
  | release h =>
    rw [HoldOk, h] at hold
    exact ⟨hok.rep, hold.1⟩
  | first h =>
    rw [HoldOk, h] at hold
    exact ⟨hok.rep, hold.1, hold.2, rfl, _, hok.front_eq hold.2⟩
  | second h =>
    rw [HoldOk, h] at hold
    obtain ⟨heven, havail, rfl, b, hb⟩ := hold
    refine ⟨hok.rep, heven, havail, ?_⟩
    have hfront := hok.front_eq havail
    rw [hb, Option.some_inj] at hfront
    rw [← hfront]
    exact hb
  | startMain h =>
    rw [HoldOk, h] at hold
    obtain ⟨⟨hstarted, hrounds⟩, havail, ht⟩ := hold
    refine ⟨hok.rep, havail, ?_, _, _, hrounds, rfl⟩
    rw [List.take_add_one, ht, hstarted]
    rfl
  | loadMain h =>
    rw [HoldOk, h] at hold
    exact ⟨hok.rep, hold, rfl⟩
  | popMain h hq =>
    rw [HoldOk, h] at hold
    obtain ⟨⟨havail, hstarted, r, t, hr, hserved⟩, rfl⟩ := hold
    refine ⟨hok.rep.popStore havail.1 hq, hstarted, ?_⟩
    rw [hok.rep.not_isEmpty havail.1 havail.2, hserved, List.append_assoc]
    exact hr.main t
  | loadPreemptive h =>
    rw [HoldOk, h] at hold
    exact ⟨hok.rep, hold.1, hold.2.1, rfl, hold.2.2⟩
  | popPreemptive h hq =>
    rw [HoldOk, h] at hold
    obtain ⟨⟨hstarted, hrounds⟩, havail, rfl, ht⟩ := hold
    refine ⟨hok.rep.popStore havail.1 hq, l.popped, rfl, ht, hstarted, _, hrounds, ?_⟩
    rw [hok.rep.not_isEmpty havail.1 havail.2]
  | startPreemptive h =>
    rw [HoldOk, h] at hold
    obtain ⟨n, hn, ht, hstarted, r, hr, hserved⟩ := hold
    refine ⟨hok.rep, ?_, ?_⟩
    · rw [hn, List.take_add_one, ht, hstarted]
      rfl
    · rw [hserved, List.append_assoc]
      exact hr.preemptive _

/-- The part of a lane that the scheduler relies on. -/
structure Keeps (l l' : Lane α β) : Prop where
  data : l'.queue.data = l.queue.data
  endIdx : l'.queue.endIdx = l.queue.endIdx
  capacity : l'.queue.capacity = l.queue.capacity
  pushed : l'.pushed = l.pushed
  popped : l.popped ≤ l'.popped

theorem Move.keeps (hm : Move l l') : Keeps l l' := by
  cases hm with
  | popMain _ hq | popPreemptive _ hq =>
    obtain ⟨_, _, rfl⟩ := Option.map_eq_some_iff.mp hq
    exact ⟨rfl, rfl, rfl, rfl, Nat.le_succ _⟩
  | _ => exact ⟨rfl, rfl, rfl, rfl, le_rfl⟩

/-- More requests may be behind the front. -/
theorem HoldOk.push (hok : l.Ok) {q : OneToOneQueue α β} (hstart : q.startIdx = l.queue.startIdx)
    (hcap : q.capacity = l.queue.capacity) (ts : List (α × β)) :
    ({ l with queue := q, pushed := l.pushed ++ ts } : Lane α β).HoldOk := by
  have hle := hok.rep.le
  have htake : ∀ n ≤ l.pushed.length, (l.pushed ++ ts).take n = l.pushed.take n := fun n hn =>
    List.take_append_of_le_length hn
  have hget : ∀ n t, l.pushed[n]? = some t → (l.pushed ++ ts)[n]? = some t := fun n t ht => by
    rw [List.getElem?_append_left (List.getElem?_eq_some_iff.mp ht).1, ht]
  have heven : l.Even → ({ l with queue := q, pushed := l.pushed ++ ts } : Lane α β).Even :=
    fun h => ⟨h.1.trans (htake _ hle).symm, h.2⟩
  have havail : l.Avail → ({ l with queue := q, pushed := l.pushed ++ ts } : Lane α β).Avail := by
    intro h
    refine ⟨Nat.lt_of_lt_of_le h.1 ?_, hcap ▸ h.2⟩
    rw [List.length_append]
    exact Nat.le_add_right _ _
  have hahead : l.Ahead → ({ l with queue := q, pushed := l.pushed ++ ts } : Lane α β).Ahead :=
    fun h => ⟨havail h.1, h.2.1.trans (htake _ h.1.1).symm, h.2.2⟩
  have hold := hok.hold
  obtain ⟨_, _, _, _, _, _ | _ | ⟨i, a⟩ | t | _ | i | ⟨t, i⟩ | t⟩ := l
  case idle => exact heven hold
  case front => exact ⟨heven hold.1, havail hold.2⟩
  case first =>
    obtain ⟨h1, h2, h3, b, h4⟩ := hold
    exact ⟨heven h1, havail h2, h3.trans hstart.symm, b, hget _ _ h4⟩
  case request =>
    obtain ⟨h1, h2, h3⟩ := hold
    exact ⟨heven h1, havail h2, hget _ _ h3⟩
  case started => exact hahead hold
  case storing => exact ⟨hahead hold.1, hold.2.trans hstart.symm⟩
  case popping =>
    obtain ⟨h1, h2, h3, h4⟩ := hold
    exact ⟨heven h1, havail h2, h3.trans hstart.symm, hget _ _ h4⟩
  case popped =>
    obtain ⟨n, hn, ht, hs, hr⟩ := hold
    change _ = n + 1 at hn
    exact ⟨n, hn, hget _ _ ht, hs.trans (htake n (by omega)).symm, hr⟩

/-- The slot at `endIdx` may be written. -/
theorem Ok.write (hok : l.Ok) (t : α × β) :
    ({ l with queue := { l.queue with
        data := Function.update l.queue.data l.queue.endIdx t } } : Lane α β).Ok := by
  refine ⟨hok.rep.write t, ?_⟩
  have hold := HoldOk.push hok (q := { l.queue with
    data := Function.update l.queue.data l.queue.endIdx t }) rfl rfl []
  rw [List.append_nil] at hold
  exact hold

/-- A request becomes visible. -/
theorem Ok.push (hok : l.Ok) (hspace : l.queue.Space l.pushed l.popped) {t : α × β}
    (ht : l.queue.data l.queue.endIdx = t) {q : OneToOneQueue α β}
    (hq : l.queue.advance = some q) :
    ({ l with queue := q, pushed := l.pushed ++ [t] } : Lane α β).Ok := by
  have hrep := hok.rep.advance hspace ht hq
  obtain ⟨i, _, rfl⟩ := Option.map_eq_some_iff.mp hq
  exact ⟨hrep, HoldOk.push hok rfl rfl [t]⟩

/-- What was started is a beginning of what was pushed. -/
theorem HoldOk.started_of_pushed (hok : l.HoldOk) : l.started <+: l.pushed := by
  rw [HoldOk] at hok
  split at hok
  · exact hok.1 ▸ List.take_prefix _ _
  · exact hok.1.1 ▸ List.take_prefix _ _
  · exact hok.1.1 ▸ List.take_prefix _ _
  · exact hok.1.1 ▸ List.take_prefix _ _
  · exact hok.1.1 ▸ List.take_prefix _ _
  · exact hok.2.1 ▸ List.take_prefix _ _
  · exact hok.1.2.1 ▸ List.take_prefix _ _
  · obtain ⟨n, _, _, hs, _⟩ := hok
    exact hs ▸ List.take_prefix _ _

theorem HoldOk.inRounds (hok : l.HoldOk) : InRounds l.served := by
  rw [HoldOk] at hok
  split at hok
  · exact ⟨_, hok.2, .inl rfl⟩
  · exact ⟨_, hok.1.2, .inl rfl⟩
  · exact ⟨_, hok.1.2, .inl rfl⟩
  · exact ⟨_, hok.1.2, .inl rfl⟩
  · exact ⟨_, hok.1.2, .inl rfl⟩
  · obtain ⟨_, _, r, t, hr, hserved⟩ := hok
    exact ⟨r, hr, .inr (.inl ⟨t, hserved⟩)⟩
  · obtain ⟨⟨_, _, r, t, hr, hserved⟩, _⟩ := hok
    exact ⟨r, hr, .inr (.inl ⟨t, hserved⟩)⟩
  · obtain ⟨_, _, _, _, r, hr, hserved⟩ := hok
    exact ⟨r, hr, .inr (.inr hserved)⟩

end Lane

/-- How many requests have been popped. -/
def pops (k : Ctx) (log : List (Event α β)) : ℕ :=
  log.countP fun
    | .pop _ k' _ => k' = k
    | _ => false

/-- A queue with what the log says about it. -/
def laneOf (q : OneToOneQueue α β) (k : Ctx) (log : List (Event α β)) (h : Hold α β) :
    Lane α β :=
  ⟨q, pushes k log, pops k log, starts k log, served k log, h⟩

section Log

variable (q : OneToOneQueue α β) (c k : Ctx) (log : List (Event α β)) (h : Hold α β) (t : α × β)
  (e : Bool)

theorem laneOf_push : laneOf q k (log ++ [.push k t]) h =
    ⟨q, pushes k log ++ [t], pops k log, starts k log, served k log, h⟩ := by
  simp [laneOf, pushes, pops, starts, served]

theorem laneOf_start : laneOf q k (log ++ [.start c k t]) h =
    ⟨q, pushes k log, pops k log, starts k log ++ [t], served k log ++ [.start c t], h⟩ := by
  simp [laneOf, pushes, pops, starts, served]

theorem laneOf_pop : laneOf q k (log ++ [.pop c k e]) h =
    ⟨q, pushes k log, pops k log + 1, starts k log, served k log ++ [.pop c e], h⟩ := by
  simp [laneOf, pushes, pops, starts, served]

/-- The queue that an event is about. -/
def Event.queue : Event α β → Ctx
  | .push k _ | .start _ k _ | .pop _ k _ | .finish _ k => k

theorem laneOf_of_ne {e : Event α β} (he : e.queue ≠ k) :
    laneOf q k (log ++ [e]) h = laneOf q k log h := by
  cases e <;> simp_all [laneOf, pushes, pops, starts, served, Event.queue]

theorem laneOf_finish (k' : Ctx) :
    laneOf q k (log ++ [.finish c k']) h = laneOf q k log h := by
  simp [laneOf, pushes, pops, starts, served]

/-- The moves that leave a trace in the log. -/
theorem Lane.Move.logStart (hh : h = .request t) :
    Move (laneOf q k log h) (laneOf q k (log ++ [.start .main k t]) .started) := by
  rw [laneOf_start]
  exact .startMain hh

theorem Lane.Move.logPop {q' : OneToOneQueue α β} {i : ℕ} (hh : h = .storing i)
    (hq : q.popStore i = some q') :
    Move (laneOf q k log h) (laneOf q' k (log ++ [.pop .main k q.isEmpty]) .idle) := by
  rw [laneOf_pop]
  exact .popMain hh hq

theorem Lane.Move.logPopPreemptive {q' : OneToOneQueue α β} {i : ℕ} (hh : h = .popping t i)
    (hq : q.popStore i = some q') :
    Move (laneOf q k log h) (laneOf q' k (log ++ [.pop .preemptive k q.isEmpty]) (.popped t)) := by
  rw [laneOf_pop]
  exact .popPreemptive hh hq

theorem Lane.Move.logStartPreemptive (hh : h = .popped t) :
    Move (laneOf q k log h) (laneOf q k (log ++ [.start .preemptive k t]) .idle) := by
  rw [laneOf_start]
  exact .startPreemptive hh

end Log

/-- What the main context holds of a queue.  From the test of `stat` on it relies
on the queue not being empty. -/
def MainPc.hold (k : Ctx) : MainPc α β → Hold α β
  | .statMain p => if k = .preemptive ∧ p then .front else .idle
  | .statStarved p m => if (match k with | .preemptive => p | .main => m) then .front else .idle
  | .frontFirst k' => if k' = k then .front else .idle
  | .frontSecond k' i a => if k' = k then .first i a else .idle
  | .stui t => if k = .main then .request t else .idle
  | .start k' t => if k' = k then .request t else .idle
  | .run k' => if k' = k then .started else .idle
  | .popLoad k' => if k' = k then .started else .idle
  | .popStore k' i => if k' = k then .storing i else .idle
  | _ => .idle

/-- What the preemptive context holds of its queue. -/
def PreemptivePc.hold : PreemptivePc α β → Hold α β
  | .checkStarved => .front
  | .frontFirst => .front
  | .frontSecond i a => .first i a
  | .popLoad t => .request t
  | .popStore t i => .popping t i
  | .start t => .popped t
  | _ => .idle

/-- The program points of the main context at which interrupts are masked. -/
def MainPc.masked : MainPc α β → Bool
  | .loop | .clui | .exit => false
  | .start k _ | .run k | .popLoad k | .popStore k _ => k = .preemptive
  | _ => true

namespace Worker

/-- At most one context holds a queue. -/
def hold (w : Worker α β) : Ctx → Hold α β
  | .main => w.main.hold .main
  | .preemptive =>
    match w.cur with
    | .main => w.main.hold .preemptive
    | .preemptive => w.preemptive.hold

def lane (w : Worker α β) (k : Ctx) : Lane α β := laneOf (w.queue k) k w.log (w.hold k)

/-- Where interrupts are masked, and when the preemptive context has a request. -/
structure Control (w : Worker α β) : Prop where
  preemptive : w.preemptive ≠ .clui → w.cur = .preemptive ∧ w.uif = false
  main : w.main.masked = true → w.cur = .main ∧ w.uif = false ∧ w.tail = .none
  tail : w.tail ≠ .none → w.cur = .main
  stui : w.tail = .stui → w.uif = false
  running : w.preemptive ≠ .run → running .preemptive w.log = false

theorem running_snoc (c : Ctx) (log : List (Event α β)) (e : Event α β) :
    Scheduling.running c (log ++ [e]) =
      match e with
      | .start c' _ _ => if c' = c then true else Scheduling.running c log
      | .finish c' _ => if c' = c then false else Scheduling.running c log
      | _ => Scheduling.running c log := by
  rw [Scheduling.running, List.foldl_append]
  rfl

variable {w w' : Worker α β} {b : Bool}

theorem hold_preemptive_of_not_masked {p : MainPc α β} (h : p.masked = false) :
    p.hold .preemptive = .idle := by
  cases p with
  | start k t | run k | popLoad k | popStore k i =>
    cases k with
    | main => rfl
    | preemptive => cases h
  | loop | clui | exit => rfl
  | _ => cases h

/-- A step of one of the contexts, as the rest of the system sees it. -/
structure ContextStep (w w' : Worker α β) : Prop where
  scheduler : w'.scheduler = w.scheduler
  lane : ∀ k, w'.lane k = w.lane k ∨ Lane.Move (w.lane k) (w'.lane k)

theorem mainStep_lane (hcur : w.cur = .main) (hs : w.mainStep b = some w') : ContextStep w w' := by
  obtain ⟨queue, scheduler, cur, uif, tail, main, preemptive, log⟩ := w
  cases hcur
  cases main with
  | loop =>
    cases hs
    refine ⟨rfl, fun k => .inl ?_⟩
    cases b <;> cases k <;> rfl
  | clui | stui _ =>
    cases hs
    refine ⟨rfl, fun k => .inl ?_⟩
    cases k <;> rfl
  | statPreemptive =>
    cases hs
    refine ⟨rfl, fun k => ?_⟩
    cases k with
    | main => exact .inl rfl
    | preemptive =>
      cases hq : (queue .preemptive).isEmpty with
      | true => exact .inl rfl
      | false => exact .inr (.test rfl hq)
  | statMain p =>
    cases hs
    refine ⟨rfl, fun k => ?_⟩
    cases k with
    | main =>
      cases hq : (queue .main).isEmpty with
      | true => exact .inl rfl
      | false => exact .inr (.test rfl hq)
    | preemptive => cases p <;> exact .inl rfl
  | statStarved p m =>
    -- the queue that is not served is released
    cases hs
    refine ⟨rfl, fun k => ?_⟩
    cases p <;> cases m <;> cases b <;> cases k <;>
      first | exact .inl rfl | exact .inr (.release rfl)
  | frontFirst k' =>
    cases hs
    refine ⟨rfl, fun k => ?_⟩
    cases k' <;> cases k <;> first | exact .inl rfl | exact .inr (.first rfl)
  | frontSecond k' i a =>
    cases k' <;> cases hs <;> refine ⟨rfl, fun k => ?_⟩ <;> cases k <;>
      first | exact .inl rfl | exact .inr (.second rfl)
  | start k' t =>
    cases hs
    refine ⟨rfl, fun k => ?_⟩
    by_cases hk : k' = k
    · subst hk
      cases k' <;> exact .inr (.logStart _ _ _ _ _ rfl)
    · have hlog := laneOf_of_ne (queue k) k log .idle (e := .start .main k' t) hk
      cases k <;> cases k' <;> first | exact absurd rfl hk | exact .inl hlog
  | run k' =>
    cases b with
    | false =>
      cases hs
      exact ⟨rfl, fun k => .inl rfl⟩
    | true =>
      cases hs
      refine ⟨rfl, fun k => .inl ((laneOf_finish _ _ _ _ _ _).trans ?_)⟩
      cases k <;> rfl
  | popLoad k' =>
    cases hs
    refine ⟨rfl, fun k => ?_⟩
    cases k' <;> cases k <;> first | exact .inl rfl | exact .inr (.loadMain rfl)
  | popStore k' i =>
    obtain ⟨q, hq, rfl⟩ := Option.map_eq_some_iff.mp hs
    refine ⟨rfl, fun k => ?_⟩
    by_cases hk : k' = k
    · subst hk
      cases k' <;> exact .inr (.logPop _ _ _ _ rfl hq)
    · have hlog := laneOf_of_ne (queue k) k log .idle (e := .pop .main k' (queue k').isEmpty) hk
      cases k <;> cases k' <;> first | exact absurd rfl hk | exact .inl hlog
  | exit => cases hs

theorem preemptiveStep_lane (hcur : w.cur = .preemptive) (hmain : w.main.masked = false)
    (hs : w.preemptiveStep b = some w') : ContextStep w w' := by
  obtain ⟨queue, scheduler, cur, uif, tail, main, preemptive, log⟩ := w
  cases hcur
  have hidle : main.hold .preemptive = .idle := hold_preemptive_of_not_masked hmain
  have hother : ∀ e : Event α β, e.queue = .preemptive →
      laneOf (queue .main) .main (log ++ [e]) (main.hold .main) =
        laneOf (queue .main) .main log (main.hold .main) := fun e he =>
    laneOf_of_ne _ _ _ _ (by rw [he]; exact nofun)
  cases preemptive with
  | clui | swapClui =>
    cases hs
    refine ⟨rfl, fun k => .inl ?_⟩
    cases k <;> rfl
  | checkEmpty =>
    cases hs
    refine ⟨rfl, fun k => ?_⟩
    cases k with
    | main => exact .inl rfl
    | preemptive =>
      cases hq : (queue .preemptive).isEmpty with
      | true => exact .inl rfl
      | false => exact .inr (.test rfl hq)
  | checkStarved =>
    cases hs
    refine ⟨rfl, fun k => ?_⟩
    cases k <;> cases b <;> first | exact .inl rfl | exact .inr (.release rfl)
  | swapSwitch =>
    -- the main context holds nothing of this queue
    cases hs
    refine ⟨rfl, fun k => .inl ?_⟩
    cases k with
    | main => rfl
    | preemptive => exact congrArg (laneOf (queue .preemptive) .preemptive log) hidle
  | frontFirst =>
    cases hs
    refine ⟨rfl, fun k => ?_⟩
    cases k <;> first | exact .inl rfl | exact .inr (.first rfl)
  | frontSecond i a =>
    cases hs
    refine ⟨rfl, fun k => ?_⟩
    cases k <;> first | exact .inl rfl | exact .inr (.second rfl)
  | popLoad t =>
    cases hs
    refine ⟨rfl, fun k => ?_⟩
    cases k <;> first | exact .inl rfl | exact .inr (.loadPreemptive rfl)
  | popStore t i =>
    obtain ⟨q, hq, rfl⟩ := Option.map_eq_some_iff.mp hs
    refine ⟨rfl, fun k => ?_⟩
    cases k with
    | main => exact .inl (hother (.pop .preemptive .preemptive _) rfl)
    | preemptive => exact .inr (.logPopPreemptive _ _ _ _ _ rfl hq)
  | start t =>
    cases hs
    refine ⟨rfl, fun k => ?_⟩
    cases k with
    | main => exact .inl (hother (.start .preemptive .preemptive t) rfl)
    | preemptive => exact .inr (.logStartPreemptive _ _ _ _ _ rfl)
  | run =>
    cases b with
    | false =>
      cases hs
      exact ⟨rfl, fun k => .inl rfl⟩
    | true =>
      cases hs
      refine ⟨rfl, fun k => .inl ?_⟩
      cases k <;> exact laneOf_finish _ _ _ _ _ _

theorem Control.cur_main (h : Control w) (hcur : w.cur = .main) : w.preemptive = .clui := by
  by_contra hne
  exact absurd (hcur.symm.trans (h.preemptive hne).1) nofun

theorem Control.cur_preemptive (h : Control w) (hcur : w.cur = .preemptive) :
    w.main.masked = false ∧ w.tail = .none := by
  constructor
  · by_contra hne
    rw [Bool.not_eq_false] at hne
    exact absurd (hcur.symm.trans (h.main hne).1) nofun
  · by_contra hne
    exact absurd (hcur.symm.trans (h.tail hne)) nofun

theorem Control.mainStep (h : Control w) (hcur : w.cur = .main) (htail : w.tail = .none)
    (hs : w.mainStep b = some w') : Control w' := by
  have hpre := h.cur_main hcur
  have hmain := h.main
  have hrun := h.running
  obtain ⟨queue, scheduler, cur, uif, tail, main, preemptive, log⟩ := w
  cases hcur
  cases htail
  cases hpre
  have hctl : ∀ {queue' uif' main' log'}, (MainPc.masked main' = true → uif' = false) →
      Scheduling.running .preemptive log' = Scheduling.running .preemptive log →
      Control (⟨queue', scheduler, .main, uif', .none, main', .clui, log'⟩ : Worker α β) :=
    fun hm hlog => ⟨fun h => absurd rfl h, fun hmask => ⟨rfl, hm hmask, rfl⟩, fun _ => rfl, nofun,
      fun _ => hlog.trans (hrun nofun)⟩
  cases main with
  | loop =>
    cases hs
    exact hctl (by cases b <;> exact nofun) rfl
  | clui =>
    cases hs
    exact hctl (fun _ => rfl) rfl
  | statPreemptive | statMain p | statStarved p m | frontFirst k =>
    cases hs
    exact hctl (fun _ => (hmain rfl).2.1) rfl
  | frontSecond k i a =>
    cases k <;> cases hs <;> exact hctl (fun _ => (hmain rfl).2.1) rfl
  | stui t =>
    cases hs
    exact hctl nofun rfl
  | popLoad k =>
    cases hs
    exact hctl (fun hmask => (hmain hmask).2.1) rfl
  | start k t =>
    cases hs
    exact hctl (fun hmask => (hmain hmask).2.1) (running_snoc _ _ _)
  | run k =>
    cases b with
    | false =>
      cases hs
      exact hctl (fun hmask => (hmain hmask).2.1) rfl
    | true =>
      cases hs
      exact hctl (fun hmask => (hmain hmask).2.1) (running_snoc _ _ _)
  | popStore k i =>
    obtain ⟨q, hq, rfl⟩ := Option.map_eq_some_iff.mp hs
    exact hctl nofun (running_snoc _ _ _)
  | exit => cases hs

theorem Control.preemptiveStep (h : Control w) (hcur : w.cur = .preemptive)
    (hs : w.preemptiveStep b = some w') : Control w' := by
  obtain ⟨hmain, htail⟩ := h.cur_preemptive hcur
  have hpre := h.preemptive
  have hrun := h.running
  obtain ⟨queue, scheduler, cur, uif, tail, main, preemptive, log⟩ := w
  cases hcur
  cases htail
  have hctl : ∀ {queue' uif' preemptive' log'}, (preemptive' ≠ .clui → uif' = false) →
      (preemptive' ≠ .run → Scheduling.running .preemptive log' = false) →
      Control (⟨queue', scheduler, .preemptive, uif', .none, main, preemptive', log'⟩ :
        Worker α β) :=
    fun hp hlog => ⟨fun hne => ⟨rfl, hp hne⟩,
      fun hmask => absurd (hmask.symm.trans hmain) nofun, nofun, nofun, hlog⟩
  cases preemptive with
  | clui | swapClui =>
    cases hs
    exact hctl (fun _ => rfl) fun _ => hrun nofun
  | swapSwitch =>
    cases hs
    exact ⟨fun hne => absurd rfl hne, fun hmask => absurd (hmask.symm.trans hmain) nofun,
      fun _ => rfl, fun _ => (hpre nofun).2, fun _ => hrun nofun⟩
  | checkEmpty | checkStarved | frontFirst | frontSecond i a | popLoad t =>
    cases hs
    exact hctl (fun _ => (hpre nofun).2) fun _ => hrun nofun
  | start t =>
    cases hs
    exact hctl (fun _ => (hpre nofun).2) fun hne => absurd rfl hne
  | popStore t i =>
    obtain ⟨q, hq, rfl⟩ := Option.map_eq_some_iff.mp hs
    exact hctl (fun _ => (hpre nofun).2) fun _ => (running_snoc _ _ _).trans (hrun nofun)
  | run =>
    cases b with
    | false =>
      cases hs
      exact hctl (fun _ => (hpre nofun).2) fun hne => absurd rfl hne
    | true =>
      cases hs
      exact hctl (fun hne => absurd rfl hne) fun _ => running_snoc _ _ _

/-- The main context gives way to the preemptive one, at a point where it holds no queue that
the other one uses. -/
theorem Control.preempt (h : Control w) (hpre : w.preemptive = .clui)
    (hmask : w.main.masked = false) (htail : w.tail = .none) (uif : Bool) :
    Control { w with cur := .preemptive, uif := uif } ∧
      ContextStep w { w with cur := .preemptive, uif := uif } := by
  refine ⟨⟨fun hne => absurd hpre hne, fun hm => absurd (hm.symm.trans hmask) nofun,
    fun hne => absurd htail hne, fun hstui => ?_, h.running⟩, rfl, fun k => .inl ?_⟩
  · cases htail.symm.trans hstui
  · cases k with
    | main => rfl
    | preemptive =>
      cases hcur : w.cur with
      | main =>
        simp only [lane, hold, hcur, hpre, hold_preemptive_of_not_masked hmask]
        rfl
      | preemptive => simp only [lane, hold, hcur]

theorem Control.interruptStep (h : Control w) (hs : w.interruptStep b = some w') :
    Control w' ∧ ContextStep w w' := by
  rw [Worker.interruptStep] at hs
  split at hs
  · next huif =>
    split at hs
    · cases hs
      exact ⟨h, rfl, fun k => .inl rfl⟩
    · next hcond =>
      cases hs
      rw [not_or, not_not] at hcond
      have hmask : w.main.masked = false := by
        by_contra hne
        rw [Bool.not_eq_false] at hne
        exact absurd (huif.symm.trans (h.main hne).2.1) nofun
      have hpre : w.preemptive = .clui := by
        by_contra hne
        exact absurd (huif.symm.trans (h.preemptive hne).2) nofun
      exact h.preempt hpre hmask hcond.1 w.uif
  · cases hs

theorem Control.swapTailStep (h : Control w) (hs : w.swapTailStep = some w') :
    Control w' ∧ ContextStep w w' := by
  have hne : w.tail ≠ .none := by
    intro hnone
    rw [Worker.swapTailStep, hnone] at hs
    cases hs
  have hcur := h.tail hne
  have hpre := h.cur_main hcur
  have hmask : w.main.masked = false := by
    by_contra hm
    rw [Bool.not_eq_false] at hm
    exact hne (h.main hm).2.2
  have hctl : ∀ {uif' tail'}, tail' ≠ .stui → Control { w with uif := uif', tail := tail' } :=
    fun htail => ⟨fun hne => absurd hpre hne, fun hm => absurd (hm.symm.trans hmask) nofun,
      fun _ => hcur, fun hstui => absurd hstui htail, h.running⟩
  rw [Worker.swapTailStep] at hs
  split at hs
  · cases hs
  · cases hs
    exact ⟨hctl nofun, rfl, fun k => .inl (by cases k <;> rfl)⟩
  · cases hs
    exact ⟨hctl nofun, rfl, fun k => .inl (by cases k <;> rfl)⟩

/-- What the scheduler knows in the middle of a push. -/
def SchedulerOk (lane : Ctx → Lane α β) : SchedulerPc α β → Prop
  | .idle => True
  | .writeFirst k _ => (lane k).queue.Space (lane k).pushed (lane k).popped
  | .writeSecond k t =>
    (lane k).queue.Space (lane k).pushed (lane k).popped ∧
      ((lane k).queue.data (lane k).queue.endIdx).1 = t.1
  | .advance k t =>
    (lane k).queue.Space (lane k).pushed (lane k).popped ∧
      (lane k).queue.data (lane k).queue.endIdx = t

theorem SchedulerOk.keeps {lane lane' : Ctx → Lane α β} {p : SchedulerPc α β}
    (hk : ∀ k, (lane k).Keeps (lane' k)) (h : SchedulerOk lane p) : SchedulerOk lane' p := by
  have hspace : ∀ k, (lane k).queue.Space (lane k).pushed (lane k).popped →
      (lane' k).queue.Space (lane' k).pushed (lane' k).popped := by
    intro k hs hcap
    have hpopped := (hk k).popped
    rw [(hk k).capacity] at hcap
    rw [(hk k).capacity, (hk k).pushed]
    have := hs hcap
    omega
  cases p with
  | idle => trivial
  | writeFirst k t => exact hspace k h
  | writeSecond k _ | advance k _ =>
    refine ⟨hspace k h.1, ?_⟩
    rw [(hk k).data, (hk k).endIdx]
    exact h.2

/-- What holds of every reachable state. -/
structure Inv (w : Worker α β) : Prop where
  control : Control w
  lane : ∀ k, (w.lane k).Ok
  scheduler : SchedulerOk w.lane w.scheduler

theorem inv_init (data : Ctx → ℕ → α × β) (size : Ctx → ℕ) (uif : Bool) :
    Inv (init data size uif) := by
  refine ⟨⟨fun h => absurd rfl h, nofun, nofun, nofun, fun _ => rfl⟩, fun k => ?_, trivial⟩
  cases k <;> exact ⟨OneToOneQueue.rep_init _ _, rfl, .nil⟩

theorem Inv.contextStep (h : Inv w) (hctl : Control w') (hc : ContextStep w w') : Inv w' := by
  refine ⟨hctl, fun k => ?_, ?_⟩
  · rcases hc.lane k with heq | hmove
    · exact heq ▸ h.lane k
    · exact hmove.ok (h.lane k)
  · rw [hc.scheduler]
    refine h.scheduler.keeps fun k => ?_
    rcases hc.lane k with heq | hmove
    · exact heq ▸ ⟨rfl, rfl, rfl, rfl, le_rfl⟩
    · exact hmove.keeps

/-- The scheduler begins a push. -/
theorem Inv.beginPush (h : Inv w) {k : Ctx} (t : α × β)
    (hspace : (w.queue k).Space (pushes k w.log) (pops k w.log)) :
    Inv { w with scheduler := .writeFirst k t } :=
  ⟨⟨h.control.preemptive, h.control.main, h.control.tail, h.control.stui, h.control.running⟩,
    fun k' => by cases k' <;> exact h.lane _, hspace⟩

theorem Inv.schedulerStep {a : SchedulerAct α β} (h : Inv w)
    (hs : w.schedulerStep a = some w') : Inv w' := by
  obtain ⟨queue, scheduler, cur, uif, tail, main, preemptive, log⟩ := w
  have hctl := h.control
  have hlane := h.lane
  have hsched := h.scheduler
  -- the scheduler leaves the worker alone
  have hkeep : ∀ {queue' scheduler' log'},
      Scheduling.running .preemptive log' = Scheduling.running .preemptive log →
      Control (⟨queue', scheduler', cur, uif, tail, main, preemptive, log'⟩ : Worker α β) :=
    fun hlog => ⟨hctl.preemptive, hctl.main, hctl.tail, hctl.stui,
      fun hne => hlog.trans (hctl.running hne)⟩
  cases scheduler with
  | idle =>
    cases a with
    | pushMain t =>
      obtain ⟨hfull, hs⟩ := Option.ite_none_right_eq_some.mp hs
      cases hs
      exact h.beginPush t ((hlane .main).rep.space_of_not_isFull hfull)
    | pushMainIfEmpty t =>
      obtain ⟨hempty, hs⟩ := Option.ite_none_right_eq_some.mp hs
      cases hs
      exact h.beginPush t ((hlane .main).rep.space_of_isEmpty hempty)
    | pushPreemptive t =>
      obtain ⟨hfull, hs⟩ := Option.ite_none_right_eq_some.mp hs
      cases hs
      exact h.beginPush t ((hlane .preemptive).rep.space_of_not_isFull hfull)
    | write => cases hs
  | writeFirst k t =>
    cases a with
    | write =>
      cases hs
      refine ⟨hkeep rfl, fun k' => ?_, ?_⟩
      · cases k <;> cases k' <;> first | exact (hlane _).write _ | exact hlane _
      · have hfirst := congrArg Prod.fst ((queue k).writeFirst_data t.1)
        cases k <;> exact ⟨hsched, hfirst⟩
    | _ => cases hs
  | writeSecond k t =>
    cases a with
    | write =>
      cases hs
      refine ⟨hkeep rfl, fun k' => ?_, ?_⟩
      · cases k <;> cases k' <;> first | exact (hlane _).write _ | exact hlane _
      · obtain ⟨hspace, hfirst⟩ := hsched
        have hsecond := ((queue k).writeSecond_data t.2).trans (Prod.ext hfirst rfl)
        cases k <;> exact ⟨hspace, hsecond⟩
    | _ => cases hs
  | advance k t =>
    cases a with
    | write =>
      obtain ⟨q, hq, rfl⟩ := Option.map_eq_some_iff.mp hs
      refine ⟨hkeep (running_snoc _ _ _), fun k' => ?_, trivial⟩
      -- the entry is visible once the index is stored
      by_cases hk : k = k'
      · subst hk
        have hok : (laneOf q k (log ++ [.push k t])
            (hold ⟨queue, .advance k t, cur, uif, tail, main, preemptive, log⟩ k)).Ok := by
          rw [laneOf_push]
          exact (hlane k).push hsched.1 hsched.2 hq
        cases k <;> exact hok
      · have hok : (laneOf (queue k') k' (log ++ [.push k t])
            (hold ⟨queue, .advance k t, cur, uif, tail, main, preemptive, log⟩ k')).Ok := by
          rw [laneOf_of_ne (e := .push k t) _ _ _ _ hk]
          exact hlane k'
        cases k <;> cases k' <;> first | exact absurd rfl hk | exact hok
    | _ => cases hs

theorem Inv.step {a : WorkerAct α β} (hs : w.step a = some w') (h : Inv w) : Inv w' := by
  cases a with
  | scheduler a => exact h.schedulerStep hs
  | main b =>
    obtain ⟨⟨hcur, htail⟩, hs⟩ := Option.ite_none_right_eq_some.mp hs
    exact h.contextStep (h.control.mainStep hcur htail hs) (mainStep_lane hcur hs)
  | preemptive b =>
    obtain ⟨hcur, hs⟩ := Option.ite_none_right_eq_some.mp hs
    exact h.contextStep (h.control.preemptiveStep hcur hs)
      (preemptiveStep_lane hcur (h.control.cur_preemptive hcur).1 hs)
  | swapTail => exact h.contextStep (h.control.swapTailStep hs).1 (h.control.swapTailStep hs).2
  | interrupt locked =>
    exact h.contextStep (h.control.interruptStep hs).1 (h.control.interruptStep hs).2

end Worker

/-- For every interleaving of the scheduler, user interrupts and the two contexts:
the started requests of a queue are those pushed first, in order; they are
started and popped in rounds, and the queue is not empty when it is popped; and
while a request of the preemptive context runs, the main context can not take a
step. -/
theorem exactly_once {data : Ctx → ℕ → α × β} {size : Ctx → ℕ} {uif : Bool}
    {as : List (WorkerAct α β)} {w : Worker α β}
    (h : StepRun.run Worker.step (Worker.init data size uif) as = some w) :
    (∀ k, starts k w.log <+: pushes k w.log) ∧ (∀ k, InRounds (served k w.log)) ∧
      (running .preemptive w.log = true → ∀ b, w.step (.main b) = none) := by
  have hinv : w.Inv := StepRun.run_invariant Worker.Inv.step h (Worker.inv_init data size uif)
  refine ⟨fun k => (hinv.lane k).hold.started_of_pushed, fun k => (hinv.lane k).hold.inRounds,
    fun hrun b => if_neg fun hmain => ?_⟩
  have hclui := hinv.control.cur_main hmain.1
  rw [hinv.control.running (by rw [hclui]; exact nofun)] at hrun
  cases hrun

/-- A main request is interrupted, and the preemptive context has started one. -/
def preemptedRun : List (WorkerAct ℕ ℕ) :=
  [.scheduler (.pushMain (0, 5)), .scheduler .write, .scheduler .write, .scheduler .write,
   .main true, .main true, .main true, .main true, .main false, .main true, .main true, .main true,
   .main true,
   .scheduler (.pushPreemptive (1, 10)), .scheduler .write, .scheduler .write, .scheduler .write,
   .interrupt false,
   .preemptive true, .preemptive true, .preemptive false, .preemptive true, .preemptive true,
   .preemptive true, .preemptive true, .preemptive true]

theorem exactly_once_preempted :
    ∃ w, StepRun.run Worker.step (Worker.init (fun _ _ => (0, 0)) (fun _ => 1) true) preemptedRun =
        some w ∧
      w.log = [.push .main (0, 5), .start .main .main (0, 5), .push .preemptive (1, 10),
        .pop .preemptive .preemptive false, .start .preemptive .preemptive (1, 10)] ∧
      starts .preemptive w.log <+: pushes .preemptive w.log ∧ InRounds (served .main w.log) ∧
      w.step (.main true) = none := by
  have hlog : (StepRun.run Worker.step (Worker.init (fun _ _ => (0, 0)) (fun _ => 1) true)
      preemptedRun).map Worker.log = some [.push .main (0, 5), .start .main .main (0, 5),
        .push .preemptive (1, 10), .pop .preemptive .preemptive false,
        .start .preemptive .preemptive (1, 10)] := by decide +kernel
  obtain ⟨w, hw, hlog⟩ := Option.map_eq_some_iff.mp hlog
  obtain ⟨hstarts, hrounds, hblocked⟩ := exactly_once hw
  refine ⟨w, hw, hlog, hstarts _, hrounds _, hblocked ?_ _⟩
  rw [hlog]
  rfl

section Handoff

open WordMem X86

variable {L : Layout} {s t : Cpu} {w : Worker α β}

/-- The processor runs the context that the model says. -/
structure Shows (L : Layout) (s : Cpu) (w : Worker α β) : Prop where
  cur : getCurrentContext L s.world = L.ctx w.cur
  uif : s.uif = w.uif

/-- The handler does what `interruptStep` does. -/
theorem Shows.interrupt (h : Shows L s w) (hreached : Cpu.Reached L s) (huif : s.uif = true)
    (htail : w.tail ≠ .none ↔ L.InSwap s.rip) (ν : Helper → Clobber) (v : Word) :
    ∃ w', w.step (.interrupt (0 < s.world.lockCounter s.fs)) = some w' ∧
      Shows L (interrupt L ν v s) w' := by
  obtain ⟨hon, hcur⟩ := hreached.interrupt_current (ν := ν) v
  have hw : w.uif = true := h.uif.symm.trans huif
  have hcond : (w.tail ≠ .none ∨ decide (0 < s.world.lockCounter s.fs) = true) ↔
      (L.InSwap s.rip ∨ 0 < s.world.lockCounter s.fs) := by
    rw [htail, decide_eq_true_iff]
  rw [Worker.step, Worker.interruptStep, if_pos hw]
  by_cases hquick : L.InSwap s.rip ∨ 0 < s.world.lockCounter s.fs
  · rw [if_pos (hcond.mpr hquick)]
    rw [if_pos hquick] at hcur
    exact ⟨w, rfl, hcur.trans h.cur, hon.trans hw.symm⟩
  · rw [if_neg (mt hcond.mp hquick)]
    rw [if_neg hquick] at hcur
    exact ⟨_, rfl, hcur, hon.trans hw.symm⟩

/-- A call of `swap_context` is the four steps from `swapClui` on. -/
theorem Shows.swap (h : Shows L s w) (hreached : Cpu.Reached L s) (hcur : w.cur = .preemptive)
    (hpc : w.preemptive = .swapClui) (hswap : SwapCall L .preemptive .main s t) (b : Bool) :
    ∃ w', StepRun.run Worker.step w [.preemptive b, .preemptive b, .swapTail, .swapTail] = some w' ∧
      Shows L t w' ∧ w'.tail = .none := by
  obtain ⟨s0, hpre⟩ : ∃ s0, Preempting L s0 s := by
    refine hreached.mode.resolve_left fun hmain => ?_
    exact L.ctx_ne (hmain.cur.symm.trans (hcur ▸ h.cur))
  obtain ⟨⟨m', vars, rfl, hvars, _⟩, _⟩ := swap_resumes hpre hswap
  obtain ⟨queue, scheduler, cur, uif, tail, main, preemptive, log⟩ := w
  cases hcur
  cases hpc
  refine ⟨_, rfl, ⟨?_, rfl⟩, rfl⟩
  rw [getCurrentContext, hvars]
  exact if_neg (L.ctx_ne_null .main)

end Handoff

end PreemptDB.Scheduling
