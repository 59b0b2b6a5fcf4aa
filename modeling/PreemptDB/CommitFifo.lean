/-
The commit queue as a FIFO (`dbcore/pcommit.cpp`, and `enqueue_committed_xct` of
`dbcore/dlog.cpp`).

`extend` copies the slots of the ring as they lie, so that entries which wrap around
are no longer where the loop of `dequeue_committed_xcts` looks for them.

* `Fifo` — the abstract queue;
* `Valid.step` — each call is the abstract one, if an extended ring is not wrapped;
* `Enqueue.step` — `enqueue_committed_xct`, with other threads at every point;
* `Enqueue.Inv`, `Enqueue.rounds` — its CSN goes in once, and it returns.
-/
import PreemptDB.Pcommit
import PreemptDB.Ring

namespace PreemptDB

open StepRun

/-- The calls on a queue. -/
inductive QueueAct
  | pushBack (csn : ℕ) (insert : Bool)
  | dequeue (upto : ℕ)
  | extend
  deriving DecidableEq, Repr

/-- One call. -/
def CommitQueue.step (q : CommitQueue) : QueueAct → Option CommitQueue
  | .pushBack csn insert => some (q.pushBack csn ⟨false, insert⟩).1
  | .dequeue upto => q.dequeue upto
  | .extend => some q.extend

/-- What a commit queue is: a list of CSNs, and how many it takes. -/
structure Fifo where
  contents : List ℕ
  length : ℕ
  deriving DecidableEq, Repr

def Fifo.call (f : Fifo) : QueueAct → Fifo
  | .pushBack csn insert =>
    if insert ∧ f.contents.length < f.length then { f with contents := f.contents ++ [csn] } else f
  | .dequeue upto => { f with contents := f.contents.dropWhile (· ≤ upto) }
  | .extend => { f with length := f.length * 2 }

namespace CommitQueue

variable {q q' : CommitQueue}

/-- A ring that is not empty, with indices that do not wrap around in 32 bits. -/
structure Valid (q : CommitQueue) : Prop where
  length_pos : 0 < q.length
  length_le : q.length ≤ 2 ^ 31
  start_lt : q.start < q.length
  items_le : q.items ≤ q.length

/-- An array is extended when no entry is behind its end, and it can be. -/
def Unwrapped (q : CommitQueue) : Prop := q.start + q.items ≤ q.length ∧ 2 * q.length ≤ 2 ^ 31

instance (q : CommitQueue) : Decidable q.Unwrapped := inferInstanceAs (Decidable (_ ∧ _))

/-- The queue that the calls stand for. -/
def fifo (q : CommitQueue) : Fifo := ⟨q.entries, q.length⟩

theorem valid_init {length : ℕ} (hpos : 0 < length) (hle : length ≤ 2 ^ 31) :
    Valid (init length) := ⟨hpos, hle, hpos, Nat.zero_le _⟩

namespace Valid

/-- The indices of the code are those of the ring. -/
theorem slot_eq (h : Valid q) {j : ℕ} (hj : j ≤ q.length) :
    q.slot j = (q.start + j) % q.length := by
  have hle := h.length_le
  have hlt := h.start_lt
  have hsum : q.start + j < 2 ^ 32 := by omega
  rw [slot, Nat.mod_eq_of_lt hsum]

theorem entries_eq (h : Valid q) :
    q.entries = Ring.window q.queue q.length q.start q.items := by
  refine List.map_congr_left fun j hj => ?_
  have := List.mem_range.mp hj
  have := h.items_le
  rw [h.slot_eq (by omega)]

theorem length_entries (q : CommitQueue) : q.entries.length = q.items := by
  rw [entries, List.length_map, List.length_range]

theorem pushBack (h : Valid q) (csn : ℕ) (f : PushFlags) :
    Valid (q.pushBack csn f).1 ∧ (q.pushBack csn f).1.length = q.length ∧
      (q.pushBack csn f).1.entries =
        q.entries ++ if q.stores f then [csn] else [] := by
  rw [CommitQueue.pushBack]
  split
  next hst =>
    have hlt : q.items < q.length := by
      rw [stores, Bool.and_eq_true, decide_eq_true_eq] at hst
      exact hst.2
    have hv : Valid { q with
        queue := Function.update q.queue (q.slot q.items) csn, items := q.items + 1 } :=
      ⟨h.length_pos, h.length_le, h.start_lt, hlt⟩
    refine ⟨hv, rfl, ?_⟩
    rw [hv.entries_eq, h.entries_eq, ← Ring.window_snoc hlt csn, h.slot_eq h.items_le]
  next => exact ⟨h, rfl, (List.append_nil _).symm⟩

theorem dequeue (h : Valid q) (upto : ℕ) : ∃ q', q.dequeue upto = some q' ∧ Valid q' ∧
    q'.length = q.length ∧ q'.items ≤ q.items ∧
      q.entries = q.released upto ++ q'.entries ∧
      q'.entries = q.entries.dropWhile (· ≤ upto) := by
  have hlen : (q.released upto).length ≤ q.items := by
    rw [released, ← length_entries q]
    exact (List.takeWhile_prefix _).length_le
  have hslot := h.slot_eq (hlen.trans h.items_le)
  have hv : Valid { q with
      items := q.items - (q.released upto).length
      start := q.slot (q.released upto).length } :=
    ⟨h.length_pos, h.length_le, hslot ▸ Nat.mod_lt _ h.length_pos,
      (Nat.sub_le _ _).trans h.items_le⟩
  refine ⟨_, if_neg h.length_pos.ne', hv, rfl, Nat.sub_le _ _, ?_⟩
  have hdrop : CommitQueue.entries { q with
      items := q.items - (q.released upto).length
      start := q.slot (q.released upto).length } = q.entries.dropWhile (· ≤ upto) := by
    rw [hv.entries_eq]
    show Ring.window q.queue q.length (q.slot _) _ = _
    rw [hslot, Ring.window_drop, ← h.entries_eq, released]
    nth_rewrite 2 [← List.takeWhile_append_dropWhile (p := (· ≤ upto)) (l := q.entries)]
    exact List.drop_left
  refine ⟨?_, hdrop⟩
  rw [hdrop, released, List.takeWhile_append_dropWhile]

theorem extend (h : Valid q) (hu : q.Unwrapped) : Valid q.extend ∧
    q.extend.length = q.length * 2 ∧ q.extend.entries = q.entries := by
  obtain ⟨hle, hbound⟩ := hu
  have hstart := h.start_lt
  have hlen : q.length * 2 % 2 ^ 32 = q.length * 2 := Nat.mod_eq_of_lt (by omega)
  have hv : Valid q.extend := by
    refine ⟨?_, ?_, ?_, ?_⟩
    all_goals
      simp only [CommitQueue.extend, hlen]
      omega
  refine ⟨hv, hlen, ?_⟩
  rw [hv.entries_eq, h.entries_eq]
  refine Ring.window_grow hle ?_ fun i hi => if_pos hi
  show q.length ≤ q.length * 2 % 2 ^ 32
  omega

/-- Each call is the one on the abstract queue. -/
theorem step (h : Valid q) {a : QueueAct} (hok : a = .extend → q.Unwrapped) :
    ∃ q', q.step a = some q' ∧ Valid q' ∧ q'.fifo = q.fifo.call a := by
  cases a with
  | pushBack csn insert =>
    obtain ⟨hv, hlen, hent⟩ := h.pushBack csn ⟨false, insert⟩
    refine ⟨_, rfl, hv, ?_⟩
    have hiff : q.stores ⟨false, insert⟩ = true ↔
        insert ∧ q.fifo.contents.length < q.fifo.length := by
      show _ ↔ _ ∧ q.entries.length < q.length
      rw [length_entries, stores, Bool.and_eq_true, decide_eq_true_eq]
    rw [fifo, hlen, hent, Fifo.call]
    by_cases hst : q.stores ⟨false, insert⟩ = true
    · rw [if_pos hst, if_pos (hiff.mp hst)]
      rfl
    · rw [if_neg hst, if_neg fun h => hst (hiff.mpr h), List.append_nil]
      rfl
  | dequeue upto =>
    obtain ⟨q', hq', hv, hlen, -, -, hent⟩ := h.dequeue upto
    exact ⟨q', hq', hv, by rw [fifo, hlen, hent]; rfl⟩
  | extend =>
    obtain ⟨hv, hlen, hent⟩ := h.extend (hok rfl)
    exact ⟨_, rfl, hv, by rw [fifo, hlen, hent]; rfl⟩

/-- A sequence of calls. -/
theorem run {acts : List QueueAct} (h : Valid q)
    (hok : Along CommitQueue.step (fun q a => a = .extend → q.Unwrapped) q acts) :
    ∃ q', StepRun.run CommitQueue.step q acts = some q' ∧ Valid q' ∧
      q'.fifo = acts.foldl Fifo.call q.fifo := by
  induction acts generalizing q with
  | nil => exact ⟨q, rfl, h, rfl⟩
  | cons a acts ih =>
    obtain ⟨q', hs, hv, hf⟩ := h.step hok.1
    obtain ⟨t, hr, hvt, hft⟩ := ih hv (hok.2 q' hs)
    exact ⟨t, run_cons_eq_some.mpr ⟨q', hs, hr⟩, hvt, by rw [hft, hf]; rfl⟩

end Valid

end CommitQueue

/-- Where a thread is in `tls_log::enqueue_committed_xct`. -/
inductive EnqueuePc
  /-- at the label `retry` -/
  | retry (f : PushFlags) (count : ℕ)
  /-- the logs have been flushed, if that was asked for -/
  | push (f : PushFlags) (count : ℕ)
  /-- before `count >= 10` -/
  | check (f : PushFlags) (count : ℕ)
  /-- the queue has been extended -/
  | pushAgain (f : PushFlags)
  /-- before the last `if (flush)` -/
  | test (f : PushFlags) (count : ℕ)
  | returned (f : PushFlags)
  deriving DecidableEq, Repr

/-- A call of `enqueue_committed_xct`, with the queue of its log; `appended` and
`removed` list what has gone in and out during the call. -/
structure Enqueue where
  queue : CommitQueue
  csn : ℕ
  pc : EnqueuePc
  appended : List ℕ
  removed : List ℕ

inductive EnqueueAct
  /-- the call runs on -/
  | proceed
  /-- somebody dequeues: the commit daemon, a flush that is polled, or the call itself -/
  | dequeue (upto : ℕ)
  deriving DecidableEq, Repr

namespace Enqueue

def start (q : CommitQueue) (csn : ℕ) : Enqueue := ⟨q, csn, .retry ⟨false, true⟩ 0, [], []⟩

/-- A `push_back` of the call. -/
def pushBack (s : Enqueue) (f : PushFlags) (pc : PushFlags → EnqueuePc) : Enqueue :=
  { s with
    queue := (s.queue.pushBack s.csn f).1
    pc := pc (s.queue.pushBack s.csn f).2
    appended := s.appended ++ if s.queue.stores f then [s.csn] else [] }

def step (s : Enqueue) : EnqueueAct → Option Enqueue
  | .proceed =>
    match s.pc with
    | .retry f count => some { s with pc := .push { f with flush := false } count }
    | .push f count => some (s.pushBack f (.check · count))
    | .check f count =>
      if 10 ≤ count then some { s with queue := s.queue.extend, pc := .pushAgain f }
      else some { s with pc := .test f count }
    | .pushAgain f => some (s.pushBack f (.test · 0))
    | .test f count =>
      if f.flush then some { s with pc := .retry f (count + 1) }
      else some { s with pc := .returned f }
    | .returned _ => none
  | .dequeue upto =>
    (s.queue.dequeue upto).map fun q =>
      { s with queue := q, removed := s.removed ++ s.queue.released upto }

/-- The call is about to extend the queue. -/
def extends? : EnqueuePc → Bool
  | .check _ count => 10 ≤ count
  | _ => false

/-- Queues are extended while they are not wrapped. -/
def ExtendOk (s : Enqueue) (a : EnqueueAct) : Prop :=
  a = .proceed → extends? s.pc = true → s.queue.Unwrapped

instance (s : Enqueue) (a : EnqueueAct) : Decidable (ExtendOk s a) :=
  inferInstanceAs (Decidable (_ → _))

/-! ### The CSN goes in once -/

def flags : EnqueuePc → PushFlags
  | .retry f _ | .push f _ | .check f _ | .pushAgain f | .test f _ | .returned f => f

/-- After a `push_back`, a CSN that is not in yet has asked for a flush. -/
def Asked : EnqueuePc → Prop
  | .retry _ _ => True
  | .push f _ => f.flush = false
  | .check f _ | .pushAgain f | .test f _ => f.insert = true → f.flush = true
  | .returned f => f.insert = false

/-- The counter of the rounds. -/
def Counted : EnqueuePc → Prop
  | .retry _ count | .push _ count | .check _ count => count ≤ 10
  | .test _ count => count < 10
  | .pushAgain _ | .returned _ => True

/-- `s` is a state of a call for `csn` that found the entries `before`. -/
structure Inv (before : List ℕ) (csn : ℕ) (s : Enqueue) : Prop where
  valid : s.queue.Valid
  own : s.csn = csn
  fifo : before ++ s.appended = s.removed ++ s.queue.entries
  once : s.appended = if (flags s.pc).insert then [] else [csn]
  asked : Asked s.pc
  counted : Counted s.pc

variable {before : List ℕ} {csn : ℕ} {s s' : Enqueue}

theorem inv_start {q : CommitQueue} (h : q.Valid) (csn : ℕ) :
    Inv q.entries csn (start q csn) :=
  ⟨h, rfl, List.append_nil _, rfl, trivial, Nat.zero_le _⟩

/-- What `push_back` leaves in the flags. -/
theorem pushBack_insert (q : CommitQueue) (csn : ℕ) (f : PushFlags) :
    (q.pushBack csn f).2.insert = (f.insert && !q.stores f) ∧
      (q.pushBack csn f).2.flush = (f.flush || q.nearlyFull) := by
  rw [CommitQueue.pushBack]
  split
  next hst => simp [hst]
  next hst => simp [hst]

/-- A CSN that does not go in asks for a flush. -/
theorem pushBack_asks (q : CommitQueue) (csn : ℕ) (f : PushFlags)
    (h : (q.pushBack csn f).2.insert = true) :
    (q.pushBack csn f).2.flush = true := by
  rw [(pushBack_insert q csn f).1, Bool.and_eq_true] at h
  have hfull : q.length ≤ q.items := by
    have hst := h.2
    rw [CommitQueue.stores, h.1, Bool.true_and, Bool.not_eq_true', decide_eq_false_iff_not] at hst
    omega
  rw [(pushBack_insert q csn f).2, Bool.or_eq_true, CommitQueue.nearlyFull,
    decide_eq_true_eq]
  right
  omega

namespace Inv

/-- The flags go on to the next place of the call. -/
theorem goto (h : Inv before csn s) {p : EnqueuePc}
    (hf : (flags p).insert = (flags s.pc).insert) (ha : Asked p) (hc : Counted p) :
    Inv before csn { s with pc := p } :=
  ⟨h.valid, h.own, h.fifo, by rw [h.once]; simp only [hf], ha, hc⟩

theorem pushBack (h : Inv before csn s) {f : PushFlags} (hf : flags s.pc = f)
    {pc : PushFlags → EnqueuePc} (hflags : ∀ f, flags (pc f) = f)
    (ha : ∀ f, (f.insert = true → f.flush = true) → Asked (pc f)) (hc : ∀ f, Counted (pc f)) :
    Inv before csn (s.pushBack f pc) := by
  obtain ⟨hv, -, hent⟩ := h.valid.pushBack s.csn f
  have honce := h.once
  rw [hf] at honce
  refine ⟨hv, h.own, ?_, ?_, ha _ (pushBack_asks _ _ _), hc _⟩
  · show before ++ (s.appended ++ _) = s.removed ++ (s.queue.pushBack s.csn f).1.entries
    rw [hent, ← List.append_assoc, h.fifo, List.append_assoc]
  · show s.appended ++ _ = _
    rw [Enqueue.pushBack]
    simp only [hflags]
    rw [(pushBack_insert _ _ _).1, honce]
    by_cases hst : s.queue.stores f = true
    · have hins : f.insert = true := by
        rw [CommitQueue.stores, Bool.and_eq_true] at hst
        exact hst.1
      simp [hst, hins, h.own]
    · simp [hst]

theorem step (h : Inv before csn s) {a : EnqueueAct} (hok : ExtendOk s a)
    (hs : s.step a = some s') :
    Inv before csn s' := by
  cases a with
  | dequeue upto =>
    obtain ⟨q, hq, rfl⟩ := Option.map_eq_some_iff.mp hs
    obtain ⟨q', hq', hv, -, -, hsplit, -⟩ := h.valid.dequeue upto
    rw [hq, Option.some_inj] at hq'
    subst hq'
    refine ⟨hv, h.own, ?_, h.once, h.asked, h.counted⟩
    rw [h.fifo, hsplit, List.append_assoc]
  | proceed =>
    rw [Enqueue.step] at hs
    have hask := h.asked
    have hcount := h.counted
    split at hs
    next f count hpc =>
      cases hs
      rw [hpc] at hcount
      exact h.goto (by rw [hpc]; rfl) rfl hcount
    next f count hpc =>
      cases hs
      rw [hpc] at hcount
      exact h.pushBack (by rw [hpc]; rfl) (fun _ => rfl) (fun _ => id) fun _ => hcount
    next f count hpc =>
      rw [hpc] at hask hcount
      split at hs
      next hten =>
        cases hs
        obtain ⟨hv, -, hent⟩ := h.valid.extend (hok rfl (by rw [hpc]; simpa [extends?] using hten))
        have h' := h.goto (p := .pushAgain f) (by rw [hpc]; rfl) hask trivial
        exact ⟨hv, h.own, by rw [hent]; exact h'.fifo, h'.once, h'.asked, h'.counted⟩
      next hten =>
        cases hs
        exact h.goto (by rw [hpc]; rfl) hask (Nat.lt_of_not_le hten)
    next f hpc =>
      cases hs
      exact h.pushBack (by rw [hpc]; rfl) (fun _ => rfl) (fun _ => id) fun _ => Nat.zero_lt_succ 9
    next f count hpc =>
      rw [hpc] at hask hcount
      split at hs
      next hflush =>
        cases hs
        exact h.goto (by rw [hpc]; rfl) trivial hcount
      next hflush =>
        cases hs
        refine h.goto (by rw [hpc]; rfl) ?_ trivial
        exact Bool.eq_false_iff.mpr fun hins => hflush (hask hins)
    next => cases hs

end Inv

/-! ### The call returns -/

/-- How often the queue still has to grow until there is room for `need` entries. -/
def growths (length need : ℕ) : ℕ :=
  if 5 * need < 4 * length then 0 else if 5 * need < 8 * length then 1 else 2

/-- The entries, with the one that the call has to add. -/
def need (q : CommitQueue) (f : PushFlags) : ℕ := q.items + if f.insert then 1 else 0

/-- The rounds that are left at the beginning of round `count`. -/
def rounds (growths count : ℕ) : ℕ := if growths = 0 then 1 else 10 * growths + 2 - count

/-- A bound for the steps that are left, for a queue that has to grow `g` times. -/
def fuelAt (g : ℕ) : EnqueuePc → ℕ
  | .retry _ count => 6 * rounds g count + 6
  | .push _ count => 6 * rounds g count + 5
  | .check f count =>
    if count < 10 then if f.flush then 6 * rounds g (count + 1) + 10 else 10
    else if f.flush then 6 * rounds (g - 1) 1 + 10
    else if g = 0 then 10 else 6 * rounds (g - 1) 1 + 10
  | .pushAgain f =>
    if f.flush then 6 * rounds g 1 + 9 else if g = 0 then 9 else 6 * rounds g 1 + 9
  | .test f count => if f.flush then 6 * rounds g (count + 1) + 8 else 8
  | .returned _ => 0

def grows (s : Enqueue) : ℕ := growths s.queue.length (need s.queue (flags s.pc))

def fuel (s : Enqueue) : ℕ := fuelAt s.grows s.pc

theorem growths_le (length need : ℕ) : growths length need ≤ 2 := by
  rw [growths]
  split_ifs <;> omega

theorem growths_mono {length need need' : ℕ} (h : need' ≤ need) :
    growths length need' ≤ growths length need := by
  rw [growths, growths]
  split_ifs <;> omega

theorem growths_double {length need : ℕ} (hpos : 0 < length) (h : need ≤ length + 1) :
    growths (length * 2) need ≤ growths length need - 1 := by
  rw [growths, growths]
  split_ifs <;> omega

theorem rounds_mono {g g' count : ℕ} (h : g' ≤ g) (hc : count ≤ 10) :
    rounds g' count ≤ rounds g count := by
  rw [rounds, rounds]
  split_ifs <;> omega

theorem fuelAt_mono {g g' : ℕ} (h : g' ≤ g) {p : EnqueuePc} (hc : Counted p) :
    fuelAt g' p ≤ fuelAt g p := by
  cases p with
  | retry f count | push f count =>
    have := rounds_mono h hc
    simp only [fuelAt]
    omega
  | check f count =>
    have hpred := rounds_mono (show g' - 1 ≤ g - 1 by omega) (show 1 ≤ 10 by omega)
    simp only [fuelAt]
    by_cases hlt : count < 10
    · have := rounds_mono h (show count + 1 ≤ 10 by omega)
      split_ifs <;> omega
    · split_ifs <;> omega
  | pushAgain f =>
    have := rounds_mono h (show 1 ≤ 10 by omega)
    simp only [fuelAt]
    split_ifs <;> omega
  | test f count =>
    have := rounds_mono h (show count + 1 ≤ 10 from hc)
    simp only [fuelAt]
    split_ifs <;> omega
  | returned f => exact le_rfl

/-- What `push_back` stores was needed before. -/
theorem need_pushBack (q : CommitQueue) (csn : ℕ) (f : PushFlags) :
    need (q.pushBack csn f).1 (q.pushBack csn f).2 = need q f ∧
      (q.pushBack csn f).1.length = q.length := by
  rw [CommitQueue.pushBack]
  split
  next hst =>
    rw [CommitQueue.stores, Bool.and_eq_true] at hst
    simp [need, hst.1]
  next => exact ⟨rfl, rfl⟩

/-- A queue that asks for a flush has to grow. -/
theorem growths_of_nearlyFull {q : CommitQueue} (f : PushFlags) (h : q.nearlyFull = true) :
    growths q.length (need q f) ≠ 0 := by
  rw [CommitQueue.nearlyFull, decide_eq_true_eq] at h
  rw [growths, need]
  split_ifs <;> omega

theorem grows_pushBack {f : PushFlags} (hf : flags s.pc = f) {p : PushFlags → EnqueuePc}
    (hflags : ∀ f, flags (p f) = f) : (s.pushBack f p).grows = s.grows := by
  obtain ⟨hneed, hlen⟩ := need_pushBack s.queue s.csn f
  rw [grows, grows, hf, Enqueue.pushBack]
  simp only [hflags, hneed, hlen]

theorem fuel_goto {p : EnqueuePc} (hp : (flags p).insert = (flags s.pc).insert) :
    fuel { s with pc := p } = fuelAt s.grows p := by
  rw [grows, need, ← hp]
  rfl

/-- A step of the call uses fuel. -/
theorem Inv.fuel_proceed (h : Inv before csn s) (hok : ExtendOk s .proceed)
    (hs : s.step .proceed = some s') : s'.fuel < s.fuel := by
  have hg : s.grows ≤ 2 := growths_le _ _
  have hask := h.asked
  have hcount := h.counted
  rw [Enqueue.step] at hs
  split at hs
  next f count hpc =>
    cases hs
    rw [fuel_goto (by rw [hpc]; rfl), fuel, hpc]
    simp only [fuelAt]
    omega
  next f count hpc =>
    cases hs
    have hsame := grows_pushBack (s := s) (f := f) (p := (.check · count)) (by rw [hpc]; rfl)
      fun _ => rfl
    have hflush := (pushBack_insert s.queue s.csn f).2
    -- a queue that is nearly full has to grow
    have hgrow : s.queue.nearlyFull = true → s.grows ≠ 0 := fun hn =>
      growths_of_nearlyFull (flags s.pc) hn
    rw [hpc] at hask hcount
    rw [show f.flush = false from hask, Bool.false_or] at hflush
    rw [fuel, fuel, hsame, hpc]
    simp only [Enqueue.pushBack, fuelAt, hflush]
    simp only [Counted] at hcount
    by_cases hn : s.queue.nearlyFull = true
    · have := hgrow hn
      simp only [hn, if_true, rounds]
      split_ifs <;> omega
    · simp only [hn, Bool.false_eq_true, if_false, rounds]
      split_ifs <;> omega
  next f count hpc =>
    rw [hpc] at hcount
    simp only [Counted] at hcount
    split at hs
    next hten =>
      cases hs
      have hu := hok rfl (by rw [hpc]; simpa [extends?] using hten)
      have hneed : need s.queue f ≤ s.queue.length + 1 := by
        have := h.valid.items_le
        rw [need]
        split <;> omega
      have hdouble := growths_double h.valid.length_pos hneed
      have hless : grows { s with queue := s.queue.extend, pc := .pushAgain f } ≤ s.grows - 1 := by
        rw [grows, grows, hpc]
        show growths s.queue.extend.length _ ≤ _
        rw [(h.valid.extend hu).2.1]
        exact hdouble
      have hmono := fuelAt_mono (p := .pushAgain f) hless trivial
      refine lt_of_le_of_lt hmono ?_
      rw [fuel, hpc]
      simp only [fuelAt, Nat.not_lt.mpr hten, if_false]
      have hr := rounds_mono (show s.grows - 1 ≤ s.grows by omega) (show 1 ≤ 10 by omega)
      split_ifs <;> omega
    next hten =>
      cases hs
      rw [fuel_goto (by rw [hpc]; rfl), fuel, hpc]
      simp only [fuelAt, Nat.lt_of_not_le hten, if_true]
      split_ifs <;> omega
  next f hpc =>
    cases hs
    have hsame := grows_pushBack (s := s) (f := f) (p := (.test · 0)) (by rw [hpc]; rfl)
      fun _ => rfl
    have hflush := (pushBack_insert s.queue s.csn f).2
    have hgrow : s.queue.nearlyFull = true → s.grows ≠ 0 := fun hn =>
      growths_of_nearlyFull (flags s.pc) hn
    rw [fuel, fuel, hsame, hpc]
    simp only [Enqueue.pushBack, fuelAt, hflush]
    simp only [Bool.or_eq_true, Nat.zero_add]
    by_cases hn : s.queue.nearlyFull = true
    · have := hgrow hn
      simp only [hn, or_true, if_true]
      split_ifs <;> omega
    · have hiff : (f.flush = true ∨ s.queue.nearlyFull = true) ↔ f.flush = true :=
        or_iff_left hn
      simp only [hiff]
      split_ifs <;> omega
  next f count hpc =>
    split at hs
    next hflush =>
      cases hs
      rw [fuel_goto (by rw [hpc]; rfl), fuel, hpc]
      simp only [fuelAt, hflush, if_true]
      omega
    next hflush =>
      cases hs
      rw [fuel, fuel, hpc]
      simp only [fuelAt, hflush, Bool.false_eq_true, if_false]
      omega
  next => cases hs

/-- Other threads only take entries out. -/
theorem Inv.fuel_dequeue (h : Inv before csn s) {upto : ℕ} (hs : s.step (.dequeue upto) = some s') :
    s'.fuel ≤ s.fuel := by
  obtain ⟨q, hq, rfl⟩ := Option.map_eq_some_iff.mp hs
  obtain ⟨q', hq', -, hlen, hitems, -⟩ := h.valid.dequeue upto
  rw [hq, Option.some_inj] at hq'
  subst hq'
  refine fuelAt_mono ?_ h.counted
  show growths q.length (need q (flags s.pc)) ≤ growths s.queue.length (need s.queue (flags s.pc))
  rw [hlen]
  refine growths_mono ?_
  rw [need, need]
  omega

theorem fuel_start (q : CommitQueue) (csn : ℕ) : (start q csn).fuel ≤ 138 := by
  have hg : (start q csn).grows ≤ 2 := growths_le _ _
  have := rounds_mono hg (show 0 ≤ 10 by omega)
  simp only [fuel, start, fuelAt] at this ⊢
  have : rounds 2 0 = 22 := rfl
  omega

/-- The steps of a call are bounded by its fuel. -/
theorem Inv.run {acts : List EnqueueAct} (h : Inv before csn s)
    (hok : Along Enqueue.step ExtendOk s acts) (hr : StepRun.run Enqueue.step s acts = some s') :
    Inv before csn s' ∧ acts.count .proceed + s'.fuel ≤ s.fuel := by
  induction acts generalizing s with
  | nil =>
    cases hr
    exact ⟨h, by simp⟩
  | cons a acts ih =>
    obtain ⟨m, hs, hr⟩ := run_cons_eq_some.mp hr
    obtain ⟨hinv, hle⟩ := ih (h.step hok.1 hs) (hok.2 m hs) hr
    refine ⟨hinv, ?_⟩
    cases a with
    | proceed =>
      have := h.fuel_proceed hok.1 hs
      rw [List.count_cons_self]
      omega
    | dequeue upto =>
      have := h.fuel_dequeue hs
      rw [List.count_cons_of_ne EnqueueAct.noConfusion]
      omega

/-- A call that has not returned can run on. -/
theorem step_proceed_isSome (h : ∀ f, s.pc ≠ .returned f) : (s.step .proceed).isSome := by
  rw [step]
  split
  case h_3 | h_5 => split <;> rfl
  case h_6 f hpc => exact absurd hpc (h f)
  all_goals rfl

end Enqueue

/-- **The commit queue is a FIFO.**  For every queue with at most `2 ^ 31` slots and
every sequence of calls that extend it only while it is not wrapped, no call traps
and the entries are those of the abstract queue.  A call of
`enqueue_committed_xct` that starts then, with any dequeues by other threads on
the way, keeps the order; it has put in its CSN once when it returns, and it
returns after at most 138 steps. -/
theorem commit_fifo {length : ℕ} (hpos : 0 < length) (hle : length ≤ 2 ^ 31)
    {acts : List QueueAct}
    (hok : Along CommitQueue.step (fun q a => a = .extend → q.Unwrapped) (.init length) acts) :
    ∃ q, run CommitQueue.step (.init length) acts = some q ∧
      q.fifo = acts.foldl Fifo.call ⟨[], length⟩ ∧
      ∀ (csn : ℕ) (evs : List EnqueueAct) (s : Enqueue),
        Along Enqueue.step Enqueue.ExtendOk (.start q csn) evs →
        run Enqueue.step (.start q csn) evs = some s →
        q.entries ++ s.appended = s.removed ++ s.queue.entries ∧
        (s.appended = [] ∨ s.appended = [csn]) ∧
        (∀ f, s.pc = .returned f → s.appended = [csn]) ∧
        ((∀ f, s.pc ≠ .returned f) → (s.step .proceed).isSome) ∧
        evs.count .proceed ≤ 138 := by
  obtain ⟨q, hr, hv, hf⟩ := (CommitQueue.valid_init hpos hle).run hok
  refine ⟨q, hr, hf, fun csn evs s hev hrun => ?_⟩
  obtain ⟨hinv, hfuel⟩ := (Enqueue.inv_start hv csn).run hev hrun
  have honce := hinv.once
  refine ⟨hinv.fifo, ?_, fun f hpc => ?_, Enqueue.step_proceed_isSome, ?_⟩
  · rw [honce]
    split
    · exact .inl rfl
    · exact .inr rfl
  · have hask := hinv.asked
    rw [hpc] at hask honce
    rw [honce, show (Enqueue.flags (.returned f)).insert = false from hask]
    rfl
  · have := Enqueue.fuel_start q csn
    omega

/-- A queue of two slots, after two CSNs have come and one has gone. -/
def oneOfTwo : CommitQueue := ⟨Function.update (Function.update (fun _ => 0) 0 1) 1 2, 1, 1, 2⟩

theorem commit_fifo_two :
    let acts : List QueueAct := [.pushBack 1 true, .pushBack 2 true, .dequeue 1]
    let evs : List EnqueueAct := [.proceed, .proceed, .proceed, .proceed]
    Along CommitQueue.step (fun q a => a = .extend → q.Unwrapped) (.init 2) acts ∧
    run CommitQueue.step (.init 2) acts = some oneOfTwo ∧ oneOfTwo.fifo = ⟨[2], 2⟩ ∧
      Along Enqueue.step Enqueue.ExtendOk (.start oneOfTwo 3) evs ∧
      ∃ s, run Enqueue.step (.start oneOfTwo 3) evs = some s ∧
        s.pc = .returned ⟨false, false⟩ ∧ s.appended = [3] := by
  intro acts evs
  have hok : Along CommitQueue.step (fun q a => a = .extend → q.Unwrapped) (.init 2) acts := by
    decide
  obtain ⟨q, hr, hf, hcall⟩ := commit_fifo (by decide) (by decide) hok
  have hq : oneOfTwo = q := Option.some_inj.mp ((show _ = some oneOfTwo from rfl).symm.trans hr)
  subst hq
  have hev : Along Enqueue.step Enqueue.ExtendOk (.start oneOfTwo 3) evs := by decide
  exact ⟨hok, hr, hf, hev, _, rfl, rfl, (hcall 3 evs _ hev rfl).2.2.1 _ rfl⟩

/-- The entry that lies in front of the start is lost when a queue of two slots is
extended; a slot that was never written takes its place. -/
theorem extend_wrapped :
    let acts : List QueueAct :=
      [.pushBack 1 true, .pushBack 2 true, .dequeue 1, .pushBack 3 true, .extend]
    ∃ q, run CommitQueue.step (.init 2) acts = some q ∧ q.fifo = ⟨[2, 0], 4⟩ ∧
      acts.foldl Fifo.call ⟨[], 2⟩ = ⟨[2, 3], 4⟩ := by
  intro acts
  exact ⟨_, rfl, by decide, by decide⟩

end PreemptDB
