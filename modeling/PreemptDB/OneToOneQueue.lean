/-
The bounded queue between the scheduler and a worker (`ring-buff-queue.h`).

One thread pushes and one thread pops, without locks.  An element is a pair,
which is copied one component at a time, and `endIdx` moves only when the copy
is complete.  Indices are 32-bit; with a capacity of zero `%` traps.

* `OneToOneQueue` — the operations, with the pieces of `push` and `pop`;
* `Rep q pushed popped` — `q` holds what was pushed after the first `popped`
  elements;
* `Space` — what the producer knows between its test and the end of its push.
-/
import Mathlib.Tactic

namespace PreemptDB

open Function

/-- `OneToOneQueue<std::pair<α, β>>` -/
structure OneToOneQueue (α β : Type*) where
  data : ℕ → α × β
  startIdx : ℕ
  endIdx : ℕ
  capacity : ℕ

namespace OneToOneQueue

variable {α β : Type*}

/-- `init`; the array is uninitialised. -/
def init (data : ℕ → α × β) (size : ℕ) : OneToOneQueue α β :=
  ⟨data, 0, 0, (size + 1) % 2 ^ 32⟩

/-- `(i + 1) % capacity` -/
def next (q : OneToOneQueue α β) (i : ℕ) : Option ℕ :=
  if q.capacity = 0 then none else some ((i + 1) % 2 ^ 32 % q.capacity)

def isEmpty (q : OneToOneQueue α β) : Bool := q.startIdx == q.endIdx

def isFull (q : OneToOneQueue α β) : Option Bool := (q.next q.endIdx).map (· == q.startIdx)

/-- `pop`, when `startIdx` was read as `i`. -/
def popStore (q : OneToOneQueue α β) (i : ℕ) : Option (OneToOneQueue α β) :=
  (q.next i).map fun j => { q with startIdx := j }

/-- `push`: `data[endIdx] = t`, the first component. -/
def writeFirst (q : OneToOneQueue α β) (a : α) : OneToOneQueue α β :=
  { q with data := update q.data q.endIdx (a, (q.data q.endIdx).2) }

/-- `push`: `data[endIdx] = t`, the second component. -/
def writeSecond (q : OneToOneQueue α β) (b : β) : OneToOneQueue α β :=
  { q with data := update q.data q.endIdx ((q.data q.endIdx).1, b) }

theorem writeFirst_data (q : OneToOneQueue α β) (a : α) :
    (q.writeFirst a).data q.endIdx = (a, (q.data q.endIdx).2) := update_self _ _ _

theorem writeSecond_data (q : OneToOneQueue α β) (b : β) :
    (q.writeSecond b).data q.endIdx = ((q.data q.endIdx).1, b) := update_self _ _ _

/-- `push`: the new element becomes visible. -/
def advance (q : OneToOneQueue α β) : Option (OneToOneQueue α β) :=
  (q.next q.endIdx).map fun j => { q with endIdx := j }

/-- `pushed` has gone into the queue, and `popped` elements have left it.  With a
capacity of one, the queue stays empty and what is pushed is lost. -/
structure Rep (q : OneToOneQueue α β) (pushed : List (α × β)) (popped : ℕ) : Prop where
  capacity_lt : q.capacity < 2 ^ 32
  startIdx : q.startIdx = popped % q.capacity
  endIdx : q.endIdx = pushed.length % q.capacity
  le : popped ≤ pushed.length
  trap : q.capacity = 0 → pushed = []
  room : 1 < q.capacity → pushed.length < popped + q.capacity
  slot : 1 < q.capacity → ∀ i t, popped ≤ i → pushed[i]? = some t → q.data (i % q.capacity) = t

/-- There is room for one more element. -/
def Space (q : OneToOneQueue α β) (pushed : List (α × β)) (popped : ℕ) : Prop :=
  1 < q.capacity → pushed.length + 1 < popped + q.capacity

theorem mod_ne_of_lt {a b n : ℕ} (hab : a < b) (hb : b < a + n) : a % n ≠ b % n := by
  intro h
  have hdvd : n ∣ b - a := (Nat.modEq_iff_dvd' hab.le).mp h
  have hle : n ≤ b - a := Nat.le_of_dvd (by omega) hdvd
  omega

variable {q q' : OneToOneQueue α β} {pushed : List (α × β)} {popped : ℕ}

theorem rep_init (data : ℕ → α × β) (size : ℕ) : Rep (init data size) [] 0 :=
  ⟨Nat.mod_lt _ (by norm_num), (Nat.zero_mod _).symm, (Nat.zero_mod _).symm, le_rfl,
    fun _ => rfl, fun h => by simp only [List.length_nil]; omega,
    fun _ i t _ h => absurd h (by simp)⟩

/-- The next index, without the traps. -/
theorem Rep.next_eq {n i : ℕ} (h : Rep q pushed popped) (hnext : q.next (n % q.capacity) = some i) :
    0 < q.capacity ∧ i = (n + 1) % q.capacity := by
  have hlt := h.capacity_lt
  rw [next] at hnext
  split at hnext
  · cases hnext
  · next hne =>
    cases hnext
    have hmod : n % q.capacity < q.capacity := Nat.mod_lt _ (by omega)
    refine ⟨by omega, ?_⟩
    rw [Nat.mod_eq_of_lt (show n % q.capacity + 1 < 2 ^ 32 by omega), Nat.mod_add_mod]

/-- A queue that is not empty has a front. -/
theorem Rep.nonempty (h : Rep q pushed popped) (hq : q.isEmpty = false) :
    popped < pushed.length ∧ 1 < q.capacity := by
  rw [isEmpty, beq_eq_false_iff_ne, h.startIdx, h.endIdx] at hq
  have hlen : popped ≠ pushed.length := fun heq => hq (by rw [heq])
  have hle := h.le
  refine ⟨by omega, ?_⟩
  by_contra hcap
  obtain hzero | hone : q.capacity = 0 ∨ q.capacity = 1 := by omega
  · have hnil := congrArg List.length (h.trap hzero)
    rw [List.length_nil] at hnil
    omega
  · rw [hone, Nat.mod_one, Nat.mod_one] at hq
    exact hq rfl

theorem Rep.not_isEmpty (h : Rep q pushed popped) (hlt : popped < pushed.length)
    (hcap : 1 < q.capacity) : q.isEmpty = false := by
  rw [isEmpty, beq_eq_false_iff_ne, h.startIdx, h.endIdx]
  exact mod_ne_of_lt hlt (h.room hcap)

theorem Rep.space_of_isEmpty (h : Rep q pushed popped) (hq : q.isEmpty = true) :
    Space q pushed popped := by
  intro hcap
  have hle := h.le
  have heq : ¬ popped < pushed.length := fun hlt => by
    rw [h.not_isEmpty hlt hcap] at hq
    cases hq
  omega

theorem Rep.space_of_not_isFull (h : Rep q pushed popped) (hq : q.isFull = some false) :
    Space q pushed popped := by
  intro hcap
  obtain ⟨i, hi, hne⟩ := Option.map_eq_some_iff.mp hq
  rw [h.endIdx] at hi
  obtain ⟨hpos, rfl⟩ := h.next_eq hi
  rw [beq_eq_false_iff_ne, h.startIdx] at hne
  have hroom := h.room hcap
  by_contra hlt
  refine hne ?_
  rw [show pushed.length + 1 = popped + q.capacity by omega, Nat.add_mod_right]

theorem Rep.front_eq (h : Rep q pushed popped) (hcap : 1 < q.capacity) {t : α × β}
    (ht : pushed[popped]? = some t) : q.data q.startIdx = t := by
  rw [h.startIdx]
  exact h.slot hcap popped t le_rfl ht

/-- A slot that is free may be written. -/
theorem Rep.write (h : Rep q pushed popped) (t : α × β) :
    Rep { q with data := update q.data q.endIdx t } pushed popped := by
  refine ⟨h.capacity_lt, h.startIdx, h.endIdx, h.le, h.trap, h.room, fun hcap i u hi hu => ?_⟩
  have hlt : i < pushed.length := (List.getElem?_eq_some_iff.mp hu).1
  have hroom := h.room hcap
  have hne : i % q.capacity ≠ q.endIdx := by
    rw [h.endIdx]
    exact mod_ne_of_lt hlt (by omega)
  change update q.data q.endIdx t (i % q.capacity) = u
  rw [update_of_ne hne]
  exact h.slot hcap i u hi hu

/-- The copy is complete. -/
theorem Rep.advance (h : Rep q pushed popped) (hspace : Space q pushed popped) {t : α × β}
    (ht : q.data q.endIdx = t) (hq : q.advance = some q') :
    Rep q' (pushed ++ [t]) popped := by
  obtain ⟨i, hi, rfl⟩ := Option.map_eq_some_iff.mp hq
  rw [h.endIdx] at hi
  obtain ⟨hpos, rfl⟩ := h.next_eq hi
  have hle := h.le
  have hlen : (pushed ++ [t]).length = pushed.length + 1 := List.length_append
  refine ⟨h.capacity_lt, h.startIdx, ?_, by omega, fun hzero => ?_, fun hcap => ?_,
    fun hcap i u hi hu => ?_⟩
  · rw [hlen]
  · change q.capacity = 0 at hzero
    omega
  · rw [hlen]
    exact hspace hcap
  · rcases Nat.lt_or_ge i pushed.length with hlt | hge
    · rw [List.getElem?_append_left hlt] at hu
      exact h.slot hcap i u hi hu
    · have hlast : i < pushed.length + 1 := hlen ▸ (List.getElem?_eq_some_iff.mp hu).1
      obtain rfl : i = pushed.length := by omega
      rw [List.getElem?_concat_length, Option.some_inj] at hu
      rw [← hu, ← ht, h.endIdx]

/-- An element leaves the queue. -/
theorem Rep.popStore (h : Rep q pushed popped) (hlt : popped < pushed.length)
    (hq : q.popStore q.startIdx = some q') : Rep q' pushed (popped + 1) := by
  obtain ⟨i, hi, rfl⟩ := Option.map_eq_some_iff.mp hq
  rw [h.startIdx] at hi
  obtain ⟨hpos, rfl⟩ := h.next_eq hi
  refine ⟨h.capacity_lt, rfl, h.endIdx, hlt, h.trap, fun hcap => ?_, fun hcap i u hi hu => ?_⟩
  · have := h.room hcap
    change pushed.length < popped + 1 + q.capacity
    omega
  · exact h.slot hcap i u (by omega) hu

end OneToOneQueue

end PreemptDB
