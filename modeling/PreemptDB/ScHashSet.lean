/-
A second-chance hash set is a set.

A run is a list of calls from a constructed table.  What has been emplaced with code 0 and not
been erased since is read off the calls and their results alone (`bound`); at every point of
every run the table holds exactly that, whatever the hash function does and however the
elements have been moved.

* `Allowed` — the results a set may give, with the set after the call;
* `apply_spec` — every call gives one of them;
* `size_eq_ncard` — the count;
* `hash_set` — whole runs.
-/
import Mathlib.Data.Set.Card
import PreemptDB.ScHash
import PreemptDB.StepRun

namespace PreemptDB

open Function StepRun

namespace ScHash

/-- The calls.  `find_and_emplace` is given the key that its element will carry; an iterator is
a position. -/
inductive Op (κ T : Type*) where
  | findAndEmplace (e : T)
  | find (x : κ)
  | erase (x : κ)
  | eraseAt (pos : ℕ)
  | clear
deriving DecidableEq

/-- What a call returns; an iterator is shown by the element it points to, and
`erase(iterator)` by the element that was there. -/
inductive Result (T : Type*) where
  | emplaced (it : Option T) (code : ℤ)
  | found (it : Option T)
  | erased (rval : Bool)
  | erasedAt (e : T)
  | cleared
deriving DecidableEq

variable {κ T : Type*} [DecidableEq κ]

def apply (P : ScHash κ T) (s : Table T) : Op κ T → Option (Table T × Result T)
  | .findAndEmplace e =>
    let r := P.findAndEmplace s (P.key e) e
    some (r.1, .emplaced (P.deref r.1 r.2.1) r.2.2)
  | .find x => some (s, .found (P.deref s (P.find s x)))
  | .erase x => (P.erase s x).map fun r => (r.1, .erased r.2)
  | .eraseAt pos =>
    (s.buckets pos).bind fun e => (P.eraseAt s pos).map fun s' => (s', .erasedAt e)
  | .clear => (P.clear s).map fun s' => (s', .cleared)

def step (P : ScHash κ T) (s : Table T) (op : Op κ T) : Option (Table T) :=
  (P.apply s op).map Prod.fst

/-- A call and its result. -/
def emit (P : ScHash κ T) (s : Table T) (op : Op κ T) : List (Op κ T × Result T) :=
  ((P.apply s op).map fun r => (op, r.2)).toList

/-- What a call and its result say about the elements: code 0 adds the element, the three ways
to erase remove. -/
def record (P : ScHash κ T) (m : κ → Option T) : Op κ T × Result T → κ → Option T
  | (.findAndEmplace e, .emplaced _ code) =>
    if code = 0 then Function.update m (P.key e) (some e) else m
  | (.erase x, _) => Function.update m x none
  | (.eraseAt _, .erasedAt e) => Function.update m (P.key e) none
  | (.clear, _) => fun _ => none
  | _ => m

/-- The element that was emplaced under a key with code 0 and has not been erased since. -/
def bound (P : ScHash κ T) (log : List (Op κ T × Result T)) : κ → Option T :=
  log.foldl P.record fun _ => none

/-- The results a set with the elements `m` may give, and its elements after the call. -/
inductive Allowed (P : ScHash κ T) (m : κ → Option T) :
    Op κ T → Result T → (κ → Option T) → Prop
  | present {e v : T} (h : m (P.key e) = some v) :
      Allowed P m (.findAndEmplace e) (.emplaced (some v) 1) m
  | added {e : T} (h : m (P.key e) = none) :
      Allowed P m (.findAndEmplace e) (.emplaced (some e) 0)
        (Function.update m (P.key e) (some e))
  | noSpace {e : T} (h : m (P.key e) = none) :
      Allowed P m (.findAndEmplace e) (.emplaced none (-1)) m
  | find (x : κ) : Allowed P m (.find x) (.found (m x)) m
  | erase (x : κ) : Allowed P m (.erase x) (.erased (m x).isSome) (Function.update m x none)
  | eraseAt {pos : ℕ} {v : T} (h : m (P.key v) = some v) :
      Allowed P m (.eraseAt pos) (.erasedAt v) (Function.update m (P.key v) none)
  | clear : Allowed P m .clear .cleared fun _ => none

variable {P : ScHash κ T} {s s' : Table T}

theorem Allowed.eq_record {m m' : κ → Option T} {op : Op κ T} {r : Result T}
    (h : P.Allowed m op r m') : m' = P.record m (op, r) := by
  cases h <;> simp [record]

section Calls

theorem findAndEmplace_spec (hs : P.Inv s) {e : T} {r : Result T}
    (h : P.apply s (.findAndEmplace e) = some (s', r)) :
    P.Inv s' ∧ P.Allowed (P.contents s) (.findAndEmplace e) r (P.contents s') := by
  rw [apply] at h
  rcases findAndEmplace_cases hs e with ⟨v, hv, hres⟩ | ⟨hnone, hres | ⟨t, pos, hres, hemp⟩⟩
  · simp only [hres, Option.some_inj, Prod.mk.injEq] at h
    obtain ⟨rfl, rfl⟩ := h
    rw [← contents, hv]
    exact ⟨hs, .present hv⟩
  · simp only [hres, Option.some_inj, Prod.mk.injEq] at h
    obtain ⟨rfl, rfl⟩ := h
    rw [deref, if_pos rfl]
    exact ⟨hs, .noSpace hnone⟩
  · have hnew := (contents_eq_none_iff hs).mp hnone
    obtain ⟨hinv, hpos, hiff⟩ := hemp.spec hs hnew
    simp only [hres, Option.some_inj, Prod.mk.injEq] at h
    obtain ⟨rfl, rfl⟩ := h
    rw [hpos.deref hinv, contents_add hs hinv hnew hiff]
    exact ⟨hinv, .added hnone⟩

theorem erase_spec (hs : P.Inv s) {x : κ} {r : Result T}
    (h : P.apply s (.erase x) = some (s', r)) :
    P.Inv s' ∧ P.Allowed (P.contents s) (.erase x) r (P.contents s') := by
  have hend := find_ne_slots_iff hs x
  rw [apply, erase] at h
  rcases find_cases hs x with ⟨v, hv, rfl⟩ | ⟨hslots, hnone⟩
  · have hne := (hs.lt_slots hv.1).ne
    simp only [ne_eq, hne, not_false_eq_true, if_true, Option.map_map,
      Option.map_eq_some_iff, comp_apply, Prod.mk.injEq] at h
    obtain ⟨t, ht, rfl, rfl⟩ := h
    rw [contents_eraseAt hs ht hv, ← hend.mp hne]
    exact ⟨hs.eraseAt ht, .erase _⟩
  · simp only [hslots, ne_eq, not_true_eq_false, if_false, Option.map_some, Option.some_inj,
      Prod.mk.injEq] at h
    obtain ⟨rfl, rfl⟩ := h
    have hx : P.contents s x = none := (contents_eq_none_iff hs).mpr hnone
    have hsame : P.contents s = Function.update (P.contents s) x none := by
      rw [← hx, update_eq_self]
    have hallow := Allowed.erase (P := P) (m := P.contents s) x
    rw [← hsame, hx] at hallow
    exact ⟨hs, hallow⟩

theorem eraseAt_spec (hs : P.Inv s) {pos : ℕ} {r : Result T}
    (h : P.apply s (.eraseAt pos) = some (s', r)) :
    P.Inv s' ∧ P.Allowed (P.contents s) (.eraseAt pos) r (P.contents s') := by
  rw [apply] at h
  obtain ⟨v, hv, h⟩ := Option.bind_eq_some_iff.mp h
  obtain ⟨t, ht, h⟩ := Option.map_eq_some_iff.mp h
  obtain ⟨rfl, rfl⟩ := Prod.mk.inj h
  have hholds : Holds s pos v := ⟨(eraseAt_eq_some ht).1, hv⟩
  rw [contents_eraseAt hs ht hholds]
  exact ⟨hs.eraseAt ht, .eraseAt ((contents_eq_some_iff hs).mpr ⟨⟨pos, hholds⟩, rfl⟩)⟩

theorem contents_of_presence_zero {b : ℕ → Option T} :
    P.contents ⟨fun _ => 0#64, b⟩ = fun _ => none := by
  funext x
  refine (contents_eq_none_iff inv_of_presence_zero).mpr fun i v hv => ?_
  exact absurd hv (not_holds_empty_presence i v)

/-- Every call keeps the invariant and gives a result that a set may give. -/
theorem apply_spec (h64 : 64 ∣ P.slots) (hs : P.Inv s) {op : Op κ T} {r : Result T}
    (h : P.apply s op = some (s', r)) :
    P.Inv s' ∧ P.Allowed (P.contents s) op r (P.contents s') := by
  cases op with
  | findAndEmplace e => exact findAndEmplace_spec hs h
  | find x =>
    rw [apply, Option.some_inj] at h
    obtain ⟨rfl, rfl⟩ := Prod.mk.inj h
    exact ⟨hs, .find x⟩
  | erase x => exact erase_spec hs h
  | eraseAt pos => exact eraseAt_spec hs h
  | clear =>
    obtain ⟨b, hb⟩ := clear_eq_some h64 s
    rw [apply, hb, Option.map_some, Option.some_inj] at h
    obtain ⟨rfl, rfl⟩ := Prod.mk.inj h
    rw [contents_of_presence_zero]
    exact ⟨inv_of_presence_zero, .clear⟩

/-- Every call returns; an iterator that is erased has to point to an element. -/
theorem apply_isSome (h64 : 64 ∣ P.slots) (hs : P.Inv s) (op : Op κ T)
    (hop : ∀ pos, op = .eraseAt pos → s.isPresent pos = true) :
    ∃ s' r, P.apply s op = some (s', r) := by
  cases op with
  | findAndEmplace e => exact ⟨_, _, rfl⟩
  | find x => exact ⟨_, _, rfl⟩
  | erase x =>
    rw [apply, erase]
    rcases find_cases hs x with ⟨v, hv, -⟩ | ⟨hslots, -⟩
    · obtain ⟨t, ht⟩ := Option.isSome_iff_exists.mp (eraseAt_isSome hs hv.1)
      simp only [ne_eq, (hs.lt_slots hv.1).ne, not_false_eq_true, if_true, ht, Option.map_some]
      exact ⟨_, _, rfl⟩
    · simp only [hslots, ne_eq, not_true_eq_false, if_false, Option.map_some]
      exact ⟨_, _, rfl⟩
  | eraseAt pos =>
    have hpres := hop pos rfl
    obtain ⟨v, hv⟩ := hs.full pos hpres
    obtain ⟨t, ht⟩ := Option.isSome_iff_exists.mp (eraseAt_isSome hs hpres)
    rw [apply, hv, Option.bind_some, ht]
    exact ⟨_, _, rfl⟩
  | clear =>
    obtain ⟨b, hb⟩ := clear_eq_some h64 s
    rw [apply, hb]
    exact ⟨_, _, rfl⟩

end Calls

section Runs

/-- The count is the number of keys. -/
theorem size_eq_ncard (h64 : 64 ∣ P.slots) (hs : P.Inv s) :
    P.size s = {x | (P.contents s x).isSome = true}.ncard := by
  have hkeys : {x | (P.contents s x).isSome = true} =
      (((P.elements s).map P.key).toFinset : Set κ) := by
    ext x
    simp only [Set.mem_ofPred_eq, Option.isSome_iff_exists, contents_eq_some_iff hs,
      List.coe_toFinset, List.mem_map, mem_elements hs]
  rw [hkeys, Set.ncard_coe_finset, List.toFinset_card_of_nodup (nodup_keys hs), List.length_map,
    length_elements hs, size_eq h64]

/-- The table holds what the calls and their results say. -/
theorem run_spec (h64 : 64 ∣ P.slots) {ops : List (Op κ T)}
    (hrun : run P.step Table.empty ops = some s) :
    P.Inv s ∧ P.contents s = P.bound (trace P.step P.emit Table.empty ops) := by
  refine run_induction (s := Table.empty)
    (P := fun ops s => P.Inv s ∧
      P.contents s = P.bound (trace P.step P.emit Table.empty ops))
    ⟨inv_of_presence_zero, contents_of_presence_zero⟩ ?_ hrun
  intro ops t op t' ht hstep ⟨hinv, hcont⟩
  obtain ⟨⟨t'', r⟩, happly, rfl⟩ := Option.map_eq_some_iff.mp hstep
  obtain ⟨hinv', hallow⟩ := apply_spec h64 hinv happly
  refine ⟨hinv', ?_⟩
  have hemit : P.emit t op = [(op, r)] := by
    rw [emit, happly]
    rfl
  rw [trace_snoc ht, hemit, bound, List.foldl_append, ← bound, ← hcont]
  exact hallow.eq_record

/-- At every point of every run the table is the set of what has been emplaced with code 0 and
not been erased since.  A lookup finds exactly those keys, with their elements; every call
returns, with a result and an effect of a set; the count is the number of keys; and the
iterator goes through every element once. -/
theorem hash_set (P : ScHash κ T) (h64 : 64 ∣ P.slots) {ops : List (Op κ T)} {s : Table T}
    (hrun : run P.step Table.empty ops = some s) :
    let m := P.bound (trace P.step P.emit Table.empty ops)
    (∀ x, P.deref s (P.find s x) = m x ∧ (P.find s x ≠ P.slots ↔ (m x).isSome = true)) ∧
      (∀ op, (∀ pos, op = .eraseAt pos → s.isPresent pos = true) →
        ∃ s' r, P.apply s op = some (s', r) ∧ P.Allowed m op r (P.contents s')) ∧
      P.size s = {x | (m x).isSome = true}.ncard ∧
      ∃ vs : List T, (P.visit s (P.begin s)).map (·.map (P.deref s)) = some (vs.map some) ∧
        (vs.map P.key).Nodup ∧ ∀ v, v ∈ vs ↔ m (P.key v) = some v := by
  intro m
  obtain ⟨hs, hm⟩ := run_spec h64 hrun
  have hm : P.contents s = m := hm
  rw [← hm]
  refine ⟨fun x => ⟨rfl, find_ne_slots_iff hs x⟩, fun op hop => ?_, size_eq_ncard h64 hs,
    P.elements s, ?_, nodup_keys hs, fun v => ?_⟩
  · obtain ⟨s', r, happly⟩ := apply_isSome h64 hs op hop
    exact ⟨s', r, happly, (apply_spec h64 hs happly).2⟩
  · rw [visit_begin h64, Option.map_some, map_deref_visited hs]
  · rw [mem_elements hs, contents_eq_some_iff hs]
    simp

/-- A table of 64 slots with two levels of 32 buckets of one slot. -/
def narrow : ScHash ℕ ℕ where
  slots := 64
  subtables := 2
  bucketSize := 1
  useLevels := true
  secondChance := true
  hashBits := 16
  triviallyDestructible := true
  key := id
  hash := BitVec.ofNat 16
  slots_pow := by decide
  subtables_pow := by decide
  bucketSize_pow := by decide
  slots_mod := by decide
  hashBits_le := by decide +kernel
  levels_of_secondChance := .inl rfl

/-- The third element has the buckets of the second; the first one moves to level 1. -/
theorem hash_set_narrow :
    ∃ s, run narrow.step Table.empty
        [.findAndEmplace 32, .findAndEmplace 64, .findAndEmplace 1088] = some s ∧
      narrow.deref s (narrow.find s 32) = some 32 ∧
      narrow.deref s (narrow.find s 1088) = some 1088 := by
  have hrun : (run narrow.step Table.empty
      [.findAndEmplace 32, .findAndEmplace 64, .findAndEmplace 1088]).isSome = true := by
    decide +kernel
  obtain ⟨s, hs⟩ := Option.isSome_iff_exists.mp hrun
  have hset := (hash_set narrow (by decide) hs).1
  refine ⟨s, hs, (hset 32).1.trans ?_, (hset 1088).1.trans ?_⟩
  · decide +kernel
  · decide +kernel

end Runs

end ScHash

end PreemptDB
