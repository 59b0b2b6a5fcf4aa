/-
The second-chance hash set (`dbcore/sc-hash.h`).

The table has `subtables` levels, and the hash of a key gives one bucket in each level.  An
element goes to the first free slot of its buckets; where the bucket of a level is full, an
element of the bucket one level below may be moved to its own bucket at this level to make
room.  So the slot of an element is always one of the slots that its own hash names, which
is what `find` relies on.

* `ScHash` — the template parameters with their static assertions;
* `find`, `findAndEmplace`, `eraseAt`, `erase`, `clear`, `visit` — the operations;
* `Placed` — the invariant, on the relation between slots and elements;
* `find_cases`, `findAndEmplace_cases`, `Inv.eraseAt` — the operations one by one;
* `visit_begin`, `size_eq` — the iterator and the count;
* `mem_elements`, `nodup_keys` — the elements the iterator goes through.
-/
import PreemptDB.SizeEncode
import PreemptDB.WordBitmap

namespace PreemptDB

open Function

/-- `__builtin_ctzll` -/
def ctzll (w : BitVec 64) : ℕ := w.ctz.toNat

/-- The template parameters of `sc_hash_set` and its static assertions.  `Equals` compares
an element with a key by the key it carries, and equal keys have equal hashes. -/
structure ScHash (κ T : Type*) where
  slots : ℕ
  subtables : ℕ
  bucketSize : ℕ
  useLevels : Bool
  secondChance : Bool
  hashBits : ℕ
  triviallyDestructible : Bool
  key : T → κ
  hash : κ → BitVec hashBits
  slots_pow : slots ≠ 0 ∧ slots &&& (slots - 1) = 0
  subtables_pow : subtables ≠ 0 ∧ subtables &&& (subtables - 1) = 0
  bucketSize_pow : bucketSize ≠ 0 ∧ bucketSize &&& (bucketSize - 1) = 0
  slots_mod : slots % (subtables * bucketSize) = 0
  hashBits_le : ctzll (BitVec.ofNat 64 (slots / bucketSize / subtables)) * subtables ≤ hashBits
  levels_of_secondChance : useLevels = true ∨ secondChance = false

namespace ScHash

/-- `_presence` and `_buckets`.  A slot that holds no constructed value is `none`; a
trivially destructible value stays in its slot when it is erased. -/
structure Table (T : Type*) where
  presence : WordBitmap
  buckets : ℕ → Option T

variable {κ T : Type*}

/-- A constructed table: `objzero(_presence)`. -/
def Table.empty : Table T := ⟨fun _ => 0#64, fun _ => none⟩

/-- `_is_present` -/
def Table.isPresent (s : Table T) (pos : ℕ) : Bool := s.presence.mem pos

/-- `_init_value` -/
def Table.initValue (s : Table T) (pos : ℕ) (e : T) : Table T :=
  ⟨s.presence.insert pos, Function.update s.buckets pos (some e)⟩

variable (P : ScHash κ T)

/-- `HP_BITS` -/
def hpBits : ℕ := ctzll (BitVec.ofNat 64 (P.slots / P.bucketSize / P.subtables))

/-- `HP_MASK` -/
def hpMask : BitVec P.hashBits := (1#P.hashBits <<< P.hpBits) - 1#P.hashBits

/-- `_hash_part` -/
def hashPart (h : BitVec P.hashBits) (i : ℕ) : BitVec P.hashBits :=
  (h >>> (i * P.hpBits)) &&& P.hpMask

/-- `_get_bucket` -/
def getBucket (h : BitVec P.hashBits) (i : ℕ) : ℕ :=
  let part := (P.hashPart h i).toNat
  let nbuckets := P.slots / P.bucketSize
  let subtsize := nbuckets / P.subtables
  let idx := if P.useLevels then subtsize * i + (part &&& (subtsize - 1))
    else part &&& (nbuckets - 1)
  P.bucketSize * idx

/-- The slots `pos, …, pos + M - 1` of a bucket. -/
def bucketAt (pos : ℕ) : List ℕ := List.range' pos P.bucketSize

/-- The slots that the nested loops of `_find` go through. -/
def probes (h : BitVec P.hashBits) : List ℕ :=
  (List.range P.subtables).flatMap fun k => P.bucketAt (P.getBucket h k)

/-- The first free slot of a bucket. -/
def freeSlot (s : Table T) (pos : ℕ) : Option ℕ :=
  (P.bucketAt pos).find? fun i => !s.isPresent i

/-- `_find`; `end()` is the position `N`. -/
def findHashed [DecidableEq κ] (s : Table T) (x : κ) (h : BitVec P.hashBits) : ℕ :=
  ((P.probes h).find? fun i => s.isPresent i && (s.buckets i).any (P.key · = x)).getD P.slots

def find [DecidableEq κ] (s : Table T) (x : κ) : ℕ := P.findHashed s x (P.hash x)

/-- The element an iterator points to. -/
def deref (s : Table T) (pos : ℕ) : Option T := if pos = P.slots then none else s.buckets pos

/-- The second chance: the first slot `j` of the bucket one level below whose element has a
free slot `i` in its own bucket at level `k`. -/
def evict (s : Table T) (oldPos k : ℕ) : Option (ℕ × ℕ × T) :=
  (P.bucketAt oldPos).findSome? fun j =>
    (s.buckets j).bind fun y =>
      (P.freeSlot s (P.getBucket (P.hash (P.key y)) k)).map fun i => (j, i, y)

/-- The loop over the levels from `k` on, with `n` of them left.  In the second-chance branch
`y` is moved to slot `i` and the new element takes its place. -/
def emplaceFrom (s : Table T) (h : BitVec P.hashBits) (e : T) :
    (n k oldPos : ℕ) → Table T × ℕ × ℤ
  | 0, _, _ => (s, P.slots, -1)
  | n + 1, k, oldPos =>
    let pos := P.getBucket h k
    match P.freeSlot s pos with
    | some i => (s.initValue i e, i, 0)
    | none =>
      match if P.secondChance && k != 0 then P.evict s oldPos k else none with
      | some (j, i, y) =>
        let s' := s.initValue i y
        (⟨s'.presence, Function.update s'.buckets j (some e)⟩, j, 0)
      | none => emplaceFrom s h e n (k + 1) pos

/-- `find_and_emplace` of the element `e`, which is constructed from the arguments, under the
key `x`: the table, the position of the iterator and the code. -/
def findAndEmplace [DecidableEq κ] (s : Table T) (x : κ) (e : T) : Table T × ℕ × ℤ :=
  let it := P.find s x
  if it ≠ P.slots then (s, it, 1) else P.emplaceFrom s (P.hash x) e P.subtables 0 0

/-- `_destroy_value` -/
def destroyValue (s : Table T) (pos : ℕ) : Table T :=
  if P.triviallyDestructible then s else { s with buckets := Function.update s.buckets pos none }

/-- `erase(iterator)`; the assertions fail for an iterator that points to no element. -/
def eraseAt (s : Table T) (pos : ℕ) : Option (Table T) :=
  if pos ≠ P.slots ∧ s.isPresent pos then
    some { P.destroyValue s pos with presence := s.presence.erase pos }
  else none

/-- `erase(key)` -/
def erase [DecidableEq κ] (s : Table T) (x : κ) : Option (Table T × Bool) :=
  let it := P.find s x
  if it ≠ P.slots then (P.eraseAt s it).map (·, true) else some (s, false)

/-- `iterator::_find_valid`: the loop goes from word to word until one has a bit left. -/
def findValid (s : Table T) (pos : ℕ) : ℕ :=
  if pos < P.slots then
    let pending := s.presence.pending pos
    if pending = 0#64 then findValid s (alignDown pos 64 + 64)
    else alignDown pos 64 + ctzll pending
  else pos
termination_by P.slots - pos
decreasing_by
  have : pos < alignDown pos 64 + 64 := by
    rw [alignDown]
    omega
  omega

theorem le_findValid (s : Table T) (pos : ℕ) : pos ≤ P.findValid s pos := by
  fun_induction findValid P s pos with
  | case1 pos _ _ _ ih =>
    refine le_trans ?_ ih
    rw [alignDown]
    omega
  | case2 pos _ pending hne => exact (WordBitmap.pending_ne_zero hne).1
  | case3 => exact le_rfl

/-- The positions of `for (auto it = begin(); it != end(); ++it)` from an iterator on; `none`
where the iterator has left the table. -/
def visit (s : Table T) (pos : ℕ) : Option (List ℕ) :=
  if pos = P.slots then some []
  else if pos < P.slots then (visit s (P.findValid s (pos + 1))).map (pos :: ·)
  else none
termination_by P.slots - pos
decreasing_by
  have := P.le_findValid s (pos + 1)
  omega

/-- `begin()` -/
def begin (s : Table T) : ℕ := P.findValid s 0

/-- `clear`: a value that has a destructor is destroyed first. -/
def clear (s : Table T) : Option (Table T) :=
  if P.triviallyDestructible then some { s with presence := fun _ => 0#64 }
  else (P.visit s (P.begin s)).map fun ps =>
    { ps.foldl P.destroyValue s with presence := fun _ => 0#64 }

/-- `size`: the `NP` words of `_presence` are counted. -/
def size (s : Table T) : ℕ :=
  ((List.range (alignUp P.slots 64 / 64)).map fun i => (s.presence i).cpop.toNat).sum

section Buckets

theorem slots_div_pos : 0 < P.slots / P.bucketSize / P.subtables := by
  have hpos : 0 < P.bucketSize * P.subtables :=
    Nat.mul_pos (Nat.pos_of_ne_zero P.bucketSize_pow.1) (Nat.pos_of_ne_zero P.subtables_pow.1)
  have hdvd : P.bucketSize * P.subtables ∣ P.slots := by
    rw [Nat.mul_comm]
    exact Nat.dvd_of_mod_eq_zero P.slots_mod
  rw [Nat.div_div_eq_div_mul]
  exact Nat.div_pos (Nat.le_of_dvd (Nat.pos_of_ne_zero P.slots_pow.1) hdvd) hpos

/-- A bucket lies inside the table. -/
theorem getBucket_add_le (h : BitVec P.hashBits) {k : ℕ} (hk : k < P.subtables) :
    P.getBucket h k + P.bucketSize ≤ P.slots := by
  set n := P.slots / P.bucketSize with hn
  set S := n / P.subtables with hS
  have hSpos : 0 < S := P.slots_div_pos
  have hSle : S * P.subtables ≤ n := Nat.div_mul_le_self _ _
  have hnpos : 0 < n :=
    lt_of_lt_of_le (Nat.mul_pos hSpos (Nat.pos_of_ne_zero P.subtables_pow.1)) hSle
  have hidx : (if P.useLevels then S * k + ((P.hashPart h k).toNat &&& (S - 1))
      else (P.hashPart h k).toNat &&& (n - 1)) + 1 ≤ n := by
    split
    · have hand : (P.hashPart h k).toNat &&& (S - 1) ≤ S - 1 := Nat.and_le_right
      have hmul : S * (k + 1) ≤ S * P.subtables := Nat.mul_le_mul_left S hk
      rw [Nat.mul_succ] at hmul
      omega
    · have hand : (P.hashPart h k).toNat &&& (n - 1) ≤ n - 1 := Nat.and_le_right
      omega
  calc P.getBucket h k + P.bucketSize
      = P.bucketSize * ((if P.useLevels then S * k + ((P.hashPart h k).toNat &&& (S - 1))
        else (P.hashPart h k).toNat &&& (n - 1)) + 1) := by rw [Nat.mul_succ]; rfl
    _ ≤ P.bucketSize * n := Nat.mul_le_mul_left _ hidx
    _ ≤ P.slots := Nat.mul_div_le _ _

theorem mem_probes {h : BitVec P.hashBits} {i : ℕ} :
    i ∈ P.probes h ↔ ∃ k < P.subtables, i ∈ P.bucketAt (P.getBucket h k) := by
  simp [probes]

theorem lt_of_mem_probes {h : BitVec P.hashBits} {i : ℕ} (hi : i ∈ P.probes h) :
    i < P.slots := by
  obtain ⟨k, hk, hi⟩ := P.mem_probes.mp hi
  have hle := P.getBucket_add_le h hk
  rw [bucketAt, List.mem_range'_1] at hi
  omega

theorem freeSlot_eq_some {s : Table T} {pos i : ℕ} (h : P.freeSlot s pos = some i) :
    i ∈ P.bucketAt pos ∧ s.isPresent i = false := by
  refine ⟨List.mem_of_find?_eq_some h, ?_⟩
  have := List.find?_some h
  simpa using this

theorem freeSlot_eq_none {s : Table T} {pos : ℕ} (h : P.freeSlot s pos = none) :
    ∀ i ∈ P.bucketAt pos, s.isPresent i = true := by
  intro i hi
  have := List.find?_eq_none.mp h i hi
  simpa using this

theorem evict_eq_some {s : Table T} {oldPos k j i : ℕ} {y : T}
    (h : P.evict s oldPos k = some (j, i, y)) :
    j ∈ P.bucketAt oldPos ∧ s.buckets j = some y ∧
      P.freeSlot s (P.getBucket (P.hash (P.key y)) k) = some i := by
  obtain ⟨j', hj', h⟩ := List.exists_of_findSome?_eq_some h
  obtain ⟨y', hy', h⟩ := Option.bind_eq_some_iff.mp h
  obtain ⟨i', hi', h⟩ := Option.map_eq_some_iff.mp h
  obtain ⟨rfl, rfl, rfl⟩ : j' = j ∧ i' = i ∧ y' = y := by simpa using h
  exact ⟨hj', hy', hi'⟩

end Buckets

section Placement

/-- Slot `i` holds the element `v`. -/
def Holds (s : Table T) (i : ℕ) (v : T) : Prop := s.isPresent i = true ∧ s.buckets i = some v

/-- Every element is in a slot that its own hash names, and no key is in two slots. -/
structure Placed (R : ℕ → T → Prop) : Prop where
  mem_probes : ∀ {i v}, R i v → i ∈ P.probes (P.hash (P.key v))
  unique : ∀ {i j v w}, R i v → R j w → P.key v = P.key w → i = j

variable {P} {R : ℕ → T → Prop}

/-- A new key is put into a slot. -/
theorem Placed.add (h : P.Placed R) {i : ℕ} {e : T} (hi : i ∈ P.probes (P.hash (P.key e)))
    (hnew : ∀ j v, R j v → P.key v ≠ P.key e) :
    P.Placed fun j v => (j = i ∧ v = e) ∨ R j v := by
  constructor
  · rintro j v (⟨rfl, rfl⟩ | hv)
    · exact hi
    · exact h.mem_probes hv
  · rintro j l v w (⟨rfl, rfl⟩ | hv) (⟨rfl, rfl⟩ | hw) hkey
    · rfl
    · exact absurd hkey.symm (hnew l w hw)
    · exact absurd hkey (hnew j v hv)
    · exact h.unique hv hw hkey

/-- A slot is emptied. -/
theorem Placed.drop (h : P.Placed R) (i : ℕ) : P.Placed fun j v => R j v ∧ j ≠ i :=
  ⟨fun hv => h.mem_probes hv.1, fun hv hw => h.unique hv.1 hw.1⟩

theorem Placed.congr {R' : ℕ → T → Prop} (h : P.Placed R) (hiff : ∀ i v, R' i v ↔ R i v) :
    P.Placed R' :=
  ⟨fun hv => h.mem_probes ((hiff _ _).mp hv),
    fun hv hw => h.unique ((hiff _ _).mp hv) ((hiff _ _).mp hw)⟩

/-- The invariant of the table: its elements are placed, and a slot whose bit is set holds a
constructed value. -/
structure Inv (P : ScHash κ T) (s : Table T) : Prop where
  placed : P.Placed (Holds s)
  full : ∀ i, s.isPresent i = true → ∃ v, s.buckets i = some v

theorem Holds.eq {s : Table T} {i : ℕ} {v w : T} (hv : Holds s i v) (hw : Holds s i w) :
    v = w :=
  Option.some_inj.mp (hv.2.symm.trans hw.2)

theorem Inv.lt_slots {s : Table T} (hs : P.Inv s) {i : ℕ} (hi : s.isPresent i = true) :
    i < P.slots := by
  obtain ⟨v, hv⟩ := hs.full i hi
  exact P.lt_of_mem_probes (hs.placed.mem_probes ⟨hi, hv⟩)

theorem Holds.deref {s : Table T} (hs : P.Inv s) {i : ℕ} {v : T} (hv : Holds s i v) :
    P.deref s i = some v := by
  rw [ScHash.deref, if_neg (hs.lt_slots hv.1).ne, hv.2]

theorem not_holds_empty_presence {b : ℕ → Option T} (i : ℕ) (v : T) :
    ¬Holds ⟨fun _ => 0#64, b⟩ i v := by
  rintro ⟨hp, -⟩
  simp [Table.isPresent] at hp

theorem inv_of_presence_zero {b : ℕ → Option T} : P.Inv ⟨fun _ => 0#64, b⟩ where
  placed := ⟨fun hv => absurd hv (not_holds_empty_presence _ _),
    fun hv => absurd hv (not_holds_empty_presence _ _)⟩
  full i hi := by simp [Table.isPresent] at hi

end Placement

section Find

variable {P} [DecidableEq κ] {s : Table T}

/-- `find` returns the slot of the key, or `end()` if no slot holds it. -/
theorem find_cases (hs : P.Inv s) (x : κ) :
    (∃ v, Holds s (P.find s x) v ∧ P.key v = x) ∨
      P.find s x = P.slots ∧ ∀ i v, Holds s i v → P.key v ≠ x := by
  rw [find, findHashed]
  cases hfind : (P.probes (P.hash x)).find?
      fun i => s.isPresent i && (s.buckets i).any (P.key · = x) with
  | some i =>
    have hi := List.find?_some hfind
    rw [Bool.and_eq_true, Option.any_eq_true_iff_get] at hi
    obtain ⟨hpres, hsome, hkey⟩ := hi
    refine .inl ⟨(s.buckets i).get hsome, ⟨hpres, ?_⟩, of_decide_eq_true hkey⟩
    exact (Option.some_get hsome).symm
  | none =>
    refine .inr ⟨rfl, fun i v hv hkey => ?_⟩
    have hmem := hs.placed.mem_probes hv
    rw [hkey] at hmem
    have := List.find?_eq_none.mp hfind i hmem
    simp [hv.1, hv.2, hkey] at this

theorem find_eq_of_holds (hs : P.Inv s) {i : ℕ} {v : T} (hv : Holds s i v) :
    P.find s (P.key v) = i := by
  rcases find_cases hs (P.key v) with ⟨w, hw, hkey⟩ | ⟨-, hnone⟩
  · exact hs.placed.unique hw hv hkey
  · exact absurd rfl (hnone i v hv)

/-- The map from keys to elements that the table stands for. -/
def contents (P : ScHash κ T) (s : Table T) (x : κ) : Option T := P.deref s (P.find s x)

theorem contents_eq_some_iff (hs : P.Inv s) {x : κ} {v : T} :
    P.contents s x = some v ↔ (∃ i, Holds s i v) ∧ P.key v = x := by
  constructor
  · intro h
    rcases find_cases hs x with ⟨w, hw, hkey⟩ | ⟨hend, -⟩
    · rw [contents, hw.deref hs, Option.some_inj] at h
      exact ⟨⟨_, h ▸ hw⟩, h ▸ hkey⟩
    · rw [contents, hend, deref, if_pos rfl] at h
      exact absurd h (Option.some_ne_none v).symm
  · rintro ⟨⟨i, hv⟩, rfl⟩
    rw [contents, find_eq_of_holds hs hv, hv.deref hs]

theorem contents_eq_none_iff (hs : P.Inv s) {x : κ} :
    P.contents s x = none ↔ ∀ i v, Holds s i v → P.key v ≠ x := by
  rw [Option.eq_none_iff_forall_ne_some]
  constructor
  · intro h i v hv hkey
    exact h v ((contents_eq_some_iff hs).mpr ⟨⟨i, hv⟩, hkey⟩)
  · intro h v hv
    obtain ⟨⟨i, hi⟩, hkey⟩ := (contents_eq_some_iff hs).mp hv
    exact h i v hi hkey

theorem find_ne_slots_iff (hs : P.Inv s) (x : κ) :
    P.find s x ≠ P.slots ↔ (P.contents s x).isSome = true := by
  rcases find_cases hs x with ⟨v, hv, hkey⟩ | ⟨hend, -⟩
  · rw [contents, hv.deref hs]
    simpa using (hs.lt_slots hv.1).ne
  · rw [contents, hend, deref, if_pos rfl]
    simp

/-- One element more. -/
theorem contents_add {s' : Table T} (hs : P.Inv s) (hs' : P.Inv s') {e : T}
    (hnew : ∀ i v, Holds s i v → P.key v ≠ P.key e)
    (h : ∀ v, (∃ i, Holds s' i v) ↔ v = e ∨ ∃ i, Holds s i v) :
    P.contents s' = Function.update (P.contents s) (P.key e) (some e) := by
  funext x
  ext v
  rw [contents_eq_some_iff hs', h v, update_apply]
  by_cases hx : x = P.key e
  · subst hx
    rw [if_pos rfl, Option.some_inj]
    constructor
    · rintro ⟨rfl | ⟨i, hv⟩, hkey⟩
      · rfl
      · exact absurd hkey (hnew i v hv)
    · rintro rfl
      exact ⟨.inl rfl, rfl⟩
  · rw [if_neg hx, contents_eq_some_iff hs]
    constructor
    · rintro ⟨rfl | hv, hkey⟩
      · exact absurd hkey.symm hx
      · exact ⟨hv, hkey⟩
    · rintro ⟨hv, hkey⟩
      exact ⟨.inr hv, hkey⟩

/-- One key less. -/
theorem contents_drop {s' : Table T} (hs : P.Inv s) (hs' : P.Inv s') {x : κ}
    (h : ∀ v, (∃ i, Holds s' i v) ↔ (∃ i, Holds s i v) ∧ P.key v ≠ x) :
    P.contents s' = Function.update (P.contents s) x none := by
  funext y
  ext v
  rw [contents_eq_some_iff hs', h v, update_apply]
  by_cases hy : y = x
  · subst hy
    simp
  · rw [if_neg hy, contents_eq_some_iff hs]
    constructor
    · rintro ⟨⟨hv, -⟩, hkey⟩
      exact ⟨hv, hkey⟩
    · rintro ⟨hv, rfl⟩
      exact ⟨⟨hv, hy⟩, rfl⟩

end Find

section Emplace

variable {P}

theorem isPresent_initValue (s : Table T) (i : ℕ) (e : T) (l : ℕ) :
    (s.initValue i e).isPresent l = (decide (l = i) || s.isPresent l) :=
  s.presence.mem_insert i l

theorem holds_initValue {s : Table T} {i : ℕ} {e : T} (hi : s.isPresent i = false) (l : ℕ)
    (v : T) : Holds (s.initValue i e) l v ↔ (l = i ∧ v = e) ∨ Holds s l v := by
  rw [Holds, Holds, isPresent_initValue]
  by_cases hl : l = i
  · subst hl
    simp [Table.initValue, hi, eq_comm]
  · simp [Table.initValue, hl]

/-- How `e` gets into the table: into a free slot, or into the slot of an element that moves
to another of its own slots. -/
inductive Emplaced (P : ScHash κ T) (s : Table T) (e : T) : Table T → ℕ → Prop
  | free {i : ℕ} (hi : i ∈ P.probes (P.hash (P.key e))) (hfree : s.isPresent i = false) :
      Emplaced P s e (s.initValue i e) i
  | moved {i j : ℕ} {y : T} (hj : j ∈ P.probes (P.hash (P.key e))) (hy : Holds s j y)
      (hi : i ∈ P.probes (P.hash (P.key y))) (hfree : s.isPresent i = false) :
      Emplaced P s e ⟨(s.initValue i y).presence,
        Function.update (s.initValue i y).buckets j (some e)⟩ j

/-- The loop over the levels: the bucket it remembers is full. -/
theorem emplaceFrom_cases (s : Table T) (e : T) (n k oldPos : ℕ) (hn : n + k = P.subtables)
    (hold : k ≠ 0 → ∃ l < P.subtables, oldPos = P.getBucket (P.hash (P.key e)) l ∧
      ∀ j ∈ P.bucketAt oldPos, s.isPresent j = true) :
    P.emplaceFrom s (P.hash (P.key e)) e n k oldPos = (s, P.slots, -1) ∨
      ∃ s' pos, P.emplaceFrom s (P.hash (P.key e)) e n k oldPos = (s', pos, 0) ∧
        P.Emplaced s e s' pos := by
  induction n generalizing k oldPos with
  | zero => exact .inl rfl
  | succ n ih =>
    have hk : k < P.subtables := by omega
    rw [emplaceFrom]
    cases hfree : P.freeSlot s (P.getBucket (P.hash (P.key e)) k) with
    | some i =>
      obtain ⟨hmem, hi⟩ := P.freeSlot_eq_some hfree
      exact .inr ⟨_, _, rfl, .free (P.mem_probes.mpr ⟨k, hk, hmem⟩) hi⟩
    | none =>
      cases hevict : if P.secondChance && k != 0 then P.evict s oldPos k else none with
      | some r =>
        obtain ⟨j, i, y⟩ := r
        split at hevict
        · next hchance =>
          rw [Bool.and_eq_true, bne_iff_ne] at hchance
          obtain ⟨l, hl, rfl, hfull⟩ := hold hchance.2
          obtain ⟨hj, hy, hslot⟩ := P.evict_eq_some hevict
          obtain ⟨hmem, hi⟩ := P.freeSlot_eq_some hslot
          exact .inr ⟨_, _, rfl, .moved (P.mem_probes.mpr ⟨l, hl, hj⟩) ⟨hfull j hj, hy⟩
            (P.mem_probes.mpr ⟨k, hk, hmem⟩) hi⟩
        · exact absurd hevict (Option.some_ne_none _).symm
      | none =>
        exact ih (k + 1) _ (by omega) fun _ => ⟨k, hk, rfl, P.freeSlot_eq_none hfree⟩

/-- An element that moves is dropped from its slot and added to the other. -/
theorem holds_moved {s : Table T} {i j : ℕ} {y e : T} (hy : Holds s j y)
    (hi : s.isPresent i = false) (l : ℕ) (v : T) :
    Holds ⟨(s.initValue i y).presence, Function.update (s.initValue i y).buckets j (some e)⟩ l v ↔
      (l = j ∧ v = e) ∨ (l = i ∧ v = y) ∨ Holds s l v ∧ l ≠ j := by
  have hij : j ≠ i := by
    rintro rfl
    exact Bool.false_ne_true (hi.symm.trans hy.1)
  by_cases hl : l = j
  · subst hl
    have hpres : (s.initValue i y).isPresent l = true := by
      rw [isPresent_initValue, hy.1, Bool.or_true]
    constructor
    · rintro ⟨-, hv⟩
      simp only [update_self, Option.some_inj] at hv
      exact .inl ⟨rfl, hv.symm⟩
    · rintro (⟨-, rfl⟩ | ⟨hli, -⟩ | ⟨-, hne⟩)
      · exact ⟨hpres, update_self ..⟩
      · exact absurd hli hij
      · exact absurd rfl hne
  · have hsame : Holds ⟨(s.initValue i y).presence,
        Function.update (s.initValue i y).buckets j (some e)⟩ l v ↔
        Holds (s.initValue i y) l v := by
      simp only [Holds, Table.isPresent, update_of_ne hl]
    rw [hsame, holds_initValue hi]
    simp [hl]

/-- The new element is in the table, and no other element has come or gone. -/
theorem Emplaced.spec {s s' : Table T} {e : T} {pos : ℕ} (h : P.Emplaced s e s' pos)
    (hs : P.Inv s) (hnew : ∀ i v, Holds s i v → P.key v ≠ P.key e) :
    P.Inv s' ∧ Holds s' pos e ∧ ∀ v, (∃ i, Holds s' i v) ↔ v = e ∨ ∃ i, Holds s i v := by
  cases h with
  | free hi hfree =>
    have hiff := holds_initValue (e := e) hfree
    refine ⟨⟨(hs.placed.add hi hnew).congr hiff, fun l hl => ?_⟩, (hiff _ _).mpr (.inl ⟨rfl, rfl⟩),
      fun v => ?_⟩
    · rw [isPresent_initValue, Bool.or_eq_true, decide_eq_true_eq] at hl
      rcases hl with rfl | hl
      · exact ⟨e, ((hiff _ _).mpr (.inl ⟨rfl, rfl⟩)).2⟩
      · obtain ⟨v, hv⟩ := hs.full l hl
        exact ⟨v, ((hiff _ _).mpr (.inr ⟨hl, hv⟩)).2⟩
    · simp only [hiff, exists_or, exists_and_right, exists_eq, true_and]
  | @moved i j y hj hy hi hfree =>
    have hiff := holds_moved (e := e) hy hfree
    have hdrop : P.Placed fun l v => (l = i ∧ v = y) ∨ Holds s l v ∧ l ≠ pos :=
      (hs.placed.drop pos).add hi fun l v hv hkey => hv.2 (hs.placed.unique hv.1 hy hkey)
    have hadd := hdrop.add hj (e := e) (by
      rintro l v (⟨rfl, rfl⟩ | hv)
      · exact hnew pos v hy
      · exact hnew l v hv.1)
    refine ⟨⟨hadd.congr hiff, fun l hl => ?_⟩, (hiff _ _).mpr (.inl ⟨rfl, rfl⟩), fun v => ?_⟩
    · have hl' : (s.initValue i y).isPresent l = true := hl
      rw [isPresent_initValue, Bool.or_eq_true, decide_eq_true_eq] at hl'
      by_cases hlj : l = pos
      · exact ⟨e, ((hiff l e).mpr (.inl ⟨hlj, rfl⟩)).2⟩
      rcases hl' with hli | hl'
      · exact ⟨y, ((hiff l y).mpr (.inr (.inl ⟨hli, rfl⟩))).2⟩
      · obtain ⟨v, hv⟩ := hs.full l hl'
        exact ⟨v, ((hiff l v).mpr (.inr (.inr ⟨⟨hl', hv⟩, hlj⟩))).2⟩
    · simp only [hiff]
      constructor
      · rintro ⟨l, ⟨-, rfl⟩ | ⟨-, rfl⟩ | ⟨hv, -⟩⟩
        · exact .inl rfl
        · exact .inr ⟨_, hy⟩
        · exact .inr ⟨l, hv⟩
      · rintro (rfl | ⟨l, hv⟩)
        · exact ⟨pos, .inl ⟨rfl, rfl⟩⟩
        · by_cases hlj : l = pos
          · subst hlj
            exact ⟨i, .inr (.inl ⟨rfl, hv.eq hy⟩)⟩
          · exact ⟨l, .inr (.inr ⟨hv, hlj⟩)⟩

/-- The three results of `find_and_emplace`. -/
theorem findAndEmplace_cases [DecidableEq κ] {s : Table T} (hs : P.Inv s) (e : T) :
    (∃ v, P.contents s (P.key e) = some v ∧
      P.findAndEmplace s (P.key e) e = (s, P.find s (P.key e), 1)) ∨
    P.contents s (P.key e) = none ∧ (P.findAndEmplace s (P.key e) e = (s, P.slots, -1) ∨
      ∃ s' pos, P.findAndEmplace s (P.key e) e = (s', pos, 0) ∧ P.Emplaced s e s' pos) := by
  rw [findAndEmplace]
  rcases find_cases hs (P.key e) with ⟨v, hv, hkey⟩ | ⟨hend, hnone⟩
  · refine .inl ⟨v, ?_, if_pos (hs.lt_slots hv.1).ne⟩
    exact (contents_eq_some_iff hs).mpr ⟨⟨_, hv⟩, hkey⟩
  · refine .inr ⟨(contents_eq_none_iff hs).mpr hnone, ?_⟩
    simp only [hend, ne_eq, not_true_eq_false, if_false]
    exact emplaceFrom_cases s e P.subtables 0 0 (Nat.add_zero _) fun h => absurd rfl h

end Emplace

section Erase

variable {P}

theorem eraseAt_eq_some {s s' : Table T} {pos : ℕ} (h : P.eraseAt s pos = some s') :
    s.isPresent pos = true ∧ ∀ l v, Holds s' l v ↔ Holds s l v ∧ l ≠ pos := by
  rw [eraseAt] at h
  split at h
  · next hpre =>
    obtain rfl := Option.some_inj.mp h
    refine ⟨hpre.2, fun l v => ?_⟩
    have hmem : (s.presence.erase pos).mem l = (!decide (l = pos) && s.presence.mem l) :=
      s.presence.mem_erase pos l
    rw [Holds, Holds, Table.isPresent, Table.isPresent, hmem, destroyValue]
    by_cases hl : l = pos
    · simp [hl]
    · split <;> simp [hl]
  · exact absurd h (Option.some_ne_none _).symm

theorem Inv.eraseAt {s s' : Table T} {pos : ℕ} (hs : P.Inv s) (h : P.eraseAt s pos = some s') :
    P.Inv s' := by
  have hiff := (eraseAt_eq_some h).2
  refine ⟨(hs.placed.drop pos).congr hiff, fun l hl => ?_⟩
  rw [ScHash.eraseAt] at h
  split at h
  · obtain rfl := Option.some_inj.mp h
    have hmem : (s.presence.erase pos).mem l = (!decide (l = pos) && s.presence.mem l) :=
      s.presence.mem_erase pos l
    rw [Table.isPresent, hmem, Bool.and_eq_true, Bool.not_eq_true', decide_eq_false_iff_not] at hl
    obtain ⟨v, hv⟩ := hs.full l hl.2
    exact ⟨v, ((hiff l v).mpr ⟨⟨hl.2, hv⟩, hl.1⟩).2⟩
  · exact absurd h (Option.some_ne_none _).symm

theorem eraseAt_isSome {s : Table T} (hs : P.Inv s) {pos : ℕ} (h : s.isPresent pos = true) :
    (P.eraseAt s pos).isSome = true := by
  rw [ScHash.eraseAt, if_pos ⟨(hs.lt_slots h).ne, h⟩]
  rfl

/-- The element the iterator points to is gone, and no other. -/
theorem contents_eraseAt [DecidableEq κ] {s s' : Table T} {pos : ℕ} {v : T} (hs : P.Inv s)
    (h : P.eraseAt s pos = some s') (hv : Holds s pos v) :
    P.contents s' = Function.update (P.contents s) (P.key v) none := by
  have hiff := (eraseAt_eq_some h).2
  refine contents_drop hs (hs.eraseAt h) fun w => ?_
  simp only [hiff]
  constructor
  · rintro ⟨i, hw, hne⟩
    exact ⟨⟨i, hw⟩, fun hkey => hne (hs.placed.unique hw hv hkey)⟩
  · rintro ⟨⟨i, hw⟩, hkey⟩
    refine ⟨i, hw, ?_⟩
    rintro rfl
    exact hkey (congrArg P.key (hw.eq hv))

end Erase

section Iterate

variable {P} {s : Table T}

/-- `_find_valid` goes to the next element, or to `end()`: a table of whole words is left
exactly there. -/
theorem findValid_spec (h64 : 64 ∣ P.slots) (pos : ℕ) (hpos : pos ≤ P.slots) :
    P.findValid s pos ≤ P.slots ∧
      (P.findValid s pos < P.slots → s.isPresent (P.findValid s pos) = true) ∧
      ∀ q, pos ≤ q → q < P.findValid s pos → s.isPresent q = false := by
  obtain ⟨m, hm⟩ := h64
  fun_induction findValid P s pos with
  | case1 pos hlt pending h0 ih =>
    rw [alignDown] at ih ⊢
    obtain ⟨hle, hpres, hnone⟩ := ih (by omega)
    refine ⟨hle, hpres, fun q hpq hq => ?_⟩
    by_cases hword : q < pos / 64 * 64 + 64
    · exact WordBitmap.pending_eq_zero h0 hpq hword
    · exact hnone q (by omega) hq
  | case2 pos hlt pending hne =>
    rw [alignDown]
    obtain ⟨-, hword, hmem, hnone⟩ := WordBitmap.pending_ne_zero hne
    refine ⟨?_, fun _ => hmem, hnone⟩
    have : pos / 64 * 64 + ctzll pending < pos / 64 * 64 + 64 := hword
    omega
  | case3 pos hge => exact ⟨hpos, fun h => absurd h hge, fun q h h' => absurd h (by omega)⟩

theorem filter_range'_skip {p : ℕ → Bool} {a b n : ℕ} (hab : a ≤ b) (hbn : b ≤ n)
    (h : ∀ q, a ≤ q → q < b → p q = false) :
    (List.range' a (n - a)).filter p = (List.range' b (n - b)).filter p := by
  have hsplit : List.range' a (n - a) = List.range' a (b - a) ++ List.range' b (n - b) := by
    have happ := List.range'_append_1 (s := a) (m := b - a) (n := n - b)
    rw [show a + (b - a) = b by omega, show b - a + (n - b) = n - a by omega] at happ
    exact happ.symm
  have hnil : (List.range' a (b - a)).filter p = [] := by
    rw [List.filter_eq_nil_iff]
    intro q hq
    rw [List.mem_range'_1] at hq
    simp [h q hq.1 (by omega)]
  rw [hsplit, List.filter_append, hnil, List.nil_append]

theorem visit_eq (h64 : 64 ∣ P.slots) (pos : ℕ) (hpos : pos ≤ P.slots)
    (hpres : pos < P.slots → s.isPresent pos = true) :
    P.visit s pos = some ((List.range' pos (P.slots - pos)).filter s.isPresent) := by
  fun_induction visit P s pos with
  | case1 => simp
  | case2 pos hne hlt ih =>
    obtain ⟨hle, hnext, hnone⟩ := findValid_spec (s := s) h64 (pos + 1) hlt
    have hcons : List.range' pos (P.slots - pos) =
        pos :: List.range' (pos + 1) (P.slots - (pos + 1)) := by
      rw [show P.slots - pos = P.slots - (pos + 1) + 1 by omega, List.range'_succ]
    rw [ih hle hnext, hcons, List.filter_cons_of_pos (hpres hlt),
      filter_range'_skip (P.le_findValid s (pos + 1)) hle hnone, Option.map_some]
  | case3 pos hne hge => omega

/-- The iterator goes through the present slots in order. -/
theorem visit_begin (h64 : 64 ∣ P.slots) :
    P.visit s (P.begin s) = some ((List.range P.slots).filter s.isPresent) := by
  obtain ⟨hle, hpres, hnone⟩ := findValid_spec (s := s) h64 0 (Nat.zero_le _)
  rw [begin, visit_eq h64 _ hle hpres, ← filter_range'_skip (Nat.zero_le _) hle hnone,
    List.range_eq_range', Nat.sub_zero]

theorem clear_eq_some (h64 : 64 ∣ P.slots) (s : Table T) :
    ∃ b, P.clear s = some ⟨fun _ => 0#64, b⟩ := by
  rw [clear]
  split
  · exact ⟨_, rfl⟩
  · rw [visit_begin h64]
    exact ⟨_, rfl⟩

theorem size_eq (h64 : 64 ∣ P.slots) (s : Table T) :
    P.size s = ((List.range P.slots).filter s.isPresent).length := by
  obtain ⟨m, hm⟩ := h64
  have hwords : alignUp P.slots 64 / 64 = m := by
    rw [alignUp, alignDown]
    omega
  rw [size, hwords, WordBitmap.sum_cpop, ← hm, List.countP_eq_length_filter]
  rfl

/-- The elements in the order of their slots. -/
def elements (P : ScHash κ T) (s : Table T) : List T :=
  ((List.range P.slots).filter s.isPresent).filterMap s.buckets

theorem mem_elements (hs : P.Inv s) {v : T} : v ∈ P.elements s ↔ ∃ i, Holds s i v := by
  simp only [elements, List.mem_filterMap, List.mem_filter, List.mem_range]
  constructor
  · rintro ⟨i, ⟨-, hi⟩, hv⟩
    exact ⟨i, hi, hv⟩
  · rintro ⟨i, hi, hv⟩
    exact ⟨i, ⟨hs.lt_slots hi, hi⟩, hv⟩

/-- The slots the iterator visits all hold an element. -/
theorem map_deref_visited (hs : P.Inv s) :
    ((List.range P.slots).filter s.isPresent).map (P.deref s) = (P.elements s).map some := by
  rw [elements, List.map_filterMap, ← List.filterMap_eq_map]
  refine List.filterMap_congr fun i hi => ?_
  obtain ⟨-, hpres⟩ := List.mem_filter.mp hi
  obtain ⟨v, hv⟩ := hs.full i hpres
  have hderef : P.deref s i = some v := Holds.deref hs ⟨hpres, hv⟩
  rw [comp_apply, hderef, hv, Option.map_some]

theorem length_elements (hs : P.Inv s) :
    (P.elements s).length = ((List.range P.slots).filter s.isPresent).length := by
  have := congrArg List.length (map_deref_visited hs)
  rw [List.length_map, List.length_map] at this
  exact this.symm

/-- No key occurs twice. -/
theorem nodup_keys (hs : P.Inv s) : ((P.elements s).map P.key).Nodup := by
  have hnodup : ((List.range P.slots).filter s.isPresent).Nodup := List.nodup_range.filter _
  rw [elements, List.map_filterMap, List.Nodup, List.pairwise_filterMap]
  refine hnodup.imp_of_mem fun {i j} hi hj hne x hx y hy hxy => hne ?_
  obtain ⟨v, hv, rfl⟩ := Option.map_eq_some_iff.mp hx
  obtain ⟨w, hw, rfl⟩ := Option.map_eq_some_iff.mp hy
  exact hs.placed.unique ⟨(List.mem_filter.mp hi).2, hv⟩ ⟨(List.mem_filter.mp hj).2, hw⟩ hxy

end Iterate

end ScHash

end PreemptDB
