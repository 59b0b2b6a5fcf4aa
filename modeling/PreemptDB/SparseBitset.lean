/-
Sparse bitsets (`sm-oid-alloc.h`).

A bitset holds up to sixteen 16-bit values in two vectors of eight.  It is never
empty; an entry of zero ends it, except that the value zero, if it is present, is
the first entry.

* `SparseBitset.insert` — the shuffling of the entries;
* `SparseBitset.values` — the values, in the order of the iterator;
* `Holds`, `Holds.insert` — what an insertion does to them;
* `SparseBitset.asArray` — how the code reads the entries.

`as_array` is `**(Array **)entries`: it takes the first eight bytes of the
entries for a pointer.  What is read there depends on the rest of the memory.
-/
import Mathlib.Tactic

namespace PreemptDB

/-- `entries[0]` and `entries[1]` -/
structure SparseBitset where
  lo : List ℕ
  hi : List ℕ
  deriving DecidableEq

/-- What a 16-bit load finds at an address, if it does not fault. -/
abbrev Memory := ℕ → Option ℕ

namespace SparseBitset

/-- `sparse_bitset::CAPACITY` -/
def CAPACITY : ℕ := 16

/-- `__builtin_shuffle(v, {7, 0, 1, 2, 3, 4, 5, 6})` -/
def rotr (v : List ℕ) : List ℕ := v.getLastD 0 :: v.dropLast

def init1 (i : ℕ) : SparseBitset := ⟨i :: List.replicate 7 0, List.replicate 8 0⟩

/-- The new bitset, and the return value. -/
def insert (b : SparseBitset) (i : ℕ) : SparseBitset × ℤ :=
  if b.lo.getD 7 0 = 0 then
    -- still working on the first half
    let pos := if b.lo.getD 0 0 ≠ 0 then 0 else 1
    (⟨(rotr b.lo).set pos i, b.hi⟩, 0)
  else if b.hi.getD 7 0 ≠ 0 then (b, -1)
  else
    -- zero takes the first place, and its entry goes to the second half
    let lo := if i = 0 then b.lo.set 0 0 else b.lo
    let hi := (rotr b.hi).set 0 (if i = 0 then b.lo.getD 0 0 else i)
    (⟨lo, hi⟩, if hi.getD 7 0 ≠ 0 then 1 else 0)

/-- The sixteen entries. -/
def entries (b : SparseBitset) : List ℕ := b.lo ++ b.hi

/-- The values of the set. -/
def values (b : SparseBitset) : List ℕ :=
  match b.entries with
  | [] => []
  | x :: xs => x :: xs.takeWhile (· ≠ 0)

/-- The first eight bytes of the entries, as a pointer. -/
def address (b : SparseBitset) : ℕ :=
  b.lo.getD 0 0 + b.lo.getD 1 0 * 2 ^ 16 + b.lo.getD 2 0 * 2 ^ 32 + b.lo.getD 3 0 * 2 ^ 48

/-- `as_array()[i]` -/
def asArray (mem : Memory) (b : SparseBitset) (i : ℕ) : Option ℕ := mem (b.address + 2 * i)

/-- `n` entries from index `i` on. -/
def readEntries (mem : Memory) (b : SparseBitset) : ℕ → ℕ → Option (List ℕ)
  | 0, _ => some []
  | n + 1, i => do
    let x ← b.asArray mem i
    let xs ← readEntries mem b n (i + 1)
    return x :: xs

/-- `for (auto offset : b.as_array())` -/
def readAll (mem : Memory) (b : SparseBitset) : Option (List ℕ) := b.readEntries mem CAPACITY 0

/-- The iterator, at index `i` and with `n` more places to go. -/
def readFrom (mem : Memory) (b : SparseBitset) : ℕ → ℕ → Option (List ℕ)
  | 0, _ => some []
  | n + 1, i => do
    let x ← b.asArray mem i
    let y ← b.asArray mem (i + 1)
    if y = 0 then return [x]
    let xs ← readFrom mem b n (i + 1)
    return x :: xs

/-- `for (auto x : b)` -/
def readValues (mem : Memory) (b : SparseBitset) : Option (List ℕ) := b.readFrom mem CAPACITY 0

/-- The entries hold `us` in the first half and `vs` in the second one. -/
structure Holds (b : SparseBitset) (us vs : List ℕ) : Prop where
  lo : b.lo = us ++ List.replicate (8 - us.length) 0
  hi : b.hi = vs ++ List.replicate (8 - vs.length) 0
  us_ne : us ≠ []
  us_le : us.length ≤ 8
  vs_le : vs.length ≤ 8
  vs_nil : us.length < 8 → vs = []
  tail_ne : ∀ x ∈ us.tail, x ≠ 0
  vs_ne : ∀ x ∈ vs, x ≠ 0

variable {b : SparseBitset} {us vs : List ℕ}

theorem rotr_append_zeros (xs : List ℕ) (k : ℕ) :
    rotr (xs ++ List.replicate (k + 1) 0) = 0 :: (xs ++ List.replicate k 0) := by
  rw [rotr, List.replicate_succ', ← List.append_assoc, List.dropLast_concat, List.getLastD_concat]

theorem getD_append_zeros (xs : List ℕ) (k i : ℕ) :
    (xs ++ List.replicate k 0).getD i 0 = xs.getD i 0 := by
  simp only [List.getD_eq_getElem?_getD]
  rcases Nat.lt_or_ge i xs.length with h | h
  · rw [List.getElem?_append_left h]
  · rw [List.getElem?_append_right h, List.getElem?_eq_none h, List.getElem?_replicate]
    split <;> rfl

theorem holds_init1 (i : ℕ) : Holds (init1 i) [i] [] :=
  ⟨rfl, rfl, nofun, show 1 ≤ 8 by norm_num, Nat.zero_le _, fun _ => rfl, nofun, nofun⟩

theorem takeWhile_append_zeros {xs : List ℕ} (h : ∀ x ∈ xs, x ≠ 0) (k : ℕ) :
    (xs ++ List.replicate k 0).takeWhile (· ≠ 0) = xs := by
  have hall : ∀ x ∈ xs, decide (x ≠ 0) = true := fun x hx => decide_eq_true (h x hx)
  rw [List.takeWhile_append_of_pos hall, List.takeWhile_replicate]
  simp

theorem Holds.entries_eq (h : Holds b us vs) :
    b.entries = us ++ vs ++ List.replicate (16 - us.length - vs.length) 0 := by
  rw [entries, h.lo, h.hi]
  rcases Nat.lt_or_ge us.length 8 with hlt | hge
  · rw [h.vs_nil hlt, List.append_nil, List.nil_append, List.append_assoc,
      List.replicate_append_replicate]
    congr 2
    simp only [List.length_nil]
    omega
  · have hlen : us.length = 8 := Nat.le_antisymm h.us_le hge
    have hvs := h.vs_le
    rw [hlen, Nat.sub_self, List.replicate_zero, List.append_nil, ← List.append_assoc]

theorem Holds.length_entries (h : Holds b us vs) : b.entries.length = 16 := by
  have := h.us_le
  have := h.vs_le
  rw [h.entries_eq, List.length_append, List.length_append, List.length_replicate]
  omega

theorem Holds.values_eq (h : Holds b us vs) : b.values = us ++ vs := by
  obtain ⟨y, ys, rfl⟩ := List.exists_cons_of_ne_nil h.us_ne
  have htail : ∀ x ∈ ys ++ vs, x ≠ 0 := fun x hx =>
    (List.mem_append.mp hx).elim (h.tail_ne x) (h.vs_ne x)
  rw [values, h.entries_eq]
  exact congrArg (y :: ·) (takeWhile_append_zeros htail _)

theorem getD_of_le {xs : List ℕ} {i : ℕ} (h : xs.length ≤ i) : xs.getD i 0 = 0 := by
  rw [List.getD_eq_getElem?_getD, List.getElem?_eq_none h, Option.getD_none]

theorem getD_ne_zero {xs : List ℕ} {i : ℕ} (h : ∀ x ∈ xs, x ≠ 0) (hi : i < xs.length) :
    xs.getD i 0 ≠ 0 := by
  rw [List.getD_eq_getElem?_getD, List.getElem?_eq_getElem hi, Option.getD_some]
  exact h _ (List.getElem_mem hi)

/-- An insertion into the first half. -/
theorem Holds.insert_lo (h : Holds b us vs) {i : ℕ} (hlt : us.length < 8) (hi : i ∉ us) :
    ∃ us', Holds (b.insert i).1 us' [] ∧ us'.Perm (i :: us) ∧ (b.insert i).2 = 0 := by
  obtain ⟨y, ys, rfl⟩ := List.exists_cons_of_ne_nil h.us_ne
  have hvs := h.vs_nil hlt
  subst hvs
  have hlo0 : b.lo.getD 0 0 = y := by rw [h.lo]; rfl
  have hlo7 : b.lo.getD 7 0 = 0 := by
    rw [h.lo, getD_append_zeros, getD_of_le (by omega)]
  obtain ⟨k, hk⟩ : ∃ k, 8 - (y :: ys).length = k + 1 := ⟨7 - (y :: ys).length, by omega⟩
  have hrot : rotr b.lo = 0 :: y :: (ys ++ List.replicate k 0) := by
    rw [h.lo, hk, rotr_append_zeros]
    rfl
  rw [List.length_cons] at hlt hk
  rw [SparseBitset.insert, if_pos hlo7, hlo0, hrot]
  by_cases hy : y = 0
  · -- zero stays in front
    subst hy
    refine ⟨0 :: i :: ys, ⟨?_, h.hi, nofun, ?_, Nat.zero_le _, fun _ => rfl, ?_, nofun⟩, ?_, rfl⟩
    · rw [show 8 - (0 :: i :: ys).length = k by simp only [List.length_cons]; omega]
      rfl
    · simp only [List.length_cons]
      omega
    · intro x hx
      rcases List.mem_cons.mp hx with rfl | hx
      · rintro rfl
        exact hi List.mem_cons_self
      · exact h.tail_ne x hx
    · exact List.Perm.swap i 0 ys
  · refine ⟨i :: y :: ys, ⟨?_, h.hi, nofun, ?_, Nat.zero_le _, fun _ => rfl, ?_, nofun⟩, .refl _,
      rfl⟩
    · rw [if_pos hy, show 8 - (i :: y :: ys).length = k by simp only [List.length_cons]; omega]
      rfl
    · simp only [List.length_cons]
      omega
    · intro x hx
      rcases List.mem_cons.mp hx with rfl | hx
      · exact hy
      · exact h.tail_ne x hx

/-- An insertion into the second half. -/
theorem Holds.insert_hi (h : Holds b us vs) {i : ℕ} (hus : us.length = 8) (hvs : vs.length < 8)
    (hi : i ∉ us) :
    ∃ us' vs', Holds (b.insert i).1 us' vs' ∧ (us' ++ vs').Perm (i :: (us ++ vs)) ∧
      (b.insert i).2 = if vs.length = 7 then 1 else 0 := by
  obtain ⟨y, ys, rfl⟩ := List.exists_cons_of_ne_nil h.us_ne
  have hlo : b.lo = y :: ys := by
    rw [h.lo, hus, Nat.sub_self, List.replicate_zero, List.append_nil]
  rw [List.length_cons] at hus
  have hlo7 : b.lo.getD 7 0 ≠ 0 := by
    have hlast : ys.getD 6 0 ≠ 0 := getD_ne_zero h.tail_ne (by omega)
    rw [hlo]
    exact hlast
  obtain ⟨k, hk⟩ : ∃ k, 8 - vs.length = k + 1 := ⟨7 - vs.length, by omega⟩
  have hhi7 : ¬ b.hi.getD 7 0 ≠ 0 := by
    rw [h.hi, getD_append_zeros, getD_of_le (by omega), not_not]
  have hrot : rotr b.hi = 0 :: (vs ++ List.replicate k 0) := by rw [h.hi, hk, rotr_append_zeros]
  -- the entry that goes to the second half
  obtain ⟨v, hv⟩ : ∃ v, v = if i = 0 then y else i := ⟨_, rfl⟩
  have hv0 : v ≠ 0 := by
    rw [hv]
    split
    · next h0 =>
      rintro rfl
      exact hi (h0 ▸ List.mem_cons_self)
    · next h0 => exact h0
  have hset : (rotr b.hi).set 0 v = (v :: vs) ++ List.replicate (8 - (v :: vs).length) 0 := by
    rw [hrot, show 8 - (v :: vs).length = k by rw [List.length_cons]; omega]
    rfl
  have hfull : ((rotr b.hi).set 0 v).getD 7 0 ≠ 0 ↔ vs.length = 7 := by
    rw [hset, getD_append_zeros]
    constructor
    · intro hne
      by_contra hlen
      exact hne (getD_of_le (by rw [List.length_cons]; omega))
    · intro hlen
      refine getD_ne_zero (fun x hx => ?_) (by rw [List.length_cons]; omega)
      rcases List.mem_cons.mp hx with rfl | hx
      · exact hv0
      · exact h.vs_ne x hx
  have hins : b.insert i = (⟨if i = 0 then 0 :: ys else y :: ys, (rotr b.hi).set 0 v⟩,
      if vs.length = 7 then 1 else 0) := by
    rw [SparseBitset.insert, if_neg hlo7, if_neg hhi7]
    simp only [hlo, List.getD_cons_zero, ← hv, List.set_cons_zero, hfull]
  rw [hins]
  have hvs' : ∀ x ∈ v :: vs, x ≠ 0 := by
    intro x hx
    rcases List.mem_cons.mp hx with rfl | hx
    · exact hv0
    · exact h.vs_ne x hx
  by_cases h0 : i = 0
  · rw [if_pos h0] at hv ⊢
    subst hv
    refine ⟨0 :: ys, v :: vs, ⟨?_, hset, nofun, ?_, hvs, fun hlt => ?_, h.tail_ne, hvs'⟩, ?_, rfl⟩
    · rw [List.length_cons, hus, Nat.sub_self, List.replicate_zero, List.append_nil]
    · rw [List.length_cons]
      omega
    · rw [List.length_cons] at hlt
      omega
    · have hmid : (ys ++ v :: vs).Perm (v :: (ys ++ vs)) := List.perm_middle
      rw [h0, List.cons_append]
      exact hmid.cons 0
  · rw [if_neg h0] at hv ⊢
    subst hv
    refine ⟨y :: ys, v :: vs, ⟨?_, hset, nofun, h.us_le, hvs, fun hlt => ?_, h.tail_ne, hvs'⟩,
      List.perm_middle, rfl⟩
    · rw [List.length_cons, hus, Nat.sub_self, List.replicate_zero, List.append_nil]
    · rw [List.length_cons] at hlt
      omega

/-- A well-formed bitset. -/
def Ok (b : SparseBitset) : Prop := ∃ us vs, Holds b us vs

theorem ok_init1 (i : ℕ) : (init1 i).Ok := ⟨_, _, holds_init1 i⟩

theorem values_init1 (i : ℕ) : (init1 i).values = [i] := (holds_init1 i).values_eq

/-- An insertion into a bitset that is not full. -/
theorem Ok.insert (h : b.Ok) {i : ℕ} (hlen : b.values.length < 16) (hi : i ∉ b.values) :
    (b.insert i).1.Ok ∧ (b.insert i).1.values.Perm (i :: b.values) ∧
      (b.insert i).2 = if b.values.length = 15 then 1 else 0 := by
  obtain ⟨us, vs, h⟩ := h
  rw [h.values_eq] at hlen hi ⊢
  rw [List.length_append] at hlen ⊢
  have hus : i ∉ us := fun hmem => hi (List.mem_append_left _ hmem)
  rcases Nat.lt_or_ge us.length 8 with hlt | hge
  · obtain ⟨us', h', hperm, hret⟩ := h.insert_lo hlt hus
    have hvs := h.vs_nil hlt
    subst hvs
    refine ⟨⟨_, _, h'⟩, ?_, ?_⟩
    · rw [h'.values_eq, List.append_nil, List.append_nil]
      exact hperm
    · rw [hret, if_neg (by rw [List.length_nil]; omega)]
  · have hlen8 := Nat.le_antisymm h.us_le hge
    obtain ⟨us', vs', h', hperm, hret⟩ := h.insert_hi hlen8 (by omega) hus
    refine ⟨⟨_, _, h'⟩, h'.values_eq ▸ hperm, hret.trans ?_⟩
    congr 1
    rw [hlen8]
    simp only [eq_iff_iff]
    omega

/-- The memory at the address that the bitset is taken for holds its entries. -/
def Reads (mem : Memory) (b : SparseBitset) : Prop := ∀ i < 16, b.asArray mem i = b.entries[i]?

theorem readEntries_eq {mem : Memory} (h : b.Reads mem) (hlen : b.entries.length = 16) :
    ∀ n i, i + n = 16 → b.readEntries mem n i = some (b.entries.drop i) := by
  intro n
  induction n with
  | zero =>
    intro i hi
    rw [readEntries, List.drop_of_length_le (by omega)]
  | succ n ih =>
    intro i hi
    have hlt : i < b.entries.length := by omega
    rw [readEntries, h i (by omega), ih (i + 1) (by omega), List.getElem?_eq_getElem hlt,
      List.drop_eq_getElem_cons hlt]
    rfl

theorem Ok.readAll_eq {mem : Memory} (h : b.Ok) (hr : b.Reads mem) (hfull : b.values.length = 16) :
    b.readAll mem = some b.values := by
  obtain ⟨us, vs, h⟩ := h
  have hlen := h.values_eq ▸ hfull
  rw [List.length_append] at hlen
  rw [readAll, readEntries_eq hr h.length_entries _ _ rfl, List.drop_zero, h.values_eq,
    h.entries_eq, show 16 - us.length - vs.length = 0 by omega, List.replicate_zero,
    List.append_nil]

/-- The iterator stops at the first zero after the first entry. -/
theorem readFrom_eq {mem : Memory} (h : b.Reads mem) {k : ℕ} {xs : List ℕ} :
    ∀ {x i n : ℕ}, (∀ x ∈ xs, x ≠ 0) →
      b.entries.drop i = x :: (xs ++ List.replicate (k + 1) 0) →
      xs.length < n → i + xs.length + 1 < 16 → b.readFrom mem n i = some (x :: xs) := by
  induction xs with
  | nil =>
    intro x i n _ hdrop hn hi
    obtain ⟨n, rfl⟩ : ∃ m, n = m + 1 := ⟨n - 1, by omega⟩
    rw [List.length_nil] at hi
    have hx : b.entries[i]? = some x := by
      rw [← Nat.add_zero i, ← List.getElem?_drop, hdrop]
      rfl
    have hy : b.entries[i + 1]? = some 0 := by
      rw [← List.getElem?_drop, hdrop]
      rfl
    rw [readFrom, h i (by omega), h (i + 1) (by omega), hx, hy]
    rfl
  | cons y ys ih =>
    intro x i n hxs hdrop hn hi
    obtain ⟨n, rfl⟩ : ∃ m, n = m + 1 := ⟨n - 1, by omega⟩
    rw [List.length_cons] at hn hi
    have hx : b.entries[i]? = some x := by
      rw [← Nat.add_zero i, ← List.getElem?_drop, hdrop]
      rfl
    have hy : b.entries[i + 1]? = some y := by
      rw [← List.getElem?_drop, hdrop]
      rfl
    have hdrop' : b.entries.drop (i + 1) = y :: (ys ++ List.replicate (k + 1) 0) := by
      rw [← List.drop_drop, hdrop]
      rfl
    have hrest := ih (fun z hz => hxs z (List.mem_cons_of_mem _ hz)) hdrop' (n := n) (by omega)
      (by omega)
    rw [readFrom, h i (by omega), h (i + 1) (by omega), hx, hy]
    simp only [Option.bind_eq_bind, Option.bind_some, if_neg (hxs y List.mem_cons_self), hrest]
    rfl

theorem Ok.readValues_eq {mem : Memory} (h : b.Ok) (hr : b.Reads mem)
    (hlen : b.values.length < 16) : b.readValues mem = some b.values := by
  obtain ⟨us, vs, h⟩ := h
  rw [h.values_eq] at hlen ⊢
  rw [List.length_append] at hlen
  obtain ⟨y, ys, rfl⟩ := List.exists_cons_of_ne_nil h.us_ne
  rw [List.length_cons] at hlen
  have hne : ∀ x ∈ ys ++ vs, x ≠ 0 := fun x hx =>
    (List.mem_append.mp hx).elim (h.tail_ne x) (h.vs_ne x)
  have happ : (ys ++ vs).length = ys.length + vs.length := List.length_append
  have hread : b.readFrom mem CAPACITY 0 = some (y :: (ys ++ vs)) := by
    refine readFrom_eq (k := 15 - (ys.length + 1) - vs.length) hr hne ?_ ?_ (by omega)
    · rw [List.drop_zero, h.entries_eq, List.length_cons,
        show 16 - (ys.length + 1) - vs.length = 15 - (ys.length + 1) - vs.length + 1 by omega]
      rfl
    · rw [CAPACITY]
      omega
  exact hread

section Narrow

/-- The entries are of 16 bits. -/
def Narrow (b : SparseBitset) : Prop := ∀ v ∈ b.entries, v < 2 ^ 16

theorem values_subset (b : SparseBitset) : b.values ⊆ b.entries := by
  rw [values]
  split
  next h => simp
  next x xs h =>
    rw [h]
    exact List.cons_subset_cons x (List.takeWhile_subset _)

theorem narrow_init1 {i : ℕ} (hi : i < 2 ^ 16) : (init1 i).Narrow := by
  intro v hv
  simp only [entries, init1, List.mem_append, List.mem_cons, List.mem_replicate] at hv
  omega

theorem mem_rotr {v : List ℕ} {x : ℕ} (h : x ∈ rotr v) : x ∈ v ∨ x = 0 := by
  rw [rotr, List.mem_cons] at h
  obtain rfl | h := h
  · cases v with
    | nil => exact .inr rfl
    | cons y ys =>
      rw [List.getLastD_cons]
      exact .inl List.getLastD_mem_cons
  · exact .inl (List.dropLast_subset v h)

/-- `insert` only moves entries, besides the new one and zeros. -/
theorem Narrow.insert {b : SparseBitset} (h : b.Narrow) {i : ℕ} (hi : i < 2 ^ 16) :
    (b.insert i).1.Narrow := by
  have hlo : ∀ v ∈ b.lo, v < 2 ^ 16 := fun v hv => h v (List.mem_append_left _ hv)
  have hhi : ∀ v ∈ b.hi, v < 2 ^ 16 := fun v hv => h v (List.mem_append_right _ hv)
  have hrot : ∀ w : List ℕ, (∀ v ∈ w, v < 2 ^ 16) → ∀ v ∈ rotr w, v < 2 ^ 16 := by
    intro w hw v hv
    obtain hv | rfl := mem_rotr hv
    · exact hw v hv
    · norm_num
  have hset : ∀ (w : List ℕ) (k y : ℕ), (∀ v ∈ w, v < 2 ^ 16) → y < 2 ^ 16 →
      ∀ v ∈ w.set k y, v < 2 ^ 16 := by
    intro w k y hw hy v hv
    obtain hv | rfl := List.mem_or_eq_of_mem_set hv
    · exact hw v hv
    · exact hy
  have hfirst : b.lo.getD 0 0 < 2 ^ 16 := by
    cases hl : b.lo with
    | nil => norm_num
    | cons y ys => exact hlo y (hl ▸ List.mem_cons_self)
  rw [SparseBitset.insert]
  split
  · intro v hv
    rw [entries, List.mem_append] at hv
    exact hv.elim (hset _ _ _ (hrot _ hlo) hi v) (hhi v)
  · split
    · exact h
    · intro v hv
      rw [entries, List.mem_append] at hv
      refine hv.elim (fun hv => ?_) (hset _ _ _ (hrot _ hhi) (by split <;> assumption) v)
      dsimp only at hv
      split at hv
      · exact hset _ _ _ hlo (by norm_num) v hv
      · exact hlo v hv

end Narrow

end SparseBitset

end PreemptDB
