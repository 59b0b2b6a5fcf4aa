/-
A sparse bitset is a set of up to sixteen values, if it can be read.

`contains` and `size` compare whole vectors and look at the mask of the result; they agree
with the values that have been inserted.  The iterator goes through `as_array`, which takes
the first entries for a pointer, and what it yields is what the memory holds there.

* `pmovmskb`, `contains`, `size` — the functions on masks;
* `insertAll_spec` — a sequence of insertions;
* `readValues_eq_some_iff` — what the iterator yields;
* `bitset_values` — the whole interface after a sequence of insertions.
-/
import Mathlib.Data.Nat.BitIndices
import Mathlib.Data.Nat.Bitwise
import PreemptDB.SparseBitset

namespace PreemptDB

namespace SparseBitset

/-- `__builtin_ia32_pmovmskb128` on a comparison of 16-bit lanes: two bits for each lane. -/
def pmovmskb : List Bool → ℕ
  | [] => 0
  | x :: v => Nat.bit x (Nat.bit x (pmovmskb v))

/-- `__builtin_popcount` -/
def popcount (n : ℕ) : ℕ := n.bitIndices.length

def contains (b : SparseBitset) (i : ℕ) : Bool :=
  if i = 0 then b.lo.getD 0 0 = 0
  else pmovmskb (b.lo.map (· = i)) ||| pmovmskb (b.hi.map (· = i)) ≠ 0

def size (b : SparseBitset) : ℕ :=
  popcount ((pmovmskb (b.lo.map (· ≠ 0)) &&& 0x5555) ||| (pmovmskb (b.hi.map (· ≠ 0)) &&& 0xaaaa)
    ||| 1)

/-- The values are inserted in order. -/
def insertAll (b : SparseBitset) (vs : List ℕ) : SparseBitset :=
  vs.foldl (fun b v => (b.insert v).1) b

section Masks

theorem popcount_bit (x : Bool) (n : ℕ) : popcount (Nat.bit x n) = x.toNat + popcount n := by
  rw [popcount, popcount]
  cases x with
  | false =>
    rw [Nat.bitIndices_bit_false, List.length_map]
    exact (Nat.zero_add _).symm
  | true =>
    rw [Nat.bitIndices_bit_true, List.length_cons, List.length_map, Nat.add_comm]
    rfl

theorem pmovmskb_eq_zero_iff (v : List Bool) : pmovmskb v = 0 ↔ true ∉ v := by
  induction v with
  | nil => simp [pmovmskb]
  | cons x v ih =>
    rw [pmovmskb, Nat.bit_eq_zero_iff, Nat.bit_eq_zero_iff, ih, List.mem_cons, not_or]
    cases x <;> simp

/-- The lower bits of the lanes, and the upper ones. -/
def evens : ℕ → ℕ
  | 0 => 0
  | n + 1 => Nat.bit true (Nat.bit false (evens n))

def odds : ℕ → ℕ
  | 0 => 0
  | n + 1 => Nat.bit false (Nat.bit true (odds n))

/-- One bit for each lane of either vector. -/
def interleave : List Bool → List Bool → ℕ
  | x :: v, y :: w => Nat.bit x (Nat.bit y (interleave v w))
  | _, _ => 0

theorem masks_eq_interleave (v w : List Bool) (h : v.length = w.length) :
    (pmovmskb v &&& evens v.length) ||| (pmovmskb w &&& odds v.length) = interleave v w := by
  induction v generalizing w with
  | nil =>
    obtain rfl := List.eq_nil_of_length_eq_zero h.symm
    rfl
  | cons x v ih =>
    obtain ⟨y, w, rfl⟩ := List.exists_cons_of_length_eq_add_one h.symm
    rw [List.length_cons, List.length_cons, Nat.add_right_cancel_iff] at h
    rw [pmovmskb, pmovmskb, List.length_cons, evens, odds, interleave, ← ih w h]
    simp only [Nat.land_bit, Nat.lor_bit, Bool.and_true, Bool.and_false, Bool.or_false,
      Bool.false_or]

theorem popcount_interleave (v w : List Bool) (h : v.length = w.length) :
    popcount (interleave v w) = v.count true + w.count true := by
  induction v generalizing w with
  | nil =>
    obtain rfl := List.eq_nil_of_length_eq_zero h.symm
    simp [interleave, popcount]
  | cons x v ih =>
    obtain ⟨y, w, rfl⟩ := List.exists_cons_of_length_eq_add_one h.symm
    rw [List.length_cons, List.length_cons, Nat.add_right_cancel_iff] at h
    rw [interleave, popcount_bit, popcount_bit, ih w h, List.count_cons, List.count_cons]
    cases x <;> cases y <;> simp <;> omega

end Masks

section Set

variable {b : SparseBitset} {us vs : List ℕ}

theorem Holds.contains_iff (h : Holds b us vs) (i : ℕ) : b.contains i = true ↔ i ∈ us ++ vs := by
  obtain ⟨y, ys, rfl⟩ := List.exists_cons_of_ne_nil h.us_ne
  rw [contains]
  by_cases hi : i = 0
  · -- zero can only be in front
    have hlo : b.lo.getD 0 0 = y := by rw [h.lo]; rfl
    rw [if_pos hi, hlo, decide_eq_true_iff, hi, List.cons_append, List.mem_cons, List.mem_append]
    constructor
    · rintro rfl
      exact .inl rfl
    · rintro (rfl | hys | hvs)
      · rfl
      · exact absurd rfl (h.tail_ne 0 hys)
      · exact absurd rfl (h.vs_ne 0 hvs)
  · have hzero : ∀ k, i ∉ List.replicate k 0 := fun k hmem => hi (List.eq_of_mem_replicate hmem)
    have hmem : ∀ l : List ℕ, true ∈ l.map (fun x => decide (x = i)) ↔ i ∈ l := by
      intro l
      simp only [List.mem_map, decide_eq_true_eq, exists_eq_right]
    rw [if_neg hi, decide_eq_true_iff, ne_eq, Nat.or_eq_zero_iff, pmovmskb_eq_zero_iff,
      pmovmskb_eq_zero_iff, ← not_or, not_not, hmem, hmem, h.lo, h.hi, List.mem_append,
      List.mem_append, List.mem_append]
    simp only [hzero, or_false]

theorem count_nonzero {xs : List ℕ} (h : ∀ x ∈ xs, x ≠ 0) (k : ℕ) :
    ((xs ++ List.replicate k 0).map (fun x => decide (x ≠ 0))).count true = xs.length := by
  rw [List.map_append, List.count_append, List.map_replicate]
  have hxs : xs.map (fun x => decide (x ≠ 0)) = List.replicate xs.length true := by
    rw [List.eq_replicate_iff]
    refine ⟨List.length_map _, fun x hx => ?_⟩
    obtain ⟨y, hy, rfl⟩ := List.mem_map.mp hx
    exact decide_eq_true (h y hy)
  have hzeros : (List.replicate k (decide ((0 : ℕ) ≠ 0))).count true = 0 :=
    List.count_eq_zero.mpr fun hmem => by simp at hmem
  rw [hxs, List.count_replicate_self, hzeros, Nat.add_zero]

/-- The first lane is counted without being looked at. -/
theorem Holds.size_eq (h : Holds b us vs) : b.size = (us ++ vs).length := by
  obtain ⟨y, ys, rfl⟩ := List.exists_cons_of_ne_nil h.us_ne
  have hus := h.us_le
  have hvs := h.vs_le
  rw [List.length_cons] at hus
  have hlo : b.lo = y :: (ys ++ List.replicate (8 - (ys.length + 1)) 0) := h.lo
  obtain ⟨z, zs, hhi⟩ : ∃ z zs, b.hi = z :: zs :=
    List.exists_cons_of_length_pos (by rw [h.hi, List.length_append, List.length_replicate]; omega)
  have hlen : b.lo.length = 8 := by
    rw [hlo, List.length_cons, List.length_append, List.length_replicate]
    omega
  have hlen' : b.hi.length = 8 := by
    rw [h.hi, List.length_append, List.length_replicate]
    omega
  have hmasks := masks_eq_interleave (b.lo.map (· ≠ 0)) (b.hi.map (· ≠ 0))
    (by rw [List.length_map, List.length_map, hlen, hlen'])
  rw [List.length_map, hlen] at hmasks
  have hone : interleave (b.lo.map (· ≠ 0)) (b.hi.map (· ≠ 0)) ||| 1 =
      interleave (true :: b.lo.tail.map (· ≠ 0)) (b.hi.map (· ≠ 0)) := by
    rw [hlo, hhi, List.map_cons, List.map_cons, List.tail_cons, interleave, interleave,
      show (1 : ℕ) = Nat.bit true 0 from rfl, Nat.lor_bit, Bool.or_true, Nat.or_zero]
  have htail : (b.lo.tail.map (fun x => decide (x ≠ 0))).count true = ys.length := by
    rw [hlo, List.tail_cons]
    exact count_nonzero h.tail_ne _
  have hcount : (b.hi.map (fun x => decide (x ≠ 0))).count true = vs.length := by
    rw [h.hi, count_nonzero h.vs_ne]
  show popcount ((pmovmskb (b.lo.map (· ≠ 0)) &&& evens 8) |||
    (pmovmskb (b.hi.map (· ≠ 0)) &&& odds 8) ||| 1) = _
  rw [hmasks, hone, popcount_interleave, hcount, List.count_cons_self, htail, List.cons_append,
    List.length_cons, List.length_append, Nat.add_right_comm]
  rw [List.length_cons, List.length_map, List.length_map, List.length_tail, hlen, hlen']

theorem Ok.contains_iff (h : b.Ok) (i : ℕ) : b.contains i = true ↔ i ∈ b.values := by
  obtain ⟨us, vs, h⟩ := h
  rw [h.contains_iff, h.values_eq]

theorem Ok.size_eq (h : b.Ok) : b.size = b.values.length := by
  obtain ⟨us, vs, h⟩ := h
  rw [h.size_eq, h.values_eq]

/-- A full bitset takes nothing. -/
theorem Ok.insert_full (h : b.Ok) (hlen : b.values.length = 16) (i : ℕ) : b.insert i = (b, -1) := by
  obtain ⟨us, vs, h⟩ := h
  have hus := h.us_le
  have hvs := h.vs_le
  rw [h.values_eq, List.length_append] at hlen
  obtain ⟨y, ys, rfl⟩ := List.exists_cons_of_ne_nil h.us_ne
  rw [List.length_cons] at hlen hus
  have hlo : b.lo.getD 7 0 ≠ 0 := by
    have hlast : ys.getD 6 0 ≠ 0 := getD_ne_zero h.tail_ne (show 6 < ys.length by omega)
    rw [h.lo, getD_append_zeros]
    exact hlast
  have hhi : b.hi.getD 7 0 ≠ 0 := by
    rw [h.hi, getD_append_zeros]
    exact getD_ne_zero h.vs_ne (by omega)
  rw [SparseBitset.insert, if_neg hlo, if_pos hhi]

/-- Distinct values are inserted while there is room. -/
theorem Ok.insertAll : ∀ (ws : List ℕ) {b : SparseBitset}, b.Ok → (b.values ++ ws).Nodup →
    b.values.length + ws.length ≤ 16 →
    (b.insertAll ws).Ok ∧ (b.insertAll ws).values.Perm (b.values ++ ws) := by
  intro ws
  induction ws with
  | nil =>
    intro b h _ _
    exact ⟨h, (List.append_nil b.values).symm ▸ .refl _⟩
  | cons w ws ih =>
    intro b h hnodup hlen
    rw [List.length_cons] at hlen
    have hmid : (b.values ++ w :: ws).Perm (w :: (b.values ++ ws)) := List.perm_middle
    have hnodup' := hmid.nodup_iff.mp hnodup
    have hw : w ∉ b.values := fun hmem =>
      (List.nodup_cons.mp hnodup').1 (List.mem_append_left ws hmem)
    obtain ⟨hok, hperm, -⟩ := h.insert (by omega) hw
    have hperm' : ((b.insert w).1.values ++ ws).Perm (w :: (b.values ++ ws)) :=
      hperm.append_right ws
    obtain ⟨hok', hvals⟩ := ih hok (hperm'.nodup_iff.mpr hnodup') (by
      rw [hperm.length_eq, List.length_cons]
      omega)
    exact ⟨hok', hvals.trans (hperm'.trans hmid.symm)⟩

end Set

section Iterate

/-- From `addr` on, the memory lists `ys` as the iterator wants it: no zero after the first
entry, then a zero if there is a place for it.  After sixteen entries there is still a load. -/
structure Listed (mem : Memory) (addr : ℕ) (ys : List ℕ) : Prop where
  ne_nil : ys ≠ []
  length_le : ys.length ≤ 16
  entries : ∀ j (hj : j < ys.length), mem (addr + 2 * j) = some ys[j]
  tail_ne : ∀ y ∈ ys.tail, y ≠ 0
  stop : ys.length < 16 → mem (addr + 2 * ys.length) = some 0
  past : ys.length = 16 → (mem (addr + 2 * 16)).isSome

/-- One round of the iterator: the next entry decides whether it goes on. -/
theorem readFrom_succ_eq_some_iff {mem : Memory} {b : SparseBitset} {n i : ℕ} {ys : List ℕ} :
    b.readFrom mem (n + 1) i = some ys ↔ ∃ x y, b.asArray mem i = some x ∧
      b.asArray mem (i + 1) = some y ∧
      (y = 0 ∧ ys = [x] ∨ y ≠ 0 ∧ ∃ zs, b.readFrom mem n (i + 1) = some zs ∧ ys = x :: zs) := by
  rw [readFrom]
  simp only [Option.bind_eq_bind, Option.bind_eq_some_iff]
  refine exists_congr fun x => ⟨?_, ?_⟩
  · rintro ⟨hx, y, hy, heq⟩
    refine ⟨y, hx, hy, ?_⟩
    by_cases h0 : y = 0
    · rw [if_pos h0] at heq
      exact .inl ⟨h0, (Option.some.inj heq).symm⟩
    · rw [if_neg h0] at heq
      obtain ⟨zs, hzs, heq⟩ := Option.bind_eq_some_iff.mp heq
      exact .inr ⟨h0, zs, hzs, (Option.some.inj heq).symm⟩
  · rintro ⟨y, hx, hy, ⟨h0, rfl⟩ | ⟨h0, zs, hzs, rfl⟩⟩
    · refine ⟨hx, y, hy, ?_⟩
      rw [if_pos h0]
      rfl
    · refine ⟨hx, y, hy, ?_⟩
      rw [if_neg h0, hzs]
      rfl

/-- From place `i` on, with at most `n` places. -/
def ListedFrom (mem : Memory) (b : SparseBitset) (n i : ℕ) (ys : List ℕ) : Prop :=
  ys ≠ [] ∧ ys.length ≤ n ∧ (∀ j (hj : j < ys.length), b.asArray mem (i + j) = some ys[j]) ∧
    (∀ y ∈ ys.tail, y ≠ 0) ∧ (ys.length < n → b.asArray mem (i + ys.length) = some 0) ∧
    (ys.length = n → (b.asArray mem (i + n)).isSome)

theorem listedFrom_singleton_iff {mem : Memory} {b : SparseBitset} {n i x : ℕ} :
    ListedFrom mem b (n + 1) i [x] ↔ b.asArray mem i = some x ∧
      (0 < n → b.asArray mem (i + 1) = some 0) ∧ (n = 0 → (b.asArray mem (i + 1)).isSome) := by
  constructor
  · rintro ⟨-, -, hentries, -, hstop, hpast⟩
    refine ⟨hentries 0 Nat.one_pos, fun hn => hstop (Nat.succ_lt_succ hn), fun hn => ?_⟩
    subst hn
    exact hpast rfl
  · rintro ⟨hx, hstop, hpast⟩
    refine ⟨nofun, Nat.succ_le_succ (Nat.zero_le n), fun j hj => ?_, nofun,
      fun hn => hstop (Nat.lt_of_succ_lt_succ hn), fun hn => ?_⟩
    · obtain rfl : j = 0 := Nat.lt_one_iff.mp hj
      exact hx
    · obtain rfl : n = 0 := (Nat.succ.inj hn).symm
      exact hpast rfl

theorem listedFrom_cons_iff {mem : Memory} {b : SparseBitset} {n i x z : ℕ} {zs : List ℕ} :
    ListedFrom mem b (n + 1) i (x :: z :: zs) ↔ b.asArray mem i = some x ∧ z ≠ 0 ∧
      ListedFrom mem b n (i + 1) (z :: zs) := by
  have hshift : ∀ j, i + 1 + j = i + (j + 1) := fun j => by omega
  constructor
  · rintro ⟨-, hlen, hentries, htail, hstop, hpast⟩
    refine ⟨hentries 0 (Nat.succ_pos _), htail z List.mem_cons_self, nofun,
      Nat.le_of_succ_le_succ hlen, fun j hj => ?_,
      fun y hy => htail y (List.mem_cons_of_mem z hy), fun hn => ?_, fun hn => ?_⟩
    · rw [hshift]
      exact hentries (j + 1) (Nat.succ_lt_succ hj)
    · rw [hshift]
      exact hstop (Nat.succ_lt_succ hn)
    · rw [hshift]
      exact hpast (congrArg (· + 1) hn)
  · rintro ⟨hx, hz, -, hlen, hentries, htail, hstop, hpast⟩
    refine ⟨nofun, Nat.succ_le_succ hlen, fun j hj => ?_, fun y hy => ?_, fun hn => ?_,
      fun hn => ?_⟩
    · cases j with
      | zero => exact hx
      | succ j =>
        have hj' := hentries j (Nat.lt_of_succ_lt_succ hj)
        rwa [hshift] at hj'
    · obtain rfl | hy := List.mem_cons.mp hy
      · exact hz
      · exact htail y hy
    · have h0 := hstop (Nat.lt_of_succ_lt_succ hn)
      rwa [hshift] at h0
    · have hsome := hpast (Nat.succ.inj hn)
      rwa [hshift] at hsome

theorem readFrom_eq_some_iff {mem : Memory} {b : SparseBitset} : ∀ (n i : ℕ) (ys : List ℕ),
    b.readFrom mem (n + 1) i = some ys ↔ ListedFrom mem b (n + 1) i ys := by
  intro n
  induction n with
  | zero =>
    intro i ys
    rw [readFrom_succ_eq_some_iff]
    constructor
    · -- either way the iterator has come to its end
      rintro ⟨x, y, hx, hy, ⟨-, rfl⟩ | ⟨-, zs, hzs, rfl⟩⟩
      · exact listedFrom_singleton_iff.mpr ⟨hx, nofun, fun _ => by rw [hy]; rfl⟩
      · cases hzs
        exact listedFrom_singleton_iff.mpr ⟨hx, nofun, fun _ => by rw [hy]; rfl⟩
    · intro h
      obtain ⟨x, rfl⟩ : ∃ x, ys = [x] :=
        List.length_eq_one_iff.mp (Nat.le_antisymm h.2.1 (List.length_pos_iff.mpr h.1))
      obtain ⟨hx, -, hpast⟩ := listedFrom_singleton_iff.mp h
      obtain ⟨y, hy⟩ := Option.isSome_iff_exists.mp (hpast rfl)
      refine ⟨x, y, hx, hy, ?_⟩
      by_cases h0 : y = 0
      · exact .inl ⟨h0, rfl⟩
      · exact .inr ⟨h0, [], rfl, rfl⟩
  | succ n ih =>
    intro i ys
    rw [readFrom_succ_eq_some_iff]
    constructor
    · rintro ⟨x, y, hx, hy, ⟨rfl, rfl⟩ | ⟨h0, zs, hzs, rfl⟩⟩
      · exact listedFrom_singleton_iff.mpr ⟨hx, fun _ => hy, nofun⟩
      · have hrest := (ih (i + 1) zs).mp hzs
        obtain ⟨z, zs, rfl⟩ := List.exists_cons_of_ne_nil hrest.1
        have hz : b.asArray mem (i + 1) = some z := hrest.2.2.1 0 (Nat.succ_pos _)
        rw [hy] at hz
        cases hz
        exact listedFrom_cons_iff.mpr ⟨hx, h0, hrest⟩
    · intro h
      obtain ⟨x, zs, rfl⟩ := List.exists_cons_of_ne_nil h.1
      cases zs with
      | nil =>
        obtain ⟨hx, hstop, -⟩ := listedFrom_singleton_iff.mp h
        exact ⟨x, 0, hx, hstop (Nat.succ_pos n), .inl ⟨rfl, rfl⟩⟩
      | cons z zs =>
        obtain ⟨hx, hz, hrest⟩ := listedFrom_cons_iff.mp h
        exact ⟨x, z, hx, hrest.2.2.1 0 (Nat.succ_pos _),
          .inr ⟨hz, z :: zs, (ih (i + 1) _).mpr hrest, rfl⟩⟩

theorem readValues_eq_some_iff {mem : Memory} {b : SparseBitset} {ys : List ℕ} :
    b.readValues mem = some ys ↔ Listed mem b.address ys := by
  rw [readValues, CAPACITY, readFrom_eq_some_iff]
  simp only [ListedFrom, Nat.zero_add, asArray]
  constructor
  · rintro ⟨hne, hlen, hread, hnext, hzero, hlast⟩
    exact ⟨hne, hlen, hread, hnext, hzero, hlast⟩
  · rintro ⟨hne, hlen, hread, hnext, hzero, hlast⟩
    exact ⟨hne, hlen, hread, hnext, hzero, hlast⟩

end Iterate

/-- After `init1` and insertions of distinct values, up to sixteen in all, `contains` and
`size` are right, `insert` returns 1 on the sixteenth value and 0 before, and -1 afterwards
without a change.  The iterator yields the values if and only if the memory, where the first
four entries point to, lists them. -/
theorem bitset_values (mem : Memory) {v : ℕ} {vs : List ℕ} (hnodup : (v :: vs).Nodup)
    (hlen : vs.length ≤ 15) :
    (∀ x, ((init1 v).insertAll vs).contains x = true ↔ x ∈ v :: vs) ∧
      ((init1 v).insertAll vs).size = vs.length + 1 ∧
      (∀ ws x, ws ++ [x] <+: vs →
        (((init1 v).insertAll ws).insert x).2 = if ws.length = 14 then 1 else 0) ∧
      (vs.length = 15 → ∀ x, ((init1 v).insertAll vs).insert x = ((init1 v).insertAll vs, -1)) ∧
      ((∃ ys, ((init1 v).insertAll vs).readValues mem = some ys ∧ ys.Perm (v :: vs)) ↔
        ∃ ys, Listed mem ((init1 v).insertAll vs).address ys ∧ ys.Perm (v :: vs)) := by
  have hrun : ∀ ws, ws <+: vs → ((init1 v).insertAll ws).Ok ∧
      ((init1 v).insertAll ws).values.Perm (v :: ws) := by
    intro ws hws
    have hle := hws.length_le
    have hsub : (v :: ws).Nodup := hnodup.sublist (hws.sublist.cons_cons v)
    have hspec := (ok_init1 v).insertAll ws
    rw [values_init1] at hspec
    exact hspec hsub (by rw [List.length_singleton]; omega)
  obtain ⟨hok, hperm⟩ := hrun vs (List.prefix_refl vs)
  refine ⟨fun x => ?_, ?_, fun ws x hws => ?_, fun hfull x => ?_, ?_⟩
  · rw [hok.contains_iff, hperm.mem_iff]
  · rw [hok.size_eq, hperm.length_eq, List.length_cons]
  · obtain ⟨hok', hperm'⟩ := hrun ws ((List.prefix_append ws [x]).trans hws)
    have hle := hws.length_le
    rw [List.length_append, List.length_singleton] at hle
    have hx : x ∉ v :: ws := by
      have hsub : (v :: (ws ++ [x])).Nodup := hnodup.sublist (hws.sublist.cons_cons v)
      rw [← List.cons_append, List.nodup_append] at hsub
      exact fun hmem => hsub.2.2 x hmem x (List.mem_singleton_self x) rfl
    have hlen' := hperm'.length_eq
    rw [List.length_cons] at hlen'
    rw [(hok'.insert (by omega) (fun hmem => hx (hperm'.mem_iff.mp hmem))).2.2, hlen']
    simp only [Nat.reduceEqDiff]
  · refine hok.insert_full ?_ x
    rw [hperm.length_eq, List.length_cons, hfull]
  · simp only [readValues_eq_some_iff]

/-- Zero comes third and stays in front, and the memory at the address is a copy. -/
theorem bitset_values_zero :
    ((init1 7).insertAll [9, 0]).contains 0 = true ∧ ((init1 7).insertAll [9, 0]).size = 3 ∧
      ((init1 7).insertAll [9, 0]).readValues (fun a =>
        ([0, 9, 7, 0][(a - ((init1 7).insertAll [9, 0]).address) / 2]?)) = some [0, 9, 7] := by
  obtain ⟨hcontains, hsize, -, -, -⟩ :=
    bitset_values (fun _ => none) (show (7 :: [9, 0]).Nodup by decide) (by decide)
  exact ⟨(hcontains 0).mpr (by decide), hsize, by decide +kernel⟩

/-- Two sets of five values with the same first four entries: whatever the memory holds, the
iterator does not yield the values of both. -/
theorem iterator_wrong : ¬ ∃ mem : Memory, ∀ v vs, (v :: vs).Nodup → vs.length ≤ 15 →
    ∃ ys, ((init1 v).insertAll vs).readValues mem = some ys ∧ ys.Perm (v :: vs) := by
  rintro ⟨mem, hall⟩
  obtain ⟨ys, hread, hperm⟩ := hall 5 [4, 3, 2, 1] (by decide) (by decide)
  obtain ⟨zs, hread', hperm'⟩ := hall 6 [4, 3, 2, 1] (by decide) (by decide)
  have haddr : ((init1 5).insertAll [4, 3, 2, 1]).address =
      ((init1 6).insertAll [4, 3, 2, 1]).address := by decide
  have hlisted := readValues_eq_some_iff.mp hread
  rw [haddr, ← readValues_eq_some_iff, hread'] at hlisted
  cases hlisted
  exact absurd (hperm.mem_iff.mp (hperm'.mem_iff.mpr (List.mem_cons_self (a := 6)))) (by decide)

end SparseBitset

end PreemptDB
