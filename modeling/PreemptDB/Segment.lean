/-
Parts of arrays as multisets.

An array is a function on indices; `seg f a n` is what its `n` places from `a`
on hold, with multiplicities.  Copying and appending move elements between
segments, and conservation laws are equations between sums of segments.

* `seg` — a segment, with `seg_add`, `seg_cons`, `seg_snoc`;
* `copy` — `memcpy`;
* `put` — append a list;
* `sum_swap` — a sum that changes in one place.
-/
import Mathlib.Tactic

namespace Segment

open Function

variable {α β : Type*}

/-- The `n` elements from index `a` on. -/
def seg (f : ℕ → α) (a n : ℕ) : Multiset α := (Multiset.range n).map fun i => f (a + i)

@[simp] theorem seg_zero (f : ℕ → α) (a : ℕ) : seg f a 0 = 0 := rfl

@[simp] theorem card_seg (f : ℕ → α) (a n : ℕ) : (seg f a n).card = n := by
  rw [seg, Multiset.card_map, Multiset.card_range]

theorem seg_snoc (f : ℕ → α) (a n : ℕ) : seg f a (n + 1) = f (a + n) ::ₘ seg f a n := by
  rw [seg, Multiset.range_succ, Multiset.map_cons, seg]

theorem mem_seg {f : ℕ → α} {a n : ℕ} {x : α} : x ∈ seg f a n ↔ ∃ i < n, f (a + i) = x := by
  simp only [seg, Multiset.mem_map, Multiset.mem_range]

theorem seg_congr {f g : ℕ → α} {a n : ℕ} (h : ∀ i, a ≤ i → i < a + n → f i = g i) :
    seg f a n = seg g a n := by
  refine Multiset.map_congr rfl fun i hi => h _ (Nat.le_add_right _ _) ?_
  rw [Multiset.mem_range] at hi
  omega

theorem seg_add (f : ℕ → α) (a m n : ℕ) : seg f a (m + n) = seg f a m + seg f (a + m) n := by
  induction n with
  | zero => rw [seg_zero, add_zero, add_zero]
  | succ n ih => rw [← add_assoc, seg_snoc, seg_snoc, ih, Multiset.add_cons, ← add_assoc]

/-- The last `n` elements of a segment from zero. -/
theorem seg_sub (f : ℕ → α) {m n : ℕ} (h : n ≤ m) :
    seg f 0 m = seg f 0 (m - n) + seg f (m - n) n := by
  have hadd := seg_add f 0 (m - n) n
  rwa [Nat.sub_add_cancel h, Nat.zero_add] at hadd

theorem seg_cons (f : ℕ → α) (a n : ℕ) : seg f a (n + 1) = f a ::ₘ seg f (a + 1) n := by
  rw [add_comm n 1, seg_add, seg_snoc, seg_zero, add_zero]
  rfl

theorem seg_update_of_lt {f : ℕ → α} {a n j : ℕ} {v : α} (h : j < a ∨ a + n ≤ j) :
    seg (update f j v) a n = seg f a n :=
  seg_congr fun i hle hlt => update_of_ne (by omega) _ _

/-- The last place of a segment is written. -/
theorem seg_update_snoc (f : ℕ → α) (a n : ℕ) (v : α) :
    seg (update f (a + n) v) a (n + 1) = v ::ₘ seg f a n := by
  rw [seg_snoc, update_self, seg_update_of_lt (.inr le_rfl)]

/-- `n` elements from index `b` of `g` on replace those from index `a` of `f` on. -/
def copy (f : ℕ → α) (a : ℕ) (g : ℕ → α) (b n : ℕ) : ℕ → α :=
  fun i => if a ≤ i ∧ i < a + n then g (b + (i - a)) else f i

theorem seg_copy (f : ℕ → α) (a : ℕ) (g : ℕ → α) (b n : ℕ) :
    seg (copy f a g b n) a n = seg g b n := by
  refine Multiset.map_congr rfl fun i hi => ?_
  rw [Multiset.mem_range] at hi
  rw [copy, if_pos ⟨Nat.le_add_right _ _, by omega⟩, Nat.add_sub_cancel_left]

/-- A copy to the end of a segment. -/
theorem seg_copy_append (f : ℕ → α) (a : ℕ) (g : ℕ → α) (b n : ℕ) :
    seg (copy f a g b n) 0 (a + n) = seg f 0 a + seg g b n := by
  rw [seg_add, Nat.zero_add, seg_copy]
  congr 1
  refine seg_congr fun i _ hi => if_neg fun hc => ?_
  omega

/-- Write a list from index `a` on. -/
def put (f : ℕ → α) (a : ℕ) : List α → ℕ → α
  | [] => f
  | x :: xs => put (update f a x) (a + 1) xs

theorem seg_put (f : ℕ → α) (a : ℕ) (xs : List α) :
    seg (put f a xs) 0 (a + xs.length) = seg f 0 a + (xs : Multiset α) := by
  induction xs generalizing f a with
  | nil => rw [put, List.length_nil, add_zero, Multiset.coe_nil, add_zero]
  | cons x xs ih =>
    have hsnoc := seg_update_snoc f 0 a x
    rw [Nat.zero_add] at hsnoc
    rw [put, List.length_cons, add_comm xs.length 1, ← add_assoc, ih, hsnoc, Multiset.cons_add,
      ← Multiset.add_cons, Multiset.cons_coe]

/-- Two places of an array change their contents. -/
theorem update_update_eq_swap (f : ℕ → α) (a b : ℕ) :
    update (update f a (f b)) b (f a) = f ∘ Equiv.swap a b := by
  funext i
  rw [comp_apply, Equiv.swap_apply_def]
  by_cases hb : i = b
  · subst hb
    rw [update_self]
    split
    next ha => rw [ha]
    next => rw [if_pos rfl]
  · rw [update_of_ne hb]
    by_cases ha : i = a
    · rw [ha, update_self, if_pos rfl]
    · rw [update_of_ne ha, if_neg ha, if_neg hb]

theorem swap_lt {a b n i : ℕ} (ha : a < n) (hb : b < n) : Equiv.swap a b i < n ↔ i < n := by
  rw [Equiv.swap_apply_def]
  split
  next h => rw [h]; exact ⟨fun _ => ha, fun _ => hb⟩
  next =>
    split
    next h => rw [h]; exact ⟨fun _ => hb, fun _ => ha⟩
    next => rfl

theorem seg_swap (f : ℕ → α) {a b n : ℕ} (ha : a < n) (hb : b < n) :
    seg (f ∘ Equiv.swap a b) 0 n = seg f 0 n := by
  have hrange : (Multiset.range n).map (Equiv.swap a b) = Multiset.range n := by
    refine (Multiset.Nodup.ext ((Multiset.nodup_range n).map (Equiv.injective _))
      (Multiset.nodup_range n)).mpr fun i => ?_
    rw [Multiset.mem_map, Multiset.mem_range]
    constructor
    · rintro ⟨j, hj, rfl⟩
      exact (swap_lt ha hb).mpr (Multiset.mem_range.mp hj)
    · intro hi
      exact ⟨Equiv.swap a b i, Multiset.mem_range.mpr ((swap_lt ha hb).mpr hi),
        Equiv.swap_apply_self a b i⟩
  simp only [seg, Nat.zero_add]
  conv_rhs => rw [← hrange, Multiset.map_map]

/-- A sum in which one term changes. -/
theorem sum_swap {ι M : Type*} [DecidableEq ι] [AddCommMonoid M] {t : Finset ι} {f g : ι → M}
    {s : ι} (hs : s ∈ t) (h : ∀ i ∈ t, i ≠ s → g i = f i) :
    ∑ i ∈ t, g i + f s = ∑ i ∈ t, f i + g s := by
  have herase : ∑ i ∈ t.erase s, g i = ∑ i ∈ t.erase s, f i :=
    Finset.sum_congr rfl fun i hi => h i (Finset.mem_of_mem_erase hi) (Finset.ne_of_mem_erase hi)
  rw [← Finset.add_sum_erase _ g hs, ← Finset.add_sum_erase _ f hs, herase]
  abel

end Segment
