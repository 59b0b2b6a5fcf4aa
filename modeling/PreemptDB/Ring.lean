/-
A queue in a circular array.

`window data n start k` are the `k` elements from `start` on in an array of `n`
slots.  Adding and taking elements are list operations on the window; an array of
another length has the same window only if it does not wrap around.
-/
import Mathlib.Data.List.Range
import Mathlib.Tactic

namespace Ring

variable {α : Type*} {data data' : ℕ → α} {n n' start k : ℕ}

/-- The `k` elements from `start` on. -/
def window (data : ℕ → α) (n start k : ℕ) : List α :=
  (List.range k).map fun j => data ((start + j) % n)

@[simp] theorem length_window : (window data n start k).length = k := by simp [window]

theorem window_congr (h : ∀ j < k, data' ((start + j) % n') = data ((start + j) % n)) :
    window data' n' start k = window data n start k :=
  List.map_congr_left fun j hj => h j (List.mem_range.mp hj)

/-- Two elements of a window are in different slots. -/
theorem slot_ne {i j : ℕ} (hij : i < j) (hj : j < n) : (start + i) % n ≠ (start + j) % n := by
  intro h
  have hmod : start + i ≡ start + j [MOD n] := h
  have hlt := (Nat.ModEq.add_left_cancel' start hmod).eq_of_lt_of_lt (hij.trans hj) hj
  omega

/-- The slot behind the window takes a new element. -/
theorem window_snoc (hk : k < n) (x : α) :
    window (Function.update data ((start + k) % n) x) n start (k + 1) =
      window data n start k ++ [x] := by
  rw [window, List.range_succ, List.map_append, List.map_singleton, Function.update_self]
  congr 1
  exact window_congr fun j hj => Function.update_of_ne (slot_ne hj hk) _ _

/-- The first elements leave. -/
theorem window_drop (m : ℕ) :
    window data n ((start + m) % n) (k - m) = (window data n start k).drop m := by
  refine List.ext_getElem (by simp) fun j hj _ => ?_
  simp [window, Nat.add_assoc]

/-- A longer array with the same beginning. -/
theorem window_grow (hle : start + k ≤ n) (hn : n ≤ n') (h : ∀ i < n, data' i = data i) :
    window data' n' start k = window data n start k := by
  refine window_congr fun j hj => ?_
  rw [Nat.mod_eq_of_lt (by omega), Nat.mod_eq_of_lt (by omega)]
  exact h _ (by omega)

end Ring
