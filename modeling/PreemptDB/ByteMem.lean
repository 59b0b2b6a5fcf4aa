/-
Byte-addressed memory.

Memory is a function from addresses to bytes.  `store` writes a list of bytes
at an address, `load` reads a number of bytes from one, `leBytes` and
`leValue` convert between numbers and their little-endian bytes.

* `load_store` — what was stored is read back;
* `load_store_of_disjoint` — a store elsewhere does not matter (frame rule);
* `load_append` — a read is the read of its parts;
* `leValue_leBytes` — a word of `w` bytes holds a number modulo `256 ^ w`.
-/
import Mathlib.Tactic

namespace ByteMem

/-- Write the bytes `bs` from address `off` on. -/
def store (m : ℕ → UInt8) (off : ℕ) (bs : List UInt8) : ℕ → UInt8 :=
  fun a => if off ≤ a then (bs[a - off]?).getD (m a) else m a

/-- Read `n` bytes from address `off` on. -/
def load (m : ℕ → UInt8) (off n : ℕ) : List UInt8 :=
  (List.range n).map fun i => m (off + i)

@[simp] theorem length_load (m : ℕ → UInt8) (off n : ℕ) : (load m off n).length = n := by
  simp [load]

theorem load_congr {m m' : ℕ → UInt8} {off off' n : ℕ}
    (h : ∀ i < n, m (off + i) = m' (off' + i)) : load m off n = load m' off' n := by
  refine List.map_congr_left fun i hi => h i (List.mem_range.mp hi)

theorem load_eq_iff {m : ℕ → UInt8} {off n : ℕ} {bs : List UInt8} (hn : bs.length = n) :
    load m off n = bs ↔ ∀ i (hi : i < bs.length), m (off + i) = bs[i] := by
  subst hn
  constructor
  · intro h i hi
    have hget : (load m off bs.length)[i]? = bs[i]? := by rw [h]
    simpa [load, hi] using hget
  · intro h
    refine List.ext_getElem (by simp) fun i _ hi => ?_
    simpa [load] using h i hi

theorem store_apply_mem {m : ℕ → UInt8} {off i : ℕ} {bs : List UInt8} (hi : i < bs.length) :
    store m off bs (off + i) = bs[i] := by
  simp [store, hi]

theorem store_apply_of_disjoint {m : ℕ → UInt8} {off a : ℕ} {bs : List UInt8}
    (h : a < off ∨ off + bs.length ≤ a) : store m off bs a = m a := by
  rw [store]
  split
  · rw [List.getElem?_eq_none (by omega), Option.getD_none]
  · rfl

/-- What was stored is read back. -/
theorem load_store (m : ℕ → UInt8) (off : ℕ) (bs : List UInt8) :
    load (store m off bs) off bs.length = bs :=
  (load_eq_iff rfl).mpr fun _ hi => store_apply_mem hi

/-- A store elsewhere does not change what is read. -/
theorem load_store_of_disjoint {m : ℕ → UInt8} {off off' n : ℕ} {bs : List UInt8}
    (h : off' + n ≤ off ∨ off + bs.length ≤ off') :
    load (store m off bs) off' n = load m off' n :=
  load_congr fun _ _ => store_apply_of_disjoint (by omega)

theorem load_append (m : ℕ → UInt8) (off a b : ℕ) :
    load m off (a + b) = load m off a ++ load m (off + a) b := by
  simp [load, List.range_add, Nat.add_assoc]

/-- Reading inside a copy reads the original. -/
theorem load_store_load (m m' : ℕ → UInt8) (off dst : ℕ) {n i k : ℕ} (h : i + k ≤ n) :
    load (store m dst (load m' off n)) (dst + i) k = load m' (off + i) k := by
  refine load_congr fun j hj => ?_
  have hlt : i + j < (load m' off n).length := by
    rw [length_load]
    omega
  rw [Nat.add_assoc, store_apply_mem hlt]
  simp [load, Nat.add_assoc]

/-- The `w` little-endian bytes of a number. -/
def leBytes : ℕ → ℕ → List UInt8
  | 0, _ => []
  | w + 1, v => UInt8.ofNat v :: leBytes w (v / 256)

/-- The number that little-endian bytes stand for. -/
def leValue : List UInt8 → ℕ
  | [] => 0
  | b :: bs => b.toNat + 256 * leValue bs

@[simp] theorem length_leBytes (w v : ℕ) : (leBytes w v).length = w := by
  induction w generalizing v with
  | zero => rfl
  | succ w ih => rw [leBytes, List.length_cons, ih]

/-- A word of `w` bytes holds a number modulo `256 ^ w`. -/
theorem leValue_leBytes (w v : ℕ) : leValue (leBytes w v) = v % 256 ^ w := by
  induction w generalizing v with
  | zero => simp [leBytes, leValue, Nat.mod_one]
  | succ w ih =>
    have hb : (UInt8.ofNat v).toNat = v % 256 := by simp
    rw [leBytes, leValue, ih, hb, Nat.pow_succ', Nat.mod_mul]

end ByteMem
