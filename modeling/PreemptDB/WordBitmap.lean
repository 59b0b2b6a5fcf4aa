/-
A set of positions kept in words of 64 bits.

Position `p` is bit `p % 64` of word `p / 64`.  Besides membership and the two updates
there are the two things a bitmap is good for: counting with `cpop`, and going to the next
member with `ctz` on the bits of a word that are not below the position.

* `mem_insert`, `mem_erase` — the updates;
* `sum_cpop` — the sum of the words' counts is the number of members;
* `pending_eq_zero`, `pending_ne_zero` — what the first bit that is left says.
-/
import Mathlib.Tactic

/-- The words of a bitmap. -/
abbrev WordBitmap : Type := ℕ → BitVec 64

namespace WordBitmap

/-- The bit of a position in its word. -/
def bit (p : ℕ) : BitVec 64 := 1#64 <<< (p % 64)

def mem (b : WordBitmap) (p : ℕ) : Bool := b (p / 64) &&& bit p != 0#64

def insert (b : WordBitmap) (p : ℕ) : WordBitmap :=
  Function.update b (p / 64) (b (p / 64) ||| bit p)

def erase (b : WordBitmap) (p : ℕ) : WordBitmap :=
  Function.update b (p / 64) (b (p / 64) &&& ~~~bit p)

/-- The bits of the word of `p` from `p` on. -/
def pending (b : WordBitmap) (p : ℕ) : BitVec 64 := b (p / 64) &&& -bit p

theorem getLsbD_bit (p i : ℕ) : (bit p).getLsbD i = decide (i = p % 64) := by
  have hp : p % 64 < 64 := Nat.mod_lt _ (by decide)
  rw [bit, BitVec.getLsbD_shiftLeft, BitVec.getLsbD_one]
  grind

theorem mem_eq_getLsbD (b : WordBitmap) (p : ℕ) :
    b.mem p = (b (p / 64)).getLsbD (p % 64) := by
  have hp : p % 64 < 64 := Nat.mod_lt _ (by decide)
  rw [mem, Bool.eq_iff_iff, bne_iff_ne]
  constructor
  · intro hne
    by_contra hbit
    refine hne (BitVec.eq_of_getLsbD_eq fun i _ => ?_)
    rw [BitVec.getLsbD_and, getLsbD_bit]
    by_cases hi : i = p % 64
    · rw [hi, eq_false_of_ne_true hbit, Bool.false_and, BitVec.getLsbD_zero]
    · simp [hi]
  · intro hbit h0
    have := congrArg (·.getLsbD (p % 64)) h0
    simp [getLsbD_bit, hbit] at this

@[simp] theorem mem_zero (p : ℕ) : mem (fun _ => 0#64) p = false := by
  rw [mem_eq_getLsbD, BitVec.getLsbD_zero]

/-- Two positions are the same bit of the same word. -/
theorem eq_iff (p q : ℕ) : q = p ↔ q / 64 = p / 64 ∧ q % 64 = p % 64 := by
  omega

theorem mem_insert (b : WordBitmap) (p q : ℕ) :
    (b.insert p).mem q = (decide (q = p) || b.mem q) := by
  simp only [mem_eq_getLsbD, insert, Function.update_apply, eq_iff p q]
  by_cases hw : q / 64 = p / 64
  · rw [if_pos hw, BitVec.getLsbD_or, getLsbD_bit, hw, Bool.or_comm]
    simp
  · simp [hw]

theorem mem_erase (b : WordBitmap) (p q : ℕ) :
    (b.erase p).mem q = (!decide (q = p) && b.mem q) := by
  have hq : q % 64 < 64 := Nat.mod_lt _ (by decide)
  simp only [mem_eq_getLsbD, erase, Function.update_apply, eq_iff p q]
  by_cases hw : q / 64 = p / 64
  · rw [if_pos hw, BitVec.getLsbD_and, BitVec.getLsbD_not, getLsbD_bit, hw, Bool.and_comm]
    simp [hq]
  · simp [hw]

section Count

theorem cpopNatRec_eq_countP {w : ℕ} (x : BitVec w) (n acc : ℕ) :
    x.cpopNatRec n acc = acc + (List.range n).countP x.getLsbD := by
  induction n generalizing acc with
  | zero => simp
  | succ n ih =>
    rw [BitVec.cpopNatRec_succ, ih, List.range_succ, List.countP_append, List.countP_singleton]
    cases x.getLsbD n with
    | false => simp
    | true => simp; omega

theorem toNat_cpop_eq_countP (b : WordBitmap) (k : ℕ) :
    (b k).cpop.toNat = (List.range' (64 * k) 64).countP b.mem := by
  rw [BitVec.toNat_cpop, cpopNatRec_eq_countP, Nat.zero_add, List.range'_eq_map_range,
    List.countP_map]
  refine List.countP_congr fun i hi => ?_
  have hi' : i < 64 := List.mem_range.mp hi
  have hdiv : (64 * k + i) / 64 = k := by omega
  have hmod : (64 * k + i) % 64 = i := by omega
  rw [Function.comp_apply, mem_eq_getLsbD, hdiv, hmod]

/-- The number of members below `64 * n`. -/
theorem sum_cpop (b : WordBitmap) (n : ℕ) :
    ((List.range n).map fun k => (b k).cpop.toNat).sum = (List.range (64 * n)).countP b.mem := by
  induction n with
  | zero => rfl
  | succ n ih =>
    have hsplit : List.range (64 * (n + 1)) = List.range (64 * n) ++ List.range' (64 * n) 64 := by
      have happ := List.range'_append_1 (s := 0) (m := 64 * n) (n := 64)
      rw [Nat.zero_add] at happ
      rw [List.range_eq_range', List.range_eq_range', Nat.mul_succ, happ]
    rw [List.range_succ, List.map_append, List.sum_append, ih, hsplit, List.countP_append,
      List.map_singleton, List.sum_singleton, toNat_cpop_eq_countP]

end Count

section Next

theorem getLsbD_pending (b : WordBitmap) (p i : ℕ) (hi : i < 64) :
    (b.pending p).getLsbD i = ((b (p / 64)).getLsbD i && decide (p % 64 ≤ i)) := by
  have hbits : (∃ j < i, (bit p).getLsbD j = true) ↔ p % 64 < i := by
    simp [getLsbD_bit]
  rw [pending, BitVec.getLsbD_and, BitVec.getLsbD_neg, getLsbD_bit]
  congr 1
  rw [Bool.eq_iff_iff]
  simp only [hi, hbits, decide_true, Bool.true_and, bne_iff_ne, ne_eq, decide_eq_decide,
    decide_eq_true_eq]
  omega

/-- A position of the same word from `p` on. -/
theorem mem_of_le (b : WordBitmap) {p q : ℕ} (hpq : p ≤ q) (hq : q < p / 64 * 64 + 64) :
    b.mem q = (b.pending p).getLsbD (q % 64) := by
  have hdiv : q / 64 = p / 64 := by omega
  have hmod : p % 64 ≤ q % 64 := by omega
  rw [getLsbD_pending _ _ _ (Nat.mod_lt _ (by decide)), mem_eq_getLsbD, hdiv]
  simp [hmod]

theorem pending_eq_zero {b : WordBitmap} {p : ℕ} (h : b.pending p = 0#64) {q : ℕ}
    (hpq : p ≤ q) (hq : q < p / 64 * 64 + 64) : b.mem q = false := by
  rw [b.mem_of_le hpq hq, h, BitVec.getLsbD_zero]

/-- The next member is the lowest bit that is left. -/
theorem pending_ne_zero {b : WordBitmap} {p : ℕ} (h : b.pending p ≠ 0#64) :
    let n := p / 64 * 64 + (b.pending p).ctz.toNat
    p ≤ n ∧ n < p / 64 * 64 + 64 ∧ b.mem n = true ∧ ∀ q, p ≤ q → q < n → b.mem q = false := by
  intro n
  have hbit : (b.pending p).getLsbD (b.pending p).ctz.toNat = true :=
    BitVec.getLsbD_true_ctz_of_ne_zero h
  have hlt : (b.pending p).ctz.toNat < 64 := BitVec.lt_of_getLsbD hbit
  have hpn : p ≤ n := by
    rw [getLsbD_pending _ _ _ hlt, Bool.and_eq_true, decide_eq_true_eq] at hbit
    omega
  have hn : n < p / 64 * 64 + 64 := by omega
  refine ⟨hpn, hn, ?_, fun q hpq hqn => ?_⟩
  · have hmod : n % 64 = (b.pending p).ctz.toNat := by omega
    rw [b.mem_of_le hpn hn, hmod, hbit]
  · have hmod : q % 64 < (b.pending p).ctz.toNat := by omega
    rw [b.mem_of_le hpq (hqn.trans hn), BitVec.getLsbD_false_of_lt_ctz hmod]

end Next

end WordBitmap
