/-
The order of byte strings.

Byte strings are ordered lexicographically.  Among strings of one length this is the order of
the numbers that they stand for with the most significant byte first.

* `append_lt_append_iff` — strings that start with parts of the same length;
* `lt_iff_beValue_lt` — the order of strings of one length is that of their values.
-/
import PreemptDB.ByteMem
import Mathlib.Data.List.Lex
import Mathlib.Tactic

namespace ByteOrder

open ByteMem

instance linearOrderUInt8 : LinearOrder UInt8 where
  le_refl a := UInt8.le_refl a
  le_trans _ _ _ := UInt8.le_trans
  le_antisymm _ _ := UInt8.le_antisymm
  le_total a b := UInt8.le_total a b
  lt_iff_le_not_ge a b := by
    rw [UInt8.lt_iff_toNat_lt, UInt8.le_iff_toNat_le, UInt8.le_iff_toNat_le]
    omega
  toDecidableLE := inferInstance
  toDecidableLT := inferInstance
  toDecidableEq := inferInstance

section Lists

variable {α : Type*} [LinearOrder α]

theorem append_lt_append_iff {a b s t : List α} (h : a.length = b.length) :
    a ++ s < b ++ t ↔ a < b ∨ a = b ∧ s < t := by
  induction a generalizing b with
  | nil =>
    obtain rfl : b = [] := List.length_eq_zero_iff.mp h.symm
    simp
  | cons x a ih =>
    obtain ⟨y, b, rfl⟩ := List.exists_cons_of_length_eq_add_one h.symm
    rw [List.cons_append, List.cons_append, List.cons_lt_cons_iff, List.cons_lt_cons_iff,
      ih (by simpa using h), List.cons.injEq]
    tauto

end Lists

/-- The number that bytes stand for, the most significant one first. -/
def beValue : List UInt8 → ℕ
  | [] => 0
  | b :: bs => b.toNat * 256 ^ bs.length + beValue bs

theorem beValue_lt (bs : List UInt8) : beValue bs < 256 ^ bs.length := by
  induction bs with
  | nil => simp [beValue]
  | cons b bs ih =>
    have hb : b.toNat + 1 ≤ 256 := b.toNat_lt
    calc b.toNat * 256 ^ bs.length + beValue bs
        < (b.toNat + 1) * 256 ^ bs.length := by rw [Nat.succ_mul]; omega
      _ ≤ 256 * 256 ^ bs.length := Nat.mul_le_mul_right _ hb
      _ = 256 ^ (b :: bs).length := by rw [List.length_cons, Nat.pow_succ']

theorem beValue_append_singleton (bs : List UInt8) (b : UInt8) :
    beValue (bs ++ [b]) = 256 * beValue bs + b.toNat := by
  induction bs with
  | nil => simp [beValue]
  | cons c bs ih =>
    rw [List.cons_append, beValue, ih, beValue, List.length_append, List.length_singleton,
      Nat.pow_succ']
    ring

theorem beValue_reverse (bs : List UInt8) : beValue bs.reverse = leValue bs := by
  induction bs with
  | nil => rfl
  | cons b bs ih =>
    rw [List.reverse_cons, beValue_append_singleton, ih, leValue]
    ring

/-- The first byte decides unless it is the same in both. -/
theorem lt_iff_beValue_lt {a b : List UInt8} (h : a.length = b.length) :
    a < b ↔ beValue a < beValue b := by
  induction a generalizing b with
  | nil =>
    obtain rfl : b = [] := List.length_eq_zero_iff.mp h.symm
    simp
  | cons x a ih =>
    obtain ⟨y, b, rfl⟩ := List.exists_cons_of_length_eq_add_one h.symm
    have hlen : a.length = b.length := by simpa using h
    have ha := beValue_lt a
    have hb := beValue_lt b
    rw [List.cons_lt_cons_iff, ih hlen, beValue, beValue, hlen]
    rw [hlen] at ha
    rcases lt_trichotomy x y with hlt | rfl | hgt
    · have hmul : (x.toNat + 1) * 256 ^ b.length ≤ y.toNat * 256 ^ b.length :=
        Nat.mul_le_mul_right _ (UInt8.lt_iff_toNat_lt.mp hlt)
      rw [Nat.succ_mul] at hmul
      simp only [hlt, true_or, true_iff]
      omega
    · simp
    · have hmul : (y.toNat + 1) * 256 ^ b.length ≤ x.toNat * 256 ^ b.length :=
        Nat.mul_le_mul_right _ (UInt8.lt_iff_toNat_lt.mp hgt)
      rw [Nat.succ_mul] at hmul
      simp only [hgt.not_gt, hgt.ne', false_and, or_self, false_iff]
      omega

end ByteOrder
