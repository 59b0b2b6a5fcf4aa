/-
Tables of file descriptors.

A descriptor is a position in the table; a new file gets the lowest one that is
free, and a closed one is free again.

* `get_insert_self`, `get_insert_of_ne` — what opening changes;
* `get_closeAll` — what closing a list of descriptors changes.
-/
import Mathlib.Tactic

/-- The open files of a process, by descriptor. -/
structure FdTable (α : Type*) where
  slots : List (Option α)
  deriving DecidableEq

namespace FdTable

variable {α : Type*}

/-- The file behind a descriptor, if it is open. -/
def get (t : FdTable α) (fd : ℕ) : Option α := t.slots[fd]?.join

/-- The lowest free descriptor. -/
def lowest (t : FdTable α) : ℕ := t.slots.findIdx Option.isNone

/-- A file is opened at the lowest free descriptor. -/
def insert (t : FdTable α) (f : α) : FdTable α :=
  if t.lowest < t.slots.length then ⟨t.slots.set t.lowest (some f)⟩ else ⟨t.slots ++ [some f]⟩

def close (t : FdTable α) (fd : ℕ) : FdTable α := ⟨t.slots.set fd none⟩

def closeAll (t : FdTable α) (fds : List ℕ) : FdTable α := fds.foldl close t

theorem lowest_eq_length {t : FdTable α} (h : ¬ t.lowest < t.slots.length) :
    t.lowest = t.slots.length :=
  Nat.le_antisymm List.findIdx_le_length (Nat.not_lt.mp h)

theorem get_lowest (t : FdTable α) : t.get t.lowest = none := by
  rw [get]
  by_cases h : t.lowest < t.slots.length
  · have hnone := List.findIdx_getElem (w := h)
    rw [List.getElem?_eq_getElem h, Option.join_some]
    exact Option.isNone_iff_eq_none.mp hnone
  · rw [List.getElem?_eq_none (Nat.not_lt.mp h)]
    rfl

theorem get_insert_self (t : FdTable α) (f : α) : (t.insert f).get t.lowest = some f := by
  rw [insert, get]
  split
  · next h => rw [List.getElem?_set_self h, Option.join_some]
  · next h => rw [lowest_eq_length h, List.getElem?_concat_length, Option.join_some]

theorem get_insert_of_ne (t : FdTable α) (f : α) {fd : ℕ} (h : fd ≠ t.lowest) :
    (t.insert f).get fd = t.get fd := by
  rw [insert, get, get]
  split
  · rw [List.getElem?_set_ne (Ne.symm h)]
  · next hlow =>
    rw [lowest_eq_length hlow] at h
    by_cases hlt : fd < t.slots.length
    · rw [List.getElem?_append_left hlt]
    · rw [List.getElem?_eq_none (Nat.not_lt.mp hlt), List.getElem?_eq_none]
      rw [List.length_append, List.length_singleton]
      omega

theorem get_close_self (t : FdTable α) (fd : ℕ) : (t.close fd).get fd = none := by
  rw [close, get]
  by_cases h : fd < t.slots.length
  · rw [List.getElem?_set_self h]
    rfl
  · rw [List.getElem?_eq_none (by rw [List.length_set]; omega)]
    rfl

theorem get_close_of_ne (t : FdTable α) {fd fd' : ℕ} (h : fd ≠ fd') :
    (t.close fd').get fd = t.get fd := by
  rw [close, get, List.getElem?_set_ne (Ne.symm h), get]

theorem get_closeAll (t : FdTable α) (fds : List ℕ) (fd : ℕ) :
    (t.closeAll fds).get fd = if fd ∈ fds then none else t.get fd := by
  induction fds generalizing t with
  | nil => rfl
  | cons fd' fds ih =>
    rw [closeAll, List.foldl_cons, ← closeAll, ih]
    by_cases hmem : fd ∈ fds
    · rw [if_pos hmem, if_pos (List.mem_cons_of_mem _ hmem)]
    · rw [if_neg hmem]
      by_cases heq : fd = fd'
      · rw [heq, get_close_self, if_pos List.mem_cons_self]
      · rw [get_close_of_ne t heq, if_neg (List.not_mem_cons_of_ne_of_not_mem heq hmem)]

end FdTable
