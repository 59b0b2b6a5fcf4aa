/-
The newest element below a bound.

`IsNewestBelow S key b r` says that `r` is the element of the set `S` with the
largest key among those whose key is below `b`, and `none` if there is none.
This is what a snapshot read asks for, in any multi-version store: `S` are the
versions of a record, the key is their commit time and `b` the snapshot.

* `IsNewestBelow.unique` — with distinct keys there is one answer;
* `IsNewestBelow.congr` — only the part of `S` below the bound matters;
* `isNewestBelow_of_split` — in a list with decreasing keys the answer is where
  the keys cross the bound.
-/
import Mathlib.Tactic

section

variable {α κ : Type*} [LinearOrder κ] {S S' : Set α} {key key' : α → κ} {b : κ}

/-- `r` is the element of `S` with the largest key below `b`. -/
def IsNewestBelow (S : Set α) (key : α → κ) (b : κ) : Option α → Prop
  | none => ∀ a ∈ S, b ≤ key a
  | some a => a ∈ S ∧ key a < b ∧ ∀ a' ∈ S, key a' < b → key a' ≤ key a

theorem IsNewestBelow.unique (hinj : Set.InjOn key S) {r r' : Option α}
    (h : IsNewestBelow S key b r) (h' : IsNewestBelow S key b r') : r = r' := by
  match r, r' with
  | none, none => rfl
  | none, some a' => exact absurd (h a' h'.1) (not_le.mpr h'.2.1)
  | some a, none => exact absurd (h' a h.1) (not_le.mpr h.2.1)
  | some a, some a' =>
    have hle := h'.2.2 a h.1 h.2.1
    have hge := h.2.2 a' h'.1 h'.2.1
    rw [hinj h.1 h'.1 (le_antisymm hle hge)]

theorem IsNewestBelow.congr {r : Option α} (h : IsNewestBelow S key b r)
    (hsame : ∀ a, a ∈ S ∧ key a < b ↔ a ∈ S' ∧ key' a < b)
    (hkey : ∀ a ∈ S, key a < b → key' a = key a) : IsNewestBelow S' key' b r := by
  match r with
  | none =>
    intro a ha
    by_contra hlt
    obtain ⟨ha', hlt'⟩ := (hsame a).mpr ⟨ha, not_le.mp hlt⟩
    exact absurd (h a ha') (not_le.mpr hlt')
  | some a =>
    obtain ⟨ha, hlt⟩ := (hsame a).mp ⟨h.1, h.2.1⟩
    refine ⟨ha, hlt, fun a' ha' hlt' => ?_⟩
    obtain ⟨k1, k2⟩ := (hsame a').mpr ⟨ha', hlt'⟩
    rw [hkey a' k1 k2, hkey a h.1 h.2.1]
    exact h.2.2 a' k1 k2

/-- If `S` lies in a list, the elements up to some point are not below the bound
and from there on the keys decrease, the next element is the newest below. -/
theorem isNewestBelow_of_split (pre : List α) {l : List α} (hS : ∀ a ∈ S, a ∈ pre ++ l)
    (hpre : ∀ a ∈ pre, a ∈ S → b ≤ key a) (hl : l.Pairwise fun a a' => key a' < key a)
    (hhead : ∀ a ∈ l.head?, a ∈ S ∧ key a < b) : IsNewestBelow S key b l.head? := by
  have hrest : ∀ a ∈ S, key a < b → a ∈ l := by
    intro a ha hlt
    refine (List.mem_append.mp (hS a ha)).resolve_left fun hin => ?_
    exact absurd (hpre a hin ha) (not_le.mpr hlt)
  cases l with
  | nil =>
    intro a ha
    by_contra hlt
    cases hrest a ha (not_le.mp hlt)
  | cons a l =>
    obtain ⟨ha, hlt⟩ := hhead a rfl
    refine ⟨ha, hlt, fun a' ha' hlt' => ?_⟩
    rcases List.mem_cons.mp (hrest a' ha' hlt') with rfl | hin
    · exact le_rfl
    · exact ((List.pairwise_cons.mp hl).1 a' hin).le

end
