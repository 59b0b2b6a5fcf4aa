/-
Memory-mapped arrays that grow in place (`dynarray.cpp`).

An array reserves its capacity as address space and makes a first part of it accessible.
Sizes are counted in pages of 64 KiB.

* `Dynarray` — the fields, and the protection of each page;
* `Dynarray.make`, `truncate`, `resize`, `ensureSize`;
* `Inv` — the accessible pages are the first ones;
* `ensureSize_ok_iff` — when `ensure_size` does not throw.

`ensure_size` asks for 128 MiB more than it needs, and that is what is compared with the
capacity.
-/
import PreemptDB.StepRun

namespace PreemptDB

/-- The `illegal_argument`s, with the numbers in their messages. -/
inductive DynarrayError
  | capacityTooLarge (capacity : ℕ)
  | capacityZero
  | sizeAboveCapacity (size capacity : ℕ)
  | truncateToLarger
  | resizeToSmaller
  | beyondCapacity (requested possible : ℕ)
  deriving DecidableEq

/-- `_capacity` and `_size` in pages, and which pages are readable and writable. -/
structure Dynarray where
  capacityPages : ℕ
  sizePages : ℕ
  accessible : ℕ → Bool

namespace Dynarray

def pageSize : ℕ := 2 ^ 16

/-- `align_up(n, page_size())` on a `size_t` -/
def alignUp (n : ℕ) : ℕ := (n + pageSize - 1) % 2 ^ 64 / pageSize * pageSize

def maxSize : ℕ := (2 ^ 32 - 1) * pageSize

def size (d : Dynarray) : ℕ := d.sizePages * pageSize

def capacity (d : Dynarray) : ℕ := d.capacityPages * pageSize

/-- `mprotect`, on page boundaries. -/
def mprotect (d : Dynarray) (first last : ℕ) (readable : Bool) : Dynarray :=
  { d with
    accessible := fun p =>
      if first / pageSize ≤ p ∧ p < last / pageSize then readable else d.accessible p }

/-- `_adjust_mapping` -/
def adjustMapping (d : Dynarray) (first last newSize : ℕ) (readable : Bool) :
    Except DynarrayError Dynarray :=
  if d.capacity < newSize then .error (.beyondCapacity newSize d.capacity)
  else if first ≠ last then
    .ok { d.mprotect first last readable with sizePages := newSize / pageSize % 2 ^ 32 }
  else .ok d

/-- The constructor. -/
def make (capacity size : ℕ) : Except DynarrayError Dynarray :=
  let capacity := alignUp capacity
  let size := alignUp size
  if maxSize < capacity then .error (.capacityTooLarge capacity)
  else if capacity = 0 then .error .capacityZero
  else if capacity < size then .error (.sizeAboveCapacity size capacity)
  else
    let d : Dynarray := ⟨capacity / pageSize % 2 ^ 32, 0, fun _ => false⟩
    if size ≠ 0 then d.adjustMapping 0 size size true else .ok d

def truncate (d : Dynarray) (newSize : ℕ) : Except DynarrayError Dynarray :=
  if d.size < alignUp newSize then .error .truncateToLarger
  else d.adjustMapping (alignUp newSize) d.size (alignUp newSize) false

def resize (d : Dynarray) (newSize : ℕ) : Except DynarrayError Dynarray :=
  if alignUp newSize < d.size then .error .resizeToSmaller
  else d.adjustMapping d.size (alignUp newSize) (alignUp newSize) true

def ensureSize (d : Dynarray) (minSize : ℕ) : Except DynarrayError Dynarray :=
  if d.size < alignUp minSize then
    d.resize ((alignUp minSize + 128 * (1024 * 1024)) % 2 ^ 64)
  else .ok d

/-- The calls. -/
inductive Call
  | ensureSize (n : ℕ)
  | resize (n : ℕ)
  | truncate (n : ℕ)

def perform (d : Dynarray) : Call → Except DynarrayError Dynarray
  | .ensureSize n => d.ensureSize n
  | .resize n => d.resize n
  | .truncate n => d.truncate n

/-- A call that throws leaves the array as it is. -/
def step (d : Dynarray) (c : Call) : Option Dynarray := some ((d.perform c).toOption.getD d)

/-- The accessible pages are the first ones. -/
structure Inv (d : Dynarray) : Prop where
  size_le : d.sizePages ≤ d.capacityPages
  capacity_lt : d.capacityPages < 2 ^ 32
  accessible : ∀ p, d.accessible p = true ↔ p < d.sizePages

variable {d d' : Dynarray}

section Align

theorem pageSize_pos : 0 < pageSize := Nat.two_pow_pos 16

theorem alignUp_eq (n : ℕ) : alignUp n = (n + (2 ^ 16 - 1)) % 2 ^ 64 / 2 ^ 16 * 2 ^ 16 := rfl

theorem pageSize_dvd_alignUp (n : ℕ) : pageSize ∣ alignUp n := Dvd.intro_left _ rfl

theorem le_alignUp {n : ℕ} (h : n < 2 ^ 63) : n ≤ alignUp n := by
  rw [alignUp_eq]
  omega

theorem alignUp_le {n k : ℕ} (h : n ≤ k * pageSize) : alignUp n ≤ k * pageSize := by
  rw [pageSize] at h ⊢
  rw [alignUp_eq]
  omega

theorem alignUp_mul {k : ℕ} (h : k * pageSize < 2 ^ 63) :
    alignUp (k * pageSize) = k * pageSize := by
  rw [pageSize] at h ⊢
  rw [alignUp_eq]
  omega

theorem Inv.capacity_lt_pow (h : Inv d) : d.capacity < 2 ^ 48 := by
  have := h.capacity_lt
  rw [capacity, pageSize]
  omega

theorem Inv.size_le_capacity (h : Inv d) : d.size ≤ d.capacity :=
  Nat.mul_le_mul_right _ h.size_le

end Align

section Calls

/-- `_adjust_mapping` from or to the present end makes the array end at `newSize`. -/
theorem Inv.adjustMapping (h : Inv d) {first last k : ℕ} {readable : Bool}
    (hok : d.adjustMapping first last (k * pageSize) readable = .ok d')
    (hgrow : readable = true → first = d.size ∧ last = k * pageSize ∧ d.sizePages ≤ k)
    (hshrink : readable = false → first = k * pageSize ∧ last = d.size ∧ k ≤ d.sizePages) :
    Inv d' ∧ d'.capacityPages = d.capacityPages ∧ d'.sizePages = k := by
  have hpos := pageSize_pos
  have hcap := h.capacity_lt
  rw [Dynarray.adjustMapping] at hok
  obtain ⟨hle, hok⟩ : k ≤ d.capacityPages ∧ _ := by
    by_cases hc : d.capacity < k * pageSize
    · rw [if_pos hc] at hok
      cases hok
    · rw [if_neg hc] at hok
      exact ⟨Nat.le_of_mul_le_mul_right (not_lt.mp hc) hpos, hok⟩
  have hk : k * pageSize / pageSize = k := Nat.mul_div_cancel k hpos
  have hs : d.size / pageSize = d.sizePages := Nat.mul_div_cancel _ hpos
  by_cases hne : first ≠ last
  · rw [if_pos hne] at hok
    cases hok
    have hsize : k * pageSize / pageSize % 2 ^ 32 = k := by
      rw [hk]
      exact Nat.mod_eq_of_lt (hle.trans_lt hcap)
    refine ⟨⟨hsize.trans_le hle, hcap, fun p => ?_⟩, rfl, hsize⟩
    show (if first / pageSize ≤ p ∧ p < last / pageSize then readable else d.accessible p) = true ↔
      p < k * pageSize / pageSize % 2 ^ 32
    rw [hsize]
    have hacc := h.accessible p
    cases readable with
    | true =>
      obtain ⟨rfl, rfl, hle'⟩ := hgrow rfl
      rw [hs, hk]
      split
      next hin => simp only [true_iff]; omega
      next hout => rw [hacc]; omega
    | false =>
      obtain ⟨rfl, rfl, hle'⟩ := hshrink rfl
      rw [hs, hk]
      split
      next hin => simp only [Bool.false_eq_true, false_iff]; omega
      next hout => rw [hacc]; omega
  · rw [if_neg hne] at hok
    cases hok
    refine ⟨h, rfl, ?_⟩
    rw [not_not] at hne
    cases readable with
    | true =>
      obtain ⟨rfl, rfl, -⟩ := hgrow rfl
      exact Nat.eq_of_mul_eq_mul_right hpos hne
    | false =>
      obtain ⟨rfl, rfl, -⟩ := hshrink rfl
      exact (Nat.eq_of_mul_eq_mul_right hpos hne).symm

theorem adjustMapping_isOk_iff {first last newSize : ℕ} {readable : Bool} :
    (∃ d', d.adjustMapping first last newSize readable = .ok d') ↔ newSize ≤ d.capacity := by
  rw [Dynarray.adjustMapping]
  by_cases hc : d.capacity < newSize
  · rw [if_pos hc]
    exact ⟨nofun, fun hle => absurd hc hle.not_gt⟩
  · rw [if_neg hc]
    refine ⟨fun _ => not_lt.mp hc, fun _ => ?_⟩
    split <;> exact ⟨_, rfl⟩

theorem Inv.resize (h : Inv d) {n : ℕ} (hok : d.resize n = .ok d') :
    Inv d' ∧ d'.capacityPages = d.capacityPages ∧ d'.size = alignUp n ∧ d.size ≤ d'.size := by
  obtain ⟨k, hk⟩ := exists_eq_mul_left_of_dvd (pageSize_dvd_alignUp n)
  rw [Dynarray.resize, hk] at hok
  by_cases hc : k * pageSize < d.size
  · rw [if_pos hc] at hok
    cases hok
  · rw [if_neg hc] at hok
    have hle : d.sizePages ≤ k :=
      Nat.le_of_mul_le_mul_right (not_lt.mp hc) pageSize_pos
    obtain ⟨hinv, hcap, hsize⟩ := h.adjustMapping hok (fun _ => ⟨rfl, rfl, hle⟩) nofun
    rw [size, hsize, hk]
    exact ⟨hinv, hcap, rfl, not_lt.mp hc⟩

theorem Inv.truncate (h : Inv d) {n : ℕ} (hok : d.truncate n = .ok d') :
    Inv d' ∧ d'.capacityPages = d.capacityPages ∧ d'.size = alignUp n := by
  obtain ⟨k, hk⟩ := exists_eq_mul_left_of_dvd (pageSize_dvd_alignUp n)
  rw [Dynarray.truncate, hk] at hok
  by_cases hc : d.size < k * pageSize
  · rw [if_pos hc] at hok
    cases hok
  · rw [if_neg hc] at hok
    have hle : k ≤ d.sizePages := Nat.le_of_mul_le_mul_right (not_lt.mp hc) pageSize_pos
    obtain ⟨hinv, hcap, hsize⟩ := h.adjustMapping hok nofun (fun _ => ⟨rfl, rfl, hle⟩)
    rw [size, hsize, hk]
    exact ⟨hinv, hcap, rfl⟩

theorem Inv.truncate_ok (h : Inv d) {n : ℕ} (hn : n ≤ d.size) : ∃ d', d.truncate n = .ok d' := by
  have hle : alignUp n ≤ d.size := alignUp_le hn
  rw [Dynarray.truncate, if_neg (not_lt.mpr hle)]
  exact adjustMapping_isOk_iff.mpr (hle.trans h.size_le_capacity)

/-- `ensure_size` does not shrink the array. -/
theorem Inv.ensureSize (h : Inv d) {n : ℕ} (hok : d.ensureSize n = .ok d') :
    Inv d' ∧ d'.capacityPages = d.capacityPages ∧ d.size ≤ d'.size := by
  rw [Dynarray.ensureSize] at hok
  by_cases hc : d.size < alignUp n
  · rw [if_pos hc] at hok
    obtain ⟨hinv, hcap, -, hle⟩ := h.resize hok
    exact ⟨hinv, hcap, hle⟩
  · rw [if_neg hc] at hok
    cases hok
    exact ⟨h, rfl, le_rfl⟩

/-- What `ensure_size` asks for. -/
theorem Inv.alignUp_request (h : Inv d) {n : ℕ} (hn : n ≤ d.capacity) :
    alignUp ((alignUp n + 128 * (1024 * 1024)) % 2 ^ 64) = alignUp n + 128 * (1024 * 1024) := by
  have hcap := h.capacity_lt_pow
  have hle := alignUp_le hn
  obtain ⟨k, hk⟩ := exists_eq_mul_left_of_dvd (pageSize_dvd_alignUp n)
  have hsum : alignUp n + 128 * (1024 * 1024) = (k + 2048) * pageSize := by
    rw [hk, pageSize]
    omega
  rw [capacity] at hcap
  rw [hsum, Nat.mod_eq_of_lt (by rw [← hsum]; omega), alignUp_mul (by rw [← hsum]; omega)]

/-- `ensure_size` succeeds if there is nothing to do, or if the capacity is 128 MiB away. -/
theorem Inv.ensureSize_ok_iff (h : Inv d) {n : ℕ} (hn : n ≤ d.capacity) :
    (∃ d', d.ensureSize n = .ok d') ↔
      alignUp n ≤ d.size ∨ alignUp n + 128 * (1024 * 1024) ≤ d.capacity := by
  rw [Dynarray.ensureSize]
  by_cases hc : d.size < alignUp n
  · rw [if_pos hc, Dynarray.resize, h.alignUp_request hn, if_neg (by omega),
      adjustMapping_isOk_iff]
    exact ⟨.inr, fun hor => hor.resolve_left (not_le.mpr hc)⟩
  · rw [if_neg hc]
    exact ⟨fun _ => .inl (not_lt.mp hc), fun _ => ⟨d, rfl⟩⟩

theorem Inv.le_size_of_ensureSize (h : Inv d) {n : ℕ} (hn : n ≤ d.capacity)
    (hok : d.ensureSize n = .ok d') : n ≤ d'.size := by
  have hcap := h.capacity_lt_pow
  have hle : n ≤ alignUp n := le_alignUp (by omega)
  rw [Dynarray.ensureSize] at hok
  by_cases hc : d.size < alignUp n
  · rw [if_pos hc] at hok
    obtain ⟨-, -, hsize, -⟩ := h.resize hok
    rw [hsize, h.alignUp_request hn]
    omega
  · rw [if_neg hc] at hok
    cases hok
    omega

end Calls

theorem inv_make {capacity size : ℕ} (hok : make capacity size = .ok d) : Inv d := by
  rw [make] at hok
  dsimp only at hok
  split at hok
  · cases hok
  split at hok
  · cases hok
  split at hok
  · cases hok
  have hempty : Inv ⟨alignUp capacity / pageSize % 2 ^ 32, 0, fun _ => false⟩ :=
    ⟨Nat.zero_le _, Nat.mod_lt _ (by norm_num), fun p => by simp⟩
  split at hok
  · obtain ⟨k, hk⟩ := exists_eq_mul_left_of_dvd (pageSize_dvd_alignUp size)
    rw [hk] at hok
    exact (hempty.adjustMapping hok (fun _ => ⟨(Nat.zero_mul _).symm, rfl, Nat.zero_le _⟩) nofun).1
  · cases hok
    exact hempty

theorem Inv.step {c : Call} (h : Inv d) (hs : d.step c = some d') :
    Inv d' ∧ d'.capacityPages = d.capacityPages := by
  cases hs
  cases hp : d.perform c with
  | error e => exact ⟨h, rfl⟩
  | ok d₁ =>
    show Inv d₁ ∧ d₁.capacityPages = d.capacityPages
    cases c with
    | ensureSize n => exact ⟨(h.ensureSize hp).1, (h.ensureSize hp).2.1⟩
    | resize n => exact ⟨(h.resize hp).1, (h.resize hp).2.1⟩
    | truncate n => exact ⟨(h.truncate hp).1, (h.truncate hp).2.1⟩

/-- After every sequence of calls the accessible region is the first `size()` bytes, and the
size is within the capacity.  A call of `ensure_size` within the capacity does not throw if
and only if the array is large enough already or 128 MiB more are within the capacity; then
the array is large enough, and it has not shrunk. -/
theorem dynarray_grows {capacity size : ℕ} {d₀ : Dynarray} {cs : List Call}
    (hmake : make capacity size = .ok d₀) (hrun : StepRun.run step d₀ cs = some d) :
    pageSize ∣ d.size ∧ d.size ≤ d.capacity ∧ d.capacity = d₀.capacity ∧
      (∀ i, d.accessible (i / pageSize) = true ↔ i < d.size) ∧
      (∀ n d', d.ensureSize n = .ok d' → d.size ≤ d'.size) ∧
      ∀ n ≤ d.capacity,
        ((∃ d', d.ensureSize n = .ok d') ↔
          alignUp n ≤ d.size ∨ alignUp n + 128 * (1024 * 1024) ≤ d.capacity) ∧
        ∀ d', d.ensureSize n = .ok d' → n ≤ d'.size := by
  obtain ⟨h, hcap⟩ : Inv d ∧ d.capacityPages = d₀.capacityPages :=
    StepRun.run_invariant (I := fun d => Inv d ∧ d.capacityPages = d₀.capacityPages)
      (fun hs hi => ⟨(hi.1.step hs).1, (hi.1.step hs).2.trans hi.2⟩) hrun ⟨inv_make hmake, rfl⟩
  refine ⟨Dvd.intro_left _ rfl, h.size_le_capacity, congrArg (· * pageSize) hcap, fun i => ?_,
    fun n d' hok => (h.ensureSize hok).2.2,
    fun n hn => ⟨h.ensureSize_ok_iff hn, fun d' hok => h.le_size_of_ensureSize hn hok⟩⟩
  rw [h.accessible, Nat.div_lt_iff_lt_mul pageSize_pos]
  rfl

/-- An array of 1 GiB grows to more than 64 KiB. -/
theorem dynarray_grows_gib : ∃ d d' : Dynarray, make (2 ^ 30) 0 = .ok d ∧
    d.ensureSize 65537 = .ok d' ∧ 65537 ≤ d'.size := by
  obtain ⟨d, hd, hcap, hsize⟩ : ∃ d, make (2 ^ 30) 0 = .ok d ∧ d.capacity = 2 ^ 30 ∧ d.size = 0 :=
    ⟨_, rfl, rfl, rfl⟩
  have halign : alignUp 65537 = 131072 := by decide
  obtain ⟨-, -, -, -, -, hensure⟩ := dynarray_grows hd (StepRun.run_nil d)
  obtain ⟨hiff, hle⟩ := hensure 65537 (by rw [hcap]; norm_num)
  obtain ⟨d', hd'⟩ := hiff.mpr (.inr (by rw [hcap, halign]; norm_num))
  exact ⟨d, d', hd, hd', hle d' hd'⟩

/-- An array of 128 MiB cannot grow to one byte. -/
theorem ensureSize_throws : ∃ d : Dynarray, make (128 * (1024 * 1024)) 0 = .ok d ∧
    1 ≤ d.capacity ∧ d.ensureSize 1 = .error (.beyondCapacity 134283264 134217728) := by
  refine ⟨⟨2048, 0, fun _ => false⟩, rfl, by decide, rfl⟩

end Dynarray

end PreemptDB
