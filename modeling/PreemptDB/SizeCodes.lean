/-
Size codes (`size-encode.cpp`).

A size is encoded in eight bits with an exponent and a mantissa of four bits each, and the
code is rounded up.  `encode_size` computes the code with shifts and counted leading zeros;
`encode_size_aligned` looks it up in the table of all decoded codes.

* `encodeSize`, `encodeSizeAligned` — the two encoders, the second for every alignment;
* `isLeast_encodeSize` — the code of a size is the least that decodes to enough;
* `searchCode_isLeast` — the binary search;
* `size_codes` — both encoders.
-/
import PreemptDB.SizeEncode

namespace PreemptDB

namespace SizeCode

/-- `EFIRST` and `ELAST`: the smallest and the largest size with an exponent. -/
def eFirst (x : ℕ) : ℕ := decodeSizeHelper (x <<< 4)

def eLast (x : ℕ) : ℕ := if x = 15 then decodeSize 0xfe else decodeSizeHelper (x <<< 4 + 0xf)

/-- `__builtin_clz`, on a number of 32 bits that is not zero. -/
def clz (n : ℕ) : ℕ := 31 - Nat.log2 (n % 2 ^ 32)

/-- `doit` -/
def encodeWith (sz e : ℕ) : ℕ :=
  let sz := sz + (1 <<< e - 1)
  let b := bias e
  let m := sz >>> e % 2 ^ 8
  (e <<< 4 + m - b + 1) % 2 ^ 8

/-- The pattern for large values: round up, and normalise again if that carries. -/
def encodeLarge (sz : ℕ) : ℕ :=
  let e := 27 - clz sz
  let sz := sz + (1 <<< e - 1)
  let e := 27 - clz sz
  let m := sz >>> e - 16
  (e <<< 4 + m + 1) % 2 ^ 8

def encodeSize (sz : ℕ) : ℕ :=
  if sz ≤ eLast 2 then
    if sz ≤ eLast 1 then
      if sz < eFirst 1 then sz else encodeWith sz 1
    else if sz ≤ eFirst 2 then 2 <<< 4 + 1
    else encodeWith sz 2
  else if sz ≤ eLast 3 then
    if sz ≤ eFirst 3 then 3 <<< 4 + 1 else encodeWith sz 3
  else if sz ≤ eFirst 4 then 4 <<< 4 + 1
  else if sz ≤ eLast 15 then encodeLarge sz
  else 0xff

section Decode

theorem decodeSize_lt_succ : ∀ c < 0xfe, decodeSize c < decodeSize (c + 1) := by decide +kernel

theorem decodeSize_max : decodeSize 0xfe = 950272 := by decide

/-- The codes are ordered as the sizes. -/
theorem decodeSize_lt {c c' : ℕ} (hlt : c < c') (hle : c' ≤ 0xfe) :
    decodeSize c < decodeSize c' := by
  induction c', hlt using Nat.le_induction with
  | base => exact decodeSize_lt_succ c hle
  | succ k _ ih => exact (ih (by omega)).trans (decodeSize_lt_succ k hle)

/-- Codes with an exponent of at least four. -/
theorem decodeSize_large : ∀ e ≤ 15, 4 ≤ e → ∀ m ≤ 15, e <<< 4 + m + 1 ≤ 0xfe →
    decodeSize (e <<< 4 + m + 1) = (16 + m) * 2 ^ e := by decide +kernel

end Decode

section Encode

/-- `c` is the code of `sz`: it decodes to enough, and the code before does not. -/
def IsCode (sz c : ℕ) : Prop := c ≤ 0xfe ∧ sz ≤ decodeSize c ∧ (c = 0 ∨ decodeSize (c - 1) < sz)

instance (sz c : ℕ) : Decidable (IsCode sz c) := inferInstanceAs (Decidable (_ ∧ _ ∧ _))

theorem isCode_small : ∀ sz ≤ 256, IsCode sz (encodeSize sz) := by decide +kernel

theorem clz_eq {n p : ℕ} (hp : p ≤ 31) (hle : 2 ^ p ≤ n) (hlt : n < 2 ^ (p + 1)) :
    clz n = 31 - p := by
  have hpow : 2 ^ (p + 1) ≤ 2 ^ 32 := Nat.pow_le_pow_right (by norm_num) (by omega)
  rw [clz, Nat.mod_eq_of_lt (hlt.trans_le hpow)]
  have hlog : Nat.log2 n = p :=
    (Nat.log2_eq_iff (by have := Nat.two_pow_pos p; omega)).mpr ⟨hle, hlt⟩
  rw [hlog]

/-- The code for a mantissa and an exponent of a large size. -/
theorem isCode_mantissa {sz e m : ℕ} (he : 4 ≤ e) (he' : e ≤ 15) (hm : m ≤ 15)
    (hcode : e <<< 4 + m + 1 ≤ 0xfe) (hle : sz ≤ (16 + m) * 2 ^ e)
    (hgt : (16 + m) * 2 ^ e < sz + 2 ^ e) (hlarge : 256 < sz)
    (hzero : m = 0 → 31 * 2 ^ e < 2 * sz) : IsCode sz (e <<< 4 + m + 1) := by
  refine ⟨hcode, by rwa [decodeSize_large e he' he m hm hcode], .inr ?_⟩
  rw [Nat.add_sub_cancel]
  rcases Nat.eq_zero_or_pos m with rfl | hpos
  · -- the code before has a smaller exponent
    rcases Nat.eq_or_lt_of_le he with rfl | hlt
    · exact (show decodeSize (4 <<< 4 + 0) ≤ 256 by decide).trans_lt hlarge
    · obtain ⟨k, rfl⟩ : ∃ k, e = k + 1 := ⟨e - 1, by omega⟩
      have hprev := decodeSize_large k (by omega) (by omega) 15 le_rfl
        (by rw [Nat.shiftLeft_eq] at hcode ⊢; omega)
      have hsame : (k + 1) <<< 4 + 0 = k <<< 4 + 15 + 1 := by
        rw [Nat.shiftLeft_eq, Nat.shiftLeft_eq]
        omega
      have hpow := hzero rfl
      rw [Nat.pow_succ] at hpow
      rw [hsame, hprev]
      omega
  · obtain ⟨j, rfl⟩ : ∃ j, m = j + 1 := ⟨m - 1, by omega⟩
    rw [← Nat.add_assoc, decodeSize_large e he' he j (by omega) (by omega)]
    have hmul : (16 + (j + 1)) * 2 ^ e = (16 + j) * 2 ^ e + 2 ^ e := by ring
    omega

/-- With `q` the unit of the exponent, `sz` is rounded up to a multiple of `q`. -/
theorem isCode_large {sz : ℕ} (hlarge : 256 < sz) (hmax : sz ≤ 950272) :
    IsCode sz (encodeLarge sz) := by
  obtain ⟨p, hle, hlt⟩ : ∃ p, 2 ^ p ≤ sz ∧ sz < 2 ^ (p + 1) :=
    ⟨Nat.log2 sz, (Nat.log2_eq_iff (by omega)).mp rfl⟩
  have hp : 8 ≤ p := by
    by_contra hc
    have hpow : 2 ^ (p + 1) ≤ 2 ^ 8 := Nat.pow_le_pow_right (by norm_num) (by omega)
    omega
  have hp' : p ≤ 19 := by
    by_contra hc
    have hpow : 2 ^ 20 ≤ 2 ^ p := Nat.pow_le_pow_right (by norm_num) (by omega)
    omega
  obtain ⟨e, rfl⟩ : ∃ e, p = e + 4 := ⟨p - 4, by omega⟩
  have hpos := Nat.two_pow_pos e
  have hfirst : 2 ^ (e + 4) = 16 * 2 ^ e := by rw [Nat.pow_add, Nat.mul_comm]
  have hlast : 2 ^ (e + 4 + 1) = 32 * 2 ^ e := by rw [Nat.pow_add, Nat.pow_add]; ring
  have hclz : 27 - clz sz = e := by
    rw [clz_eq (by omega) hle hlt]
    omega
  rw [encodeLarge]
  simp only [hclz]
  rw [show 1 <<< e = 2 ^ e by rw [Nat.shiftLeft_eq, Nat.one_mul]]
  set q := 2 ^ e with hq
  rw [hfirst] at hle
  rw [hlast] at hlt
  -- for the largest exponent only some mantissas are left
  have htop : e = 15 → sz ≤ 29 * q := by
    rintro rfl
    rw [hq]
    omega
  rcases Nat.lt_or_ge (sz + (q - 1)) (32 * q) with hsame | hcarry
  · have hclz' : 27 - clz (sz + (q - 1)) = e := by
      rw [clz_eq (p := e + 4) (by omega) (by rw [hfirst]; omega) (by rw [hlast]; exact hsame)]
      omega
    obtain ⟨k, hk⟩ : ∃ k, (sz + (q - 1)) / q = k := ⟨_, rfl⟩
    have hdiv := Nat.div_add_mod (sz + (q - 1)) q
    have hmod := Nat.mod_lt (sz + (q - 1)) hpos
    have hk16 : 16 ≤ k := by
      rw [← hk, Nat.le_div_iff_mul_le hpos]
      omega
    have hk31 : k < 32 := by
      rw [← hk, Nat.div_lt_iff_lt_mul hpos]
      exact hsame
    rw [hk] at hdiv
    have htop' : e = 15 → k ≤ 29 := by
      intro he
      have hle29 := htop he
      rw [← Nat.lt_succ_iff, ← hk, Nat.div_lt_iff_lt_mul hpos]
      omega
    have hshift : (sz + (q - 1)) >>> e = k := by rw [Nat.shiftRight_eq_div_pow, hk]
    obtain ⟨m, rfl⟩ : ∃ m, k = 16 + m := ⟨k - 16, by omega⟩
    rw [Nat.mul_comm] at hdiv
    have hcode : e <<< 4 + m + 1 ≤ 0xfe := by
      rw [Nat.shiftLeft_eq]
      omega
    rw [hclz', hshift, Nat.add_sub_cancel_left, Nat.mod_eq_of_lt (by omega)]
    refine isCode_mantissa (by omega) (by omega) (by omega) hcode ?_ ?_ hlarge ?_
    · rw [← hq]
      omega
    · rw [← hq]
      omega
    · rintro rfl
      rw [← hq]
      omega
  · -- rounding up carries into the exponent
    have he : e ≤ 14 := by
      by_contra hc
      have := htop (by omega)
      omega
    have hclz' : 27 - clz (sz + (q - 1)) = e + 1 := by
      rw [clz_eq (p := e + 4 + 1) (by omega) (by rw [hlast]; exact hcarry)
        (by rw [Nat.pow_succ, hlast]; omega)]
      omega
    have hpow : 2 ^ (e + 1) = 2 * q := by rw [Nat.pow_succ, Nat.mul_comm]
    have hshift : (sz + (q - 1)) >>> (e + 1) = 16 := by
      rw [Nat.shiftRight_eq_div_pow, hpow]
      exact Nat.div_eq_of_lt_le (by omega) (by omega)
    have hcode : (e + 1) <<< 4 + 0 + 1 ≤ 0xfe := by
      rw [Nat.shiftLeft_eq]
      omega
    rw [hclz', hshift, Nat.sub_self, Nat.mod_eq_of_lt (by omega)]
    refine isCode_mantissa (by omega) (by omega) (Nat.zero_le _) hcode ?_ ?_ hlarge fun _ => ?_
    all_goals
      rw [hpow]
      omega

theorem isCode_encodeSize {sz : ℕ} (hmax : sz ≤ 950272) : IsCode sz (encodeSize sz) := by
  rcases Nat.lt_or_ge 256 sz with hlarge | hsmall
  · have h2 : eLast 2 = 112 := by decide
    have h3 : eLast 3 = 240 := by decide
    have h4 : eFirst 4 = 256 := by decide
    have h15 : eLast 15 = 950272 := by decide
    rw [encodeSize, h2, h3, h4, h15, if_neg (by omega), if_neg (by omega), if_neg (by omega),
      if_pos hmax]
    exact isCode_large hlarge hmax
  · exact isCode_small sz hsmall

theorem encodeSize_of_gt {sz : ℕ} (h : 950272 < sz) : encodeSize sz = 0xff := by
  have h2 : eLast 2 = 112 := by decide
  have h3 : eLast 3 = 240 := by decide
  have h4 : eFirst 4 = 256 := by decide
  have h15 : eLast 15 = 950272 := by decide
  rw [encodeSize, h2, h3, h4, h15, if_neg (by omega), if_neg (by omega), if_neg (by omega),
    if_neg (by omega)]

theorem IsCode.isLeast {sz c : ℕ} (h : IsCode sz c) :
    IsLeast {c | c ≤ 0xfe ∧ sz ≤ decodeSize c} c := by
  obtain ⟨hle, hsz, hprev⟩ := h
  refine ⟨⟨hle, hsz⟩, fun c' hc' => ?_⟩
  by_contra hlt
  rcases hprev with rfl | hprev
  · exact hlt (Nat.zero_le c')
  · rcases Nat.lt_or_eq_of_le (show c' ≤ c - 1 by omega) with hlt' | rfl
    · exact absurd (hc'.2.trans (decodeSize_lt hlt' (by omega)).le) (not_le.mpr hprev)
    · exact absurd hc'.2 (not_le.mpr hprev)

theorem isLeast_encodeSize {sz : ℕ} (hmax : sz ≤ 950272) :
    IsLeast {c | c ≤ 0xfe ∧ sz ≤ decodeSize c} (encodeSize sz) :=
  (isCode_encodeSize hmax).isLeast

theorem encodeSize_le (sz : ℕ) : encodeSize sz ≤ 0xff := by
  rcases Nat.lt_or_ge 950272 sz with h | h
  · exact (encodeSize_of_gt h).le
  · exact (isLeast_encodeSize h).1.1.trans (by norm_num)

theorem encodeSize_mono {a b : ℕ} (h : a ≤ b) : encodeSize a ≤ encodeSize b := by
  rcases Nat.lt_or_ge 950272 b with hb | hb
  · rw [encodeSize_of_gt hb]
    exact encodeSize_le a
  · obtain ⟨hle, hsz⟩ := (isLeast_encodeSize hb).1
    exact (isLeast_encodeSize (h.trans hb)).2 ⟨hle, h.trans hsz⟩

theorem encodeSize_decodeSize {c : ℕ} (hc : c ≤ 0xfe) : encodeSize (decodeSize c) = c := by
  have hleast := isLeast_encodeSize (decodeSize_le (Nat.lt_succ_of_le hc))
  refine Nat.le_antisymm (hleast.2 ⟨hc, le_rfl⟩) ?_
  by_contra hlt
  exact absurd hleast.1.2 (not_le.mpr (decodeSize_lt (not_le.mp hlt) hc))

end Encode

section Search

/-- What is below `lo` is too small, and `hi` is enough unless it is the last code. -/
theorem searchCode_isLeast {x rounds lo hi : ℕ} (hrounds : hi - lo ≤ rounds) (hle : lo ≤ hi)
    (hhi : hi ≤ 0xff) (hlow : ∀ c < lo, decodeSize c < x) (hhigh : hi ≤ 0xfe → x ≤ decodeSize hi) :
    searchCode x rounds lo hi ≤ hi ∧ (∀ c < searchCode x rounds lo hi, decodeSize c < x) ∧
      (searchCode x rounds lo hi ≤ 0xfe → x ≤ decodeSize (searchCode x rounds lo hi)) := by
  induction rounds generalizing lo hi with
  | zero =>
    obtain rfl : lo = hi := by omega
    exact ⟨le_rfl, hlow, hhigh⟩
  | succ rounds ih =>
    rw [searchCode]
    split_ifs with hlt hx
    · obtain ⟨hr, hrest⟩ := ih (show (lo + hi) / 2 - lo ≤ rounds by omega) (by omega) (by omega)
        hlow fun _ => hx
      exact ⟨by omega, hrest⟩
    · refine ih (by omega) (by omega) hhi (fun c hc => ?_) hhigh
      rcases Nat.lt_or_eq_of_le (Nat.lt_succ_iff.mp hc) with hc | rfl
      · exact (decodeSize_lt hc (by omega)).trans (not_le.mp hx)
      · exact not_le.mp hx
    · obtain rfl : lo = hi := by omega
      exact ⟨le_rfl, hlow, hhigh⟩

/-- The two encoders agree. -/
theorem searchCode_eq_encodeSize (x : ℕ) : searchCode x 0xff 0 0xff = encodeSize x := by
  obtain ⟨hle, hlow, hhigh⟩ := searchCode_isLeast (x := x)
    (show 0xff - 0 ≤ 0xff from le_rfl) (by norm_num) le_rfl nofun nofun
  rcases Nat.lt_or_ge 950272 x with hx | hx
  · rw [encodeSize_of_gt hx]
    by_contra hne
    have hle' : searchCode x 0xff 0 0xff ≤ 0xfe := by omega
    exact absurd ((hhigh hle').trans (decodeSize_le (Nat.lt_succ_of_le hle'))) (not_le.mpr hx)
  · have hleast := isLeast_encodeSize hx
    have hle' : searchCode x 0xff 0 0xff ≤ encodeSize x := by
      by_contra hlt
      exact absurd hleast.1.2 (not_le.mpr (hlow _ (not_le.mp hlt)))
    exact Nat.le_antisymm hle' (hleast.2 ⟨hle'.trans hleast.1.1, hhigh (hle'.trans hleast.1.1)⟩)

theorem encodeSizeAligned_eq {size alignBits : ℕ} (h : size + 2 ^ alignBits < 2 ^ 64) :
    encodeSizeAligned size alignBits = (encodeSize ((size + 2 ^ alignBits - 1) / 2 ^ alignBits),
      decodeSize (encodeSize ((size + 2 ^ alignBits - 1) / 2 ^ alignBits)) * 2 ^ alignBits %
        2 ^ 64) := by
  have hpos := Nat.two_pow_pos alignBits
  rw [encodeSizeAligned, Nat.mod_eq_of_lt (by omega), alignDown, Nat.shiftRight_eq_div_pow,
    Nat.mul_div_cancel _ hpos, searchCode_eq_encodeSize, Nat.shiftLeft_eq]

/-- A quotient rounded up. -/
theorem div_le_iff_le_mul {n q d : ℕ} (hq : 0 < q) : (n + q - 1) / q ≤ d ↔ n ≤ d * q := by
  rw [← Nat.lt_succ_iff, Nat.div_lt_iff_lt_mul hq, Nat.succ_mul]
  omega

end Search

/-- The codes are exact ceilings, and the two encoders agree. -/
theorem size_codes :
    (∀ sz ≤ 950272, IsLeast {c | c ≤ 0xfe ∧ sz ≤ decodeSize c} (encodeSize sz)) ∧
      (∀ c ≤ 0xfe, encodeSize (decodeSize c) = c) ∧
      (∀ a b, a ≤ b → encodeSize a ≤ encodeSize b) ∧
      (∀ sz, 950272 < sz → encodeSize sz = 0xff) ∧
      ∀ alignBits < 31, ∀ size, size + 2 ^ alignBits < 2 ^ 64 →
        ((∃ c ≤ 0xfe, size ≤ decodeSize c * 2 ^ alignBits) →
          IsLeast {c | c ≤ 0xfe ∧ size ≤ decodeSize c * 2 ^ alignBits}
            (encodeSizeAligned size alignBits).1 ∧
          (encodeSizeAligned size alignBits).2 =
            decodeSize (encodeSizeAligned size alignBits).1 * 2 ^ alignBits) ∧
        ((¬ ∃ c ≤ 0xfe, size ≤ decodeSize c * 2 ^ alignBits) →
          (encodeSizeAligned size alignBits).1 = 0xff) ∧
        (encodeSizeAligned size alignBits).1 =
          encodeSize ((size + 2 ^ alignBits - 1) / 2 ^ alignBits) := by
  refine ⟨fun sz => isLeast_encodeSize, fun c => encodeSize_decodeSize, fun a b => encodeSize_mono,
    fun sz => encodeSize_of_gt, fun alignBits hbits size hsize => ?_⟩
  have hpos := Nat.two_pow_pos alignBits
  rw [encodeSizeAligned_eq hsize]
  simp only [← div_le_iff_le_mul hpos]
  set x := (size + 2 ^ alignBits - 1) / 2 ^ alignBits
  refine ⟨?_, fun hnone => encodeSize_of_gt ?_, trivial⟩
  · rintro ⟨c, hc, hx⟩
    have hleast := isLeast_encodeSize (hx.trans (decodeSize_le (Nat.lt_succ_of_le hc)))
    refine ⟨hleast, Nat.mod_eq_of_lt ?_⟩
    calc decodeSize (encodeSize x) * 2 ^ alignBits
        ≤ 950272 * 2 ^ 30 := Nat.mul_le_mul (decodeSize_le (Nat.lt_succ_of_le hleast.1.1))
          (Nat.pow_le_pow_right (by norm_num) (by omega))
      _ < 2 ^ 64 := by norm_num
  · by_contra hle
    exact hnone ⟨0xfe, le_rfl, (not_lt.mp hle).trans decodeSize_max.ge⟩

end SizeCode

end PreemptDB
