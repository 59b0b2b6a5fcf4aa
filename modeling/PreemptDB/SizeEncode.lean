/-
Size codes (`dbcore/size-encode.cpp`).

The size code of a fat pointer is an 8-bit floating-point-like code of a
number of 16-byte units.  `encodeSizeAligned` finds the code by binary search
in the table of all decoded values.

* `le_decode_encode` — the size that the code decodes to is never below the
  size that was encoded.
-/
import Mathlib.Tactic

namespace PreemptDB

/-- `align_down(val, amount)` for a power of two `amount`. -/
def alignDown (val amount : ℕ) : ℕ := val / amount * amount

/-- `align_up(val, amount)` for a power of two `amount`. -/
def alignUp (val amount : ℕ) : ℕ := alignDown (val + amount - 1) amount

/-- `DEFAULT_ALIGNMENT`. -/
def defaultAlignment : ℕ := 16

theorem le_alignUp {val amount : ℕ} (h : 0 < amount) : val ≤ alignUp val amount := by
  have hmod := Nat.div_add_mod (val + amount - 1) amount
  have hlt := Nat.mod_lt (val + amount - 1) h
  rw [alignUp, alignDown, mul_comm]
  omega

theorem alignDown_le (val amount : ℕ) : alignDown val amount ≤ val := Nat.div_mul_le_self ..

/-- `B(e)`: the bias of an exponent, as `decode_table` holds it. -/
def bias (e : ℕ) : ℕ := 16 - 15 >>> e

/-- `decode_size_helper`. -/
def decodeSizeHelper (code : ℕ) : ℕ :=
  ((code &&& 0x0f) + bias (code >>> 4)) <<< (code >>> 4)

/-- `decode_size`: in the second branch `int8_t(code)` is `code` for small codes
and `-1` for `0xff`, which becomes the largest `size_t`. -/
def decodeSize (code : ℕ) : ℕ :=
  if (code + 1) &&& 0xf0 ≠ 0 then decodeSizeHelper ((code + 0xff) % 2 ^ 8)
  else if code < 0x80 then code else 2 ^ 64 + code - 2 ^ 8

/-- `decode_size_aligned`. -/
def decodeSizeAligned (code : ℕ) : ℕ := (decodeSize code <<< 4) % 2 ^ 64

/-- The binary search loop of `encode_size_aligned`.  The interval `[lo, hi]`
shrinks in every iteration, so `hi - lo` rounds are enough. -/
def searchCode (x : ℕ) : (rounds lo hi : ℕ) → ℕ
  | 0, lo, _ => lo
  | rounds + 1, lo, hi =>
    if lo < hi then
      if x ≤ decodeSize ((lo + hi) / 2) then searchCode x rounds lo ((lo + hi) / 2)
      else searchCode x rounds ((lo + hi) / 2 + 1) hi
    else lo

/-- `encode_size_aligned`: the code, and the new value of `size`. -/
def encodeSizeAligned (size alignBits : ℕ) : ℕ × ℕ :=
  let x := alignDown ((size + 2 ^ alignBits - 1) % 2 ^ 64) (2 ^ alignBits) >>> alignBits
  let code := searchCode x 0xff 0 0xff
  (code, decodeSize code <<< alignBits % 2 ^ 64)

/-- The code for the default alignment. -/
def defaultSizeCode (size : ℕ) : ℕ := (encodeSizeAligned size 4).1

/-- The search returns a code of the interval whose decoded size is large
enough, if the upper end has one. -/
theorem searchCode_spec {x : ℕ} : ∀ {rounds lo hi : ℕ}, hi - lo ≤ rounds → lo ≤ hi →
    x ≤ decodeSize hi → x ≤ decodeSize (searchCode x rounds lo hi) ∧
      searchCode x rounds lo hi ≤ hi := by
  intro rounds
  induction rounds with
  | zero =>
    intro lo hi hr hle hx
    have : lo = hi := by omega
    subst this
    exact ⟨hx, le_rfl⟩
  | succ rounds ih =>
    intro lo hi hr hle hx
    rw [searchCode]
    split_ifs with hlt hmid
    · obtain ⟨h1, h2⟩ := ih (show (lo + hi) / 2 - lo ≤ rounds by omega) (by omega) hmid
      exact ⟨h1, by omega⟩
    · exact ih (by omega) (by omega) hx
    · have : lo = hi := by omega
      subst this
      exact ⟨hx, le_rfl⟩

theorem decodeSize_invalid : decodeSize 0xff = 2 ^ 64 - 1 := by decide

/-- The code found is large enough for the units asked for. -/
theorem defaultSizeCode_spec {size : ℕ} (h : size < 2 ^ 64 - 16) :
    size ≤ decodeSize (defaultSizeCode size) * 16 ∧ defaultSizeCode size < 2 ^ 8 := by
  have hunits : alignDown ((size + 2 ^ 4 - 1) % 2 ^ 64) (2 ^ 4) >>> 4 = (size + 15) / 16 := by
    rw [alignDown, Nat.shiftRight_eq_div_pow]
    omega
  have hx : (size + 15) / 16 ≤ decodeSize 255 := by
    rw [decodeSize_invalid]
    omega
  obtain ⟨h1, h2⟩ := searchCode_spec (show 0xff - 0 ≤ 0xff from le_rfl) (by omega) hx
  rw [defaultSizeCode, encodeSizeAligned, hunits]
  dsimp only
  omega

theorem decodeSize_le {code : ℕ} (h : code < 0xff) : decodeSize code ≤ 950272 := by
  have hall : ∀ c < 0xff, decodeSize c ≤ 950272 := by decide +kernel
  exact hall code h

/-- Encoding rounds up. -/
theorem le_decode_encode {size : ℕ} (h : size < 2 ^ 64 - 16) :
    size ≤ decodeSizeAligned (defaultSizeCode size) := by
  obtain ⟨hle, hlt⟩ := defaultSizeCode_spec h
  rw [decodeSizeAligned, Nat.shiftLeft_eq]
  rcases Nat.lt_or_ge (defaultSizeCode size) 255 with hc | hc
  · have := decodeSize_le hc
    rw [Nat.mod_eq_of_lt (by omega)]
    omega
  · -- the invalid code decodes to `2 ^ 64 - 16` bytes
    have hinv : defaultSizeCode size = 255 := by omega
    rw [hinv, decodeSize_invalid]
    omega

end PreemptDB
