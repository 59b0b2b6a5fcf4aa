/-
Fat pointers (`dbcore/sm-common.h`).

A `fat_ptr` is a 64-bit word: 48 bits of value, one dirty bit, a 7-bit address
space identifier (ASI) and an 8-bit size code.  Commit sequence numbers and log
addresses are stored in such words, so only their low 48 bits survive:

* `CSN.make_offset` — a CSN read back from its word is the CSN modulo `2 ^ 48`;
* `LSN.toPtr_word` — the word of an encodable log address, as a sum of fields;
* `LSN.from_toPtr` — such an address is read back unchanged.
-/
import Mathlib.Tactic

namespace PreemptDB

/-- A `fat_ptr`, as its 64-bit word. -/
structure FatPtr where
  word : ℕ
  deriving DecidableEq, Repr

/-- The value of `INVALID_SIZE_CODE`. -/
def invalidSizeCode : ℕ := 0xff

namespace FatPtr

/-- `NULL_PTR`. -/
def null : FatPtr := ⟨0⟩

/-- `ASI_LOG`, `ASI_CSN`. -/
def asiLog : ℕ := 0x10
@[inherit_doc asiLog] def asiCsn : ℕ := 0x60

def offset (p : FatPtr) : ℕ := p.word >>> 16

def sizeCode (p : FatPtr) : ℕ := p.word &&& 0xff

def asi (p : FatPtr) : ℕ := (p.word >>> 8) &&& 0x7f

def asiType (p : FatPtr) : ℕ := p.asi &&& 0xfff0

def asiSegment (p : FatPtr) : ℕ := p.asi &&& 0x0f

end FatPtr

namespace CSN

/-- Number of value bits of a `fat_ptr`, as the number of CSNs they tell apart. -/
def limit : ℕ := 2 ^ 48

/-- `CSN::make(c).to_ptr()`: the shift by `VALUE_START_BIT` drops the upper bits of `c`. -/
def make (c : ℕ) : FatPtr :=
  ⟨((c <<< 16) % 2 ^ 64 ||| FatPtr.asiCsn <<< 8) ||| invalidSizeCode⟩

theorem make_word (c : ℕ) : (make c).word = (c % limit) * 2 ^ 16 + 0x60ff := by
  have hmod : (c <<< 16) % 2 ^ 64 = 2 ^ 16 * (c % limit) := by
    rw [Nat.shiftLeft_eq, limit]
    omega
  have hor : 2 ^ 16 * (c % limit) + 0x60ff = 2 ^ 16 * (c % limit) ||| 0x60ff :=
    Nat.two_pow_add_eq_or_of_lt (by norm_num) _
  rw [make, hmod, Nat.or_assoc, mul_comm (c % limit), hor]
  rfl

/-- A CSN read back from its fat pointer is the CSN modulo `2 ^ 48`. -/
theorem make_offset (c : ℕ) : (make c).offset = c % limit := by
  rw [FatPtr.offset, make_word, Nat.shiftRight_eq_div_pow]
  omega

theorem make_asiType (c : ℕ) : (make c).asiType = FatPtr.asiCsn := by
  have h : (make c).asi = 0x60 := by
    rw [FatPtr.asi, make_word, Nat.shiftRight_eq_div_pow,
      show (0x7f : ℕ) = 2 ^ 7 - 1 from rfl, Nat.and_two_pow_sub_one_eq_mod]
    omega
  rw [FatPtr.asiType, h]
  rfl

end CSN

/-- A log address: log, offset in the log, physical segment. -/
structure LSN where
  logid : ℕ
  loffset : ℕ
  segment : ℕ
  deriving DecidableEq, Repr

namespace LSN

/-- `LSN::make(logid, loff, segnum, size_code).to_ptr()`. -/
def toPtr (l : LSN) (code : ℕ) : FatPtr :=
  ⟨(l.logid <<< 56 ||| l.loffset <<< 16 ||| l.segment <<< 8 ||| code) % 2 ^ 64
    ||| FatPtr.asiLog <<< 8⟩

/-- `LSN::from_ptr`. -/
def fromPtr (p : FatPtr) : LSN where
  logid := p.offset >>> 40
  loffset := p.offset &&& (2 ^ 40 - 1)
  segment := p.asiSegment

/-- What `LSN::make` asserts of an offset and a segment number, with the 8 bits
that the comment in `dlog-defs.h` gives to log ids. -/
structure Encodable (l : LSN) : Prop where
  logid : l.logid < 2 ^ 8
  loffset : l.loffset < 2 ^ 40
  segment : l.segment < 2 ^ 4

theorem toPtr_ne_null (l : LSN) (code : ℕ) : l.toPtr code ≠ FatPtr.null := by
  intro h
  have hw : (l.toPtr code).word = 0 := by rw [h]; rfl
  rw [toPtr, Nat.or_eq_zero_iff] at hw
  exact absurd hw.2 (by decide)

/-- The fields of an encodable address do not overlap. -/
theorem toPtr_word {l : LSN} (h : l.Encodable) {code : ℕ} (hc : code < 2 ^ 8) :
    (l.toPtr code).word
      = (l.logid * 2 ^ 40 + l.loffset) * 2 ^ 16 + (0x1000 + l.segment * 2 ^ 8 + code) := by
  obtain ⟨h1, h2, h3⟩ := h
  have hlow : l.segment <<< 8 ||| code = l.segment * 2 ^ 8 + code := by
    rw [Nat.shiftLeft_eq, mul_comm, Nat.two_pow_add_eq_or_of_lt hc]
  have hval : l.logid <<< 56 ||| l.loffset <<< 16
      = 2 ^ 16 * (l.logid * 2 ^ 40 + l.loffset) := by
    have h56 : l.logid <<< 56 = 2 ^ 56 * l.logid := by rw [Nat.shiftLeft_eq, mul_comm]
    have h16 : l.loffset <<< 16 = l.loffset * 2 ^ 16 := Nat.shiftLeft_eq _ _
    rw [h56, h16, ← Nat.two_pow_add_eq_or_of_lt (i := 56) (by omega)]
    ring
  have hword : l.logid <<< 56 ||| l.loffset <<< 16 ||| l.segment <<< 8 ||| code
      = 2 ^ 16 * (l.logid * 2 ^ 40 + l.loffset) + (l.segment * 2 ^ 8 + code) := by
    rw [Nat.or_assoc _ (l.segment <<< 8), hlow, hval,
      ← Nat.two_pow_add_eq_or_of_lt (i := 16) (by omega)]
  have hflag : 2 ^ 16 * (l.logid * 2 ^ 40 + l.loffset) + (l.segment * 2 ^ 8 + code)
      ||| FatPtr.asiLog <<< 8
      = 2 ^ 16 * (l.logid * 2 ^ 40 + l.loffset) + (0x1000 + l.segment * 2 ^ 8 + code) := by
    have h12 : l.segment * 2 ^ 8 + code ||| FatPtr.asiLog <<< 8
        = 0x1000 + l.segment * 2 ^ 8 + code := by
      rw [Nat.or_comm, show FatPtr.asiLog <<< 8 = 2 ^ 12 * 1 from rfl,
        ← Nat.two_pow_add_eq_or_of_lt (i := 12) (by omega)]
      omega
    rw [Nat.two_pow_add_eq_or_of_lt (i := 16) (b := l.segment * 2 ^ 8 + code) (by omega),
      Nat.or_assoc, h12, ← Nat.two_pow_add_eq_or_of_lt (i := 16) (by omega)]
  rw [toPtr, hword, Nat.mod_eq_of_lt (by omega), hflag]
  ring

theorem toPtr_sizeCode {l : LSN} (h : l.Encodable) {code : ℕ} (hc : code < 2 ^ 8) :
    (l.toPtr code).sizeCode = code := by
  rw [FatPtr.sizeCode, toPtr_word h hc, show (0xff : ℕ) = 2 ^ 8 - 1 from rfl,
    Nat.and_two_pow_sub_one_eq_mod]
  omega

theorem toPtr_offset {l : LSN} (h : l.Encodable) {code : ℕ} (hc : code < 2 ^ 8) :
    (l.toPtr code).offset = l.logid * 2 ^ 40 + l.loffset := by
  have := h.segment
  rw [FatPtr.offset, toPtr_word h hc, Nat.shiftRight_eq_div_pow]
  omega

theorem toPtr_asi {l : LSN} (h : l.Encodable) {code : ℕ} (hc : code < 2 ^ 8) :
    (l.toPtr code).asi = 0x10 + l.segment := by
  have := h.segment
  rw [FatPtr.asi, toPtr_word h hc, Nat.shiftRight_eq_div_pow,
    show (0x7f : ℕ) = 2 ^ 7 - 1 from rfl, Nat.and_two_pow_sub_one_eq_mod]
  omega

theorem toPtr_asiType {l : LSN} (h : l.Encodable) {code : ℕ} (hc : code < 2 ^ 8) :
    (l.toPtr code).asiType = FatPtr.asiLog := by
  have hseg := h.segment
  rw [FatPtr.asiType, toPtr_asi h hc]
  generalize l.segment = n at hseg
  interval_cases n <;> rfl

/-- An encodable log address is read back unchanged. -/
theorem from_toPtr {l : LSN} (h : l.Encodable) {code : ℕ} (hc : code < 2 ^ 8) :
    fromPtr (l.toPtr code) = l := by
  have h1 := h.logid
  have h2 := h.loffset
  have h3 := h.segment
  have hl : (l.toPtr code).offset >>> 40 = l.logid := by
    rw [toPtr_offset h hc, Nat.shiftRight_eq_div_pow]
    omega
  have ho : (l.toPtr code).offset &&& (2 ^ 40 - 1) = l.loffset := by
    rw [toPtr_offset h hc, Nat.and_two_pow_sub_one_eq_mod]
    omega
  have hs : (l.toPtr code).asiSegment = l.segment := by
    rw [FatPtr.asiSegment, toPtr_asi h hc, show (0x0f : ℕ) = 2 ^ 4 - 1 from rfl,
      Nat.and_two_pow_sub_one_eq_mod]
    omega
  rw [fromPtr, hl, ho, hs]

end LSN

end PreemptDB
