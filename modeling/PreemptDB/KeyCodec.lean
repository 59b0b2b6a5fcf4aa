/-
The encoding of keys (`encoder.h`, `serializer.h`) and the order of `varstr`.

A key is a packed struct.  `encode_write` puts its fields one after the other, the integers
with their bytes swapped, so that the bytes of a key are ordered as its fields are.  The index
compares keys as `varstr`, which is `memcmp` over the shorter length and then the lengths.

* `Field`, `encodeWrite`, `encodeRead` — the encoder of a key;
* `Varstr.lt` and the other comparisons;
* `lt_iff_lex` — the order of two encodings is that of the fields, also for prefixes;
* `key_encoding` — the encoder and the comparisons.
-/
import PreemptDB.ByteOrder

namespace PreemptDB

open ByteMem ByteOrder

namespace Varstr

/-- The difference of the first two bytes that differ. -/
def memcmp : ℕ → List UInt8 → List UInt8 → ℤ
  | n + 1, a :: as, b :: bs => if a = b then memcmp n as bs else a.toNat - b.toNat
  | _, _, _ => 0

def beq (a b : List UInt8) : Bool :=
  if a.length ≠ b.length then false else memcmp a.length a b == 0

def lt (a b : List UInt8) : Bool :=
  let r := memcmp (min a.length b.length) a b
  r < 0 || (r == 0 && a.length < b.length)

def ge (a b : List UInt8) : Bool := !lt a b

def le (a b : List UInt8) : Bool :=
  let r := memcmp (min a.length b.length) a b
  r < 0 || (r == 0 && a.length ≤ b.length)

def gt (a b : List UInt8) : Bool := !le a b

/-- `memcmp` over the common length: a difference there decides, whatever follows, and without
one the shorter string starts the longer one. -/
theorem memcmp_spec (a b : List UInt8) :
    (memcmp (min a.length b.length) a b < 0 ∧ ∀ s t, a ++ s < b ++ t) ∨
      (0 < memcmp (min a.length b.length) a b ∧ ∀ s t, b ++ t < a ++ s) ∨
      (memcmp (min a.length b.length) a b = 0 ∧ (a <+: b ∨ b <+: a)) := by
  induction a generalizing b with
  | nil => exact .inr (.inr ⟨by simp [memcmp], .inl List.nil_prefix⟩)
  | cons x a ih =>
    cases b with
    | nil => exact .inr (.inr ⟨by simp [memcmp], .inr List.nil_prefix⟩)
    | cons y b =>
      rw [List.length_cons, List.length_cons, Nat.add_min_add_right, memcmp]
      by_cases hxy : x = y
      · subst hxy
        rw [if_pos rfl]
        simpa [List.cons_lt_cons_iff, List.cons_prefix_cons] using ih b
      · rw [if_neg hxy]
        rcases lt_or_gt_of_ne hxy with hlt | hgt
        · have := UInt8.lt_iff_toNat_lt.mp hlt
          exact .inl ⟨by omega, fun s t => List.cons_lt_cons_iff.mpr (.inl hlt)⟩
        · have := UInt8.lt_iff_toNat_lt.mp hgt
          exact .inr (.inl ⟨by omega, fun s t => List.cons_lt_cons_iff.mpr (.inl hgt)⟩)

theorem lt_append_cons (a : List UInt8) (y : UInt8) (r : List UInt8) : a < a ++ y :: r := by
  have h := append_lt_append_iff (s := []) (t := y :: r) (rfl : a.length = a.length)
  rw [List.append_nil] at h
  exact h.mpr (.inr ⟨rfl, List.nil_lt_cons y r⟩)

/-- If one string starts the other, the lengths decide. -/
theorem lt_iff_length {a b : List UInt8} (h : a <+: b ∨ b <+: a) :
    (a < b ↔ a.length < b.length) ∧ (a = b ↔ a.length = b.length) := by
  rcases h with ⟨r, rfl⟩ | ⟨r, rfl⟩
  · cases r with
    | nil => simp
    | cons y r => simp [lt_append_cons]
  · cases r with
    | nil => simp
    | cons y r => simp [(lt_append_cons b y r).not_gt]

theorem memcmp_cases (a b : List UInt8) :
    (memcmp (min a.length b.length) a b < 0 ∧ a < b) ∨
      (0 < memcmp (min a.length b.length) a b ∧ b < a) ∨
      (memcmp (min a.length b.length) a b = 0 ∧ (a < b ↔ a.length < b.length) ∧
        (a = b ↔ a.length = b.length)) := by
  rcases memcmp_spec a b with ⟨hr, hlt⟩ | ⟨hr, hgt⟩ | ⟨hr, hpre⟩
  · exact .inl ⟨hr, by simpa using hlt [] []⟩
  · exact .inr (.inl ⟨hr, by simpa using hgt [] []⟩)
  · exact .inr (.inr ⟨hr, lt_iff_length hpre⟩)

theorem lt_iff (a b : List UInt8) : lt a b = true ↔ a < b := by
  simp only [lt, Bool.or_eq_true, Bool.and_eq_true, decide_eq_true_eq, beq_iff_eq]
  rcases memcmp_cases a b with ⟨hr, hlt⟩ | ⟨hr, hgt⟩ | ⟨hr, hlt, -⟩
  · simp [hr, hlt]
  · simp only [hgt.not_gt, iff_false]
    omega
  · simp [hr, hlt]

theorem le_iff (a b : List UInt8) : le a b = true ↔ a ≤ b := by
  simp only [le, Bool.or_eq_true, Bool.and_eq_true, decide_eq_true_eq, beq_iff_eq]
  rcases memcmp_cases a b with ⟨hr, hlt⟩ | ⟨hr, hgt⟩ | ⟨hr, hlt, heq⟩
  · simp [hr, hlt.le]
  · simp only [hgt.not_ge, iff_false]
    omega
  · simp [hr, le_iff_lt_or_eq, hlt, heq]

theorem beq_iff (a b : List UInt8) : beq a b = true ↔ a = b := by
  rw [beq]
  split
  · rename_i hne
    simp only [Bool.false_eq_true, false_iff]
    rintro rfl
    exact hne rfl
  · rename_i hlen
    rw [not_not] at hlen
    have hspec := memcmp_cases a b
    rw [hlen, Nat.min_self] at hspec
    rw [hlen, beq_iff_eq]
    rcases hspec with ⟨hr, hlt⟩ | ⟨hr, hgt⟩ | ⟨hr, -, heq⟩
    · simp [hr.ne, hlt.ne]
    · simp [hr.ne', hgt.ne']
    · simp [hr, heq]

theorem ge_iff (a b : List UInt8) : ge a b = true ↔ b ≤ a := by
  rw [ge, Bool.not_eq_true', ← Bool.not_eq_true, lt_iff, not_lt]

theorem gt_iff (a b : List UInt8) : gt a b = true ↔ b < a := by
  rw [gt, Bool.not_eq_true', ← Bool.not_eq_true, le_iff, not_le]

end Varstr

namespace Record

/-- The type of a field; a string has at least one byte. -/
inductive FieldType
  | int32
  | uint32
  | inlineStrFixed (n : ℕ) (pos : 0 < n)
  deriving DecidableEq

/-- A field with its value. -/
inductive Field
  | int32 (v : BitVec 32)
  | uint32 (v : BitVec 32)
  | inlineStrFixed (buf : List UInt8) (pos : 0 < buf.length)
  deriving DecidableEq

namespace FieldType

def size : FieldType → ℕ
  | int32 => 4
  | uint32 => 4
  | inlineStrFixed n _ => n

end FieldType

namespace Field

def type : Field → FieldType
  | int32 _ => .int32
  | uint32 _ => .uint32
  | inlineStrFixed buf pos => .inlineStrFixed buf.length pos

/-- Integers are ordered by value, strings by their bytes. -/
def Lt : Field → Field → Prop
  | int32 v, int32 w => v.toInt < w.toInt
  | uint32 v, uint32 w => v.toNat < w.toNat
  | inlineStrFixed s _, inlineStrFixed t _ => s < t
  | _, _ => False

/-- A signed integer is not negative. -/
def NonNeg : Field → Prop
  | int32 v => 0 ≤ v.toInt
  | _ => True

end Field

/-- `sizeof` of a packed struct. -/
def sizeof (fs : List FieldType) : ℕ := (fs.map FieldType.size).sum

/-- `htobe32` and `be32toh` on a little-endian machine. -/
def bswap32 (t : BitVec 32) : BitVec 32 :=
  t.extractLsb' 0 8 ++ t.extractLsb' 8 8 ++ t.extractLsb' 16 8 ++ t.extractLsb' 24 8

/-- `serializer<T, false>::write` for a word: the bytes that it stores at `buf`. -/
def storeWord (v : BitVec 32) : List UInt8 := leBytes 4 v.toNat

/-- `serializer<T, false>::read` for a word; no result if the bytes are not there. -/
def loadWord (buf : List UInt8) : Option (BitVec 32 × List UInt8) :=
  if 4 ≤ buf.length then some (BitVec.ofNat 32 (leValue (buf.take 4)), buf.drop 4) else none

/-- `SERIALIZE_WRITE_KEY_FIELD_X`; `big_endian_trfm` leaves strings as they are. -/
def Field.writeKey : Field → List UInt8
  | .int32 v => storeWord (bswap32 v)
  | .uint32 v => storeWord (bswap32 v)
  | .inlineStrFixed buf _ => buf

theorem length_take_pos {n : ℕ} {buf : List UInt8} (pos : 0 < n) (h : n ≤ buf.length) :
    0 < (buf.take n).length := by
  rwa [List.length_take, Nat.min_eq_left h]

/-- `SERIALIZE_READ_KEY_FIELD_X` -/
def readKey : FieldType → List UInt8 → Option (Field × List UInt8)
  | .int32, buf => (loadWord buf).map fun (v, buf) => (.int32 (bswap32 v), buf)
  | .uint32, buf => (loadWord buf).map fun (v, buf) => (.uint32 (bswap32 v), buf)
  | .inlineStrFixed n pos, buf =>
    if h : n ≤ buf.length then
      some (.inlineStrFixed (buf.take n) (length_take_pos pos h), buf.drop n)
    else none

/-- `encoder<name::key>::encode_write` -/
def encodeWrite (key : List Field) : List UInt8 := key.flatMap Field.writeKey

/-- `encoder<name::key>::encode_read` -/
def encodeRead : List FieldType → List UInt8 → Option (List Field × List UInt8)
  | [], buf => some ([], buf)
  | t :: ts, buf => do
    let (f, buf) ← readKey t buf
    let (fs, buf) ← encodeRead ts buf
    return (f :: fs, buf)

section Words

/-- The four bytes of a word. -/
def ofBytes (a b c d : ℕ) : ℕ := a + 2 ^ 8 * b + 2 ^ 16 * c + 2 ^ 24 * d

theorem exists_ofBytes (t : BitVec 32) :
    ∃ a b c d, a < 256 ∧ b < 256 ∧ c < 256 ∧ d < 256 ∧ t.toNat = ofBytes a b c d := by
  have ht := t.isLt
  refine ⟨t.toNat % 256, t.toNat / 2 ^ 8 % 256, t.toNat / 2 ^ 16 % 256, t.toNat / 2 ^ 24, by omega,
    by omega, by omega, by omega, ?_⟩
  rw [ofBytes]
  omega

theorem toNat_bswap32 {a b c d : ℕ} (ha : a < 256) (hb : b < 256) (hc : c < 256) (hd : d < 256)
    {t : BitVec 32} (ht : t.toNat = ofBytes a b c d) :
    (bswap32 t).toNat = ofBytes d c b a := by
  rw [ofBytes] at ht
  have h0 : t.toNat / 2 ^ 0 % 2 ^ 8 = a := by omega
  have h1 : t.toNat / 2 ^ 8 % 2 ^ 8 = b := by omega
  have h2 : t.toNat / 2 ^ 16 % 2 ^ 8 = c := by omega
  have h3 : t.toNat / 2 ^ 24 % 2 ^ 8 = d := by omega
  simp only [bswap32, BitVec.toNat_append, BitVec.extractLsb'_toNat, Nat.shiftRight_eq_div_pow,
    h0, h1, h2, h3]
  rw [← Nat.shiftLeft_add_eq_or_of_lt hd, ← Nat.shiftLeft_add_eq_or_of_lt hc,
    ← Nat.shiftLeft_add_eq_or_of_lt hb]
  simp only [Nat.shiftLeft_eq, ofBytes]
  omega

theorem leBytes_ofBytes {a b c : ℕ} (ha : a < 256) (hb : b < 256) (hc : c < 256) (d : ℕ) :
    leBytes 4 (ofBytes a b c d) = [UInt8.ofNat a, UInt8.ofNat b, UInt8.ofNat c, UInt8.ofNat d] := by
  have hbyte : ∀ {m n : ℕ}, m % 256 = n → UInt8.ofNat m = UInt8.ofNat n := by
    intro m n h
    rw [← UInt8.toNat_inj, UInt8.toNat_ofNat', UInt8.toNat_ofNat', ← h]
    omega
  have h1 : ofBytes a b c d / 256 = b + 2 ^ 8 * c + 2 ^ 16 * d := by rw [ofBytes]; omega
  have h2 : (b + 2 ^ 8 * c + 2 ^ 16 * d) / 256 = c + 2 ^ 8 * d := by omega
  have h3 : (c + 2 ^ 8 * d) / 256 = d := by omega
  simp only [leBytes, h1, h2, h3]
  rw [hbyte (show ofBytes a b c d % 256 = a by rw [ofBytes]; omega),
    hbyte (show (b + 2 ^ 8 * c + 2 ^ 16 * d) % 256 = b by omega),
    hbyte (show (c + 2 ^ 8 * d) % 256 = c by omega)]

/-- A swapped word is stored with its most significant byte first. -/
theorem storeWord_bswap32 (v : BitVec 32) :
    storeWord (bswap32 v) = (leBytes 4 v.toNat).reverse := by
  obtain ⟨a, b, c, d, ha, hb, hc, hd, hv⟩ := exists_ofBytes v
  rw [storeWord, toNat_bswap32 ha hb hc hd hv, hv, leBytes_ofBytes hd hc hb a,
    leBytes_ofBytes ha hb hc d]
  rfl

theorem bswap32_bswap32 (t : BitVec 32) : bswap32 (bswap32 t) = t := by
  obtain ⟨a, b, c, d, ha, hb, hc, hd, ht⟩ := exists_ofBytes t
  apply BitVec.eq_of_toNat_eq
  rw [toNat_bswap32 hd hc hb ha (toNat_bswap32 ha hb hc hd ht), ht]

theorem word_mod (v : BitVec 32) : v.toNat % 256 ^ 4 = v.toNat := Nat.mod_eq_of_lt v.isLt

@[simp] theorem length_storeWord (v : BitVec 32) : (storeWord v).length = 4 := length_leBytes 4 _

theorem loadWord_storeWord (v : BitVec 32) (rest : List UInt8) :
    loadWord (storeWord v ++ rest) = some (v, rest) := by
  have hlen : (storeWord v ++ rest).length = 4 + rest.length := by simp
  rw [loadWord, if_pos (by omega), List.take_left' (length_storeWord v),
    List.drop_left' (length_storeWord v), storeWord, leValue_leBytes, word_mod,
    BitVec.ofNat_toNat, BitVec.setWidth_eq]

/-- Words are ordered as numbers without a sign. -/
theorem storeWord_bswap32_lt_iff (v w : BitVec 32) :
    storeWord (bswap32 v) < storeWord (bswap32 w) ↔ v.toNat < w.toNat := by
  rw [lt_iff_beValue_lt (by simp), storeWord_bswap32, storeWord_bswap32, beValue_reverse,
    beValue_reverse, leValue_leBytes, leValue_leBytes, word_mod, word_mod]

end Words

section Fields

theorem length_writeKey (f : Field) : f.writeKey.length = f.type.size := by
  cases f with
  | int32 v => exact length_storeWord _
  | uint32 v => exact length_storeWord _
  | inlineStrFixed buf pos => rfl

theorem writeKey_ne_nil (f : Field) : f.writeKey ≠ [] := by
  rw [← List.length_pos_iff, length_writeKey]
  cases f with
  | int32 v => exact Nat.succ_pos 3
  | uint32 v => exact Nat.succ_pos 3
  | inlineStrFixed buf pos => exact pos

theorem readKey_writeKey (f : Field) (rest : List UInt8) :
    readKey f.type (f.writeKey ++ rest) = some (f, rest) := by
  cases f with
  | int32 _ | uint32 _ =>
    simp [Field.type, readKey, Field.writeKey, loadWord_storeWord, bswap32_bswap32]
  | inlineStrFixed buf pos =>
    have hlen : buf.length ≤ (buf ++ rest).length := by simp
    simp [Field.type, readKey, Field.writeKey]

theorem writeKey_inj {f g : Field} (ht : f.type = g.type) (he : f.writeKey = g.writeKey) :
    f = g := by
  have hf := readKey_writeKey f []
  rw [ht, he, readKey_writeKey g []] at hf
  simpa using hf.symm

/-- The bytes of two fields of one type are ordered as the fields. -/
theorem writeKey_lt_iff {f g : Field} (ht : f.type = g.type) (hf : f.NonNeg) (hg : g.NonNeg) :
    f.writeKey < g.writeKey ↔ f.Lt g := by
  cases f with
  | int32 v =>
    cases g with
    | int32 w =>
      -- without a sign bit both readings of a word agree
      have hread : ∀ u : BitVec 32, 0 ≤ u.toInt → u.toInt = u.toNat := by
        intro u hu
        rw [BitVec.toInt_eq_toNat_cond] at hu ⊢
        have := u.isLt
        split at hu
        · rw [if_pos ‹_›]
        · omega
      have hv := hread v hf
      have hw := hread w hg
      rw [Field.writeKey, Field.writeKey, storeWord_bswap32_lt_iff, Field.Lt, hv, hw, Nat.cast_lt]
    | uint32 w => cases ht
    | inlineStrFixed t pos => cases ht
  | uint32 v =>
    cases g with
    | int32 w => cases ht
    | uint32 w => exact storeWord_bswap32_lt_iff v w
    | inlineStrFixed t pos => cases ht
  | inlineStrFixed s pos =>
    cases g with
    | int32 w => cases ht
    | uint32 w => cases ht
    | inlineStrFixed t pos => rfl

end Fields

section Keys

theorem length_encodeWrite (key : List Field) :
    (encodeWrite key).length = sizeof (key.map Field.type) := by
  induction key with
  | nil => rfl
  | cons f key ih =>
    rw [encodeWrite, List.flatMap_cons, List.length_append, length_writeKey]
    rw [encodeWrite] at ih
    rw [ih]
    rfl

theorem encodeRead_encodeWrite (key : List Field) (rest : List UInt8) :
    encodeRead (key.map Field.type) (encodeWrite key ++ rest) = some (key, rest) := by
  induction key with
  | nil => rfl
  | cons f key ih =>
    rw [encodeWrite] at ih ⊢
    rw [List.map_cons, encodeRead, List.flatMap_cons, List.append_assoc, readKey_writeKey]
    simp [ih]

/-- Keys of one struct, or prefixes of its fields: as long as both have a field, its type is the
same in both. -/
theorem lt_iff_lex {fs : List FieldType} {a b : List Field} (ha : a.map Field.type <+: fs)
    (hb : b.map Field.type <+: fs) (hposa : ∀ f ∈ a, f.NonNeg) (hposb : ∀ f ∈ b, f.NonNeg) :
    encodeWrite a < encodeWrite b ↔ List.Lex Field.Lt a b := by
  induction a generalizing fs b with
  | nil =>
    cases b with
    | nil => simp [encodeWrite]
    | cons g b =>
      refine iff_of_true ?_ List.Lex.nil
      obtain ⟨x, s, hs⟩ := List.exists_cons_of_ne_nil (writeKey_ne_nil g)
      rw [encodeWrite, List.flatMap_nil, encodeWrite, List.flatMap_cons, hs]
      exact List.nil_lt_cons x _
  | cons f a ih =>
    cases b with
    | nil => simp [encodeWrite]
    | cons g b =>
      obtain ⟨t, fs, rfl⟩ : ∃ t fs', fs = t :: fs' := by
        obtain ⟨rest, rfl⟩ := ha
        exact ⟨_, _, rfl⟩
      rw [List.map_cons, List.cons_prefix_cons] at ha hb
      have ht : f.type = g.type := ha.1.trans hb.1.symm
      have hlen : f.writeKey.length = g.writeKey.length := by
        rw [length_writeKey, length_writeKey, ht]
      have hinj : f.writeKey = g.writeKey ↔ f = g :=
        ⟨writeKey_inj ht, congrArg Field.writeKey⟩
      have hrest := ih ha.2 hb.2 (fun f hf => hposa f (.tail _ hf)) fun g hg => hposb g (.tail _ hg)
      rw [encodeWrite] at hrest ⊢
      rw [List.flatMap_cons, encodeWrite, List.flatMap_cons, append_lt_append_iff hlen,
        writeKey_lt_iff ht (hposa f List.mem_cons_self) (hposb g List.mem_cons_self), hinj]
      rw [encodeWrite] at hrest
      rw [hrest, List.cons_lex_cons_iff]

end Keys

/-- The encoder of a key struct, and the comparisons of `varstr`. -/
theorem key_encoding (fs : List FieldType) :
    (∀ key : List Field, key.map Field.type = fs →
      (encodeWrite key).length = sizeof fs ∧
        ∀ rest, encodeRead fs (encodeWrite key ++ rest) = some (key, rest)) ∧
      (∀ a b : List Field, a.map Field.type <+: fs → b.map Field.type <+: fs →
        (∀ f ∈ a, f.NonNeg) → (∀ f ∈ b, f.NonNeg) →
          (Varstr.lt (encodeWrite a) (encodeWrite b) = true ↔ List.Lex Field.Lt a b)) ∧
      ∀ s t : List UInt8,
        (Varstr.lt s t = true ↔ s < t) ∧ (Varstr.le s t = true ↔ s ≤ t) ∧
          (Varstr.gt s t = true ↔ s > t) ∧ (Varstr.ge s t = true ↔ s ≥ t) ∧
          (Varstr.beq s t = true ↔ s = t) := by
  refine ⟨?_, fun a b ha hb hposa hposb => ?_, fun s t => ?_⟩
  · rintro key rfl
    exact ⟨length_encodeWrite key, encodeRead_encodeWrite key⟩
  · rw [Varstr.lt_iff, lt_iff_lex ha hb hposa hposb]
  · exact ⟨Varstr.lt_iff s t, Varstr.le_iff s t, Varstr.gt_iff s t, Varstr.ge_iff s t,
      Varstr.beq_iff s t⟩

end Record

end PreemptDB
