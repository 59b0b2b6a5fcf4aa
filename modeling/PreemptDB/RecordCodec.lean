/-
The encoding of record values (`varint.h`, `serializer.h`, `encoder.h`).

Integers of a value are written as varints, seven bits in a byte and the lowest first; signed
ones are first mapped to unsigned ones by the zig-zag encoding.  The writer is a loop and the
readers are unrolled.  The failsafe readers count the bytes that are left.

* `writeUvint32`, `readUvint32`, `failsafeReadUvint32`, `skipUvint32`, `failsafeSkipUvint32`;
* `Value.write` and the others — the serializers of a field;
* `Value.encodeWrite` and the others — the encoder of a value;
* `value_round_trip` — reading back what was written.

A buffer is the list of the bytes that may be read; a read past its end is a fault.
-/
import PreemptDB.KeyCodec

namespace PreemptDB

namespace Record

inductive Fault
  | outOfBounds
  /-- `ALWAYS_ASSERT(false)` -/
  | assertion
  deriving DecidableEq

section Varint

/-- The bytes that the loop of `write_uvint32` stores. -/
def writeUvint32 (value : ℕ) : List UInt8 :=
  if value > 0x7F then
    UInt8.ofNat (value % 2 ^ 8 &&& 0x7F ||| 0x80) :: writeUvint32 (value >>> 7)
  else [UInt8.ofNat (value % 2 ^ 8 &&& 0x7F)]
termination_by value
decreasing_by
  rw [Nat.shiftRight_eq_div_pow]
  omega

def sizeUvint32 (value : ℕ) : ℕ :=
  if value ≤ 0x7F then 1
  else if value ≤ 0x7F <<< 7 ||| 0x7F then 2
  else if value ≤ 0x7F <<< 14 ||| 0x7F <<< 7 ||| 0x7F then 3
  else if value ≤ 0x7F <<< 21 ||| 0x7F <<< 14 ||| 0x7F <<< 7 ||| 0x7F then 4
  else 5

/-- One of the first four bytes in `read_uvint32_slow`; `next` is what follows if more bytes do. -/
def readSeptet (shift result : ℕ) (p : List UInt8)
    (next : ℕ → List UInt8 → Except Fault (ℕ × List UInt8)) : Except Fault (ℕ × List UInt8) :=
  match p with
  | [] => .error .outOfBounds
  | b :: p =>
    let result := result ||| (b.toNat &&& 0x7F) <<< shift
    if b.toNat < 0x80 then .ok (result, p) else next result p

def readUvint32Slow (buf : List UInt8) : Except Fault (ℕ × List UInt8) :=
  readSeptet 0 0 buf fun result p =>
  readSeptet 7 result p fun result p =>
  readSeptet 14 result p fun result p =>
  readSeptet 21 result p fun result p =>
  match p with
  | [] => .error .outOfBounds
  | b :: p =>
    let result := result ||| b.toNat <<< 28 % 2 ^ 32
    if b.toNat < 0x80 then .ok (result, p) else .error .assertion

def readUvint32 (buf : List UInt8) : Except Fault (ℕ × List UInt8) :=
  match buf with
  | [] => .error .outOfBounds
  | b :: p => if b.toNat < 0x80 then .ok (b.toNat, p) else readUvint32Slow buf

/-- The same step of `failsafe_read_uvint32_slow`; no result stands for `nullptr`. -/
def failsafeSeptet (shift result nbytes : ℕ) (p : List UInt8)
    (next : ℕ → ℕ → List UInt8 → Except Fault (Option (ℕ × List UInt8))) :
    Except Fault (Option (ℕ × List UInt8)) :=
  if nbytes = 0 then .ok none
  else match p with
    | [] => .error .outOfBounds
    | b :: p =>
      let result := result ||| (b.toNat &&& 0x7F) <<< shift
      if b.toNat < 0x80 then .ok (some (result, p)) else next result (nbytes - 1) p

def failsafeReadUvint32Slow (buf : List UInt8) (nbytes : ℕ) :
    Except Fault (Option (ℕ × List UInt8)) :=
  failsafeSeptet 0 0 nbytes buf fun result nbytes p =>
  failsafeSeptet 7 result nbytes p fun result nbytes p =>
  failsafeSeptet 14 result nbytes p fun result nbytes p =>
  failsafeSeptet 21 result nbytes p fun result nbytes p =>
  if nbytes = 0 then .ok none
  else match p with
    | [] => .error .outOfBounds
    -- there is no check of the fifth byte here
    | b :: p => .ok (some (result ||| b.toNat <<< 28 % 2 ^ 32, p))

def failsafeReadUvint32 (stream : List UInt8) (nbytes : ℕ) :
    Except Fault (Option (ℕ × List UInt8)) :=
  if nbytes = 0 then .ok none
  else match stream with
    | [] => .error .outOfBounds
    | ch :: p =>
      if ch.toNat < 0x80 then .ok (some (ch.toNat, p)) else failsafeReadUvint32Slow stream nbytes

/-- `skip_uvint32` from byte `i` on, with at most `left` further bytes: the number of bytes and
what was copied to `rawv` (which may be null). -/
def skipFrom (rawv : Bool) (i : ℕ) : ℕ → List UInt8 → List UInt8 → Except Fault (ℕ × List UInt8)
  | 0, _, _ => .error .assertion
  | _ + 1, [], _ => .error .outOfBounds
  | left + 1, b :: p, out =>
    let out := if rawv then out ++ [b] else out
    if b.toNat < 0x80 then .ok (i + 1, out) else skipFrom rawv (i + 1) left p out

def skipUvint32 (stream : List UInt8) (rawv : Bool) : Except Fault (ℕ × List UInt8) :=
  skipFrom rawv 0 5 stream []

/-- `failsafe_skip_uvint32` from byte `i` on. -/
def failsafeSkipFrom (rawv : Bool) (i : ℕ) :
    ℕ → ℕ → List UInt8 → List UInt8 → Except Fault (ℕ × List UInt8)
  | 0, _, _, _ => .error .assertion
  | _ + 1, 0, _, out => .ok (0, out)
  | _ + 1, _ + 1, [], _ => .error .outOfBounds
  | left + 1, nbytes + 1, b :: p, out =>
    let out := if rawv then out ++ [b] else out
    if b.toNat < 0x80 then .ok (i + 1, out) else failsafeSkipFrom rawv (i + 1) left nbytes p out

def failsafeSkipUvint32 (stream : List UInt8) (nbytes : ℕ) (rawv : Bool) :
    Except Fault (ℕ × List UInt8) :=
  failsafeSkipFrom rawv 0 5 nbytes stream []

end Varint

/-- `serializer<int32_t, true>::encode` -/
def zigzagEncode (value : BitVec 32) : BitVec 32 := (value <<< 1) ^^^ value.sshiftRight 31

/-- `serializer<int32_t, true>::decode` -/
def zigzagDecode (value : BitVec 32) : BitVec 32 := (value >>> 1) ^^^ -(value &&& 1)

namespace Value

/-- `serializer<tpe, true>::write` -/
def write : Field → List UInt8
  | .int32 v => writeUvint32 (zigzagEncode v).toNat
  | .uint32 v => writeUvint32 v.toNat
  | .inlineStrFixed buf _ => buf

def nbytes : Field → ℕ
  | .int32 v => sizeUvint32 (zigzagEncode v).toNat
  | .uint32 v => sizeUvint32 v.toNat
  | .inlineStrFixed buf _ => buf.length

/-- The bytes of a fixed-size field. -/
def readBytes (n : ℕ) (pos : 0 < n) (buf : List UInt8) : Except Fault (Field × List UInt8) :=
  if h : n ≤ buf.length then
    .ok (.inlineStrFixed (buf.take n) (length_take_pos pos h), buf.drop n)
  else .error .outOfBounds

def read : FieldType → List UInt8 → Except Fault (Field × List UInt8)
  | .int32, buf => (readUvint32 buf).map fun (v, buf) => (.int32 (zigzagDecode (.ofNat 32 v)), buf)
  | .uint32, buf => (readUvint32 buf).map fun (v, buf) => (.uint32 (.ofNat 32 v), buf)
  | .inlineStrFixed n pos, buf => readBytes n pos buf

def failsafeRead : FieldType → List UInt8 → ℕ → Except Fault (Option (Field × List UInt8))
  | .int32, buf, nbytes => (failsafeReadUvint32 buf nbytes).map
      (Option.map fun (v, buf) => (.int32 (zigzagDecode (.ofNat 32 v)), buf))
  | .uint32, buf, nbytes => (failsafeReadUvint32 buf nbytes).map
      (Option.map fun (v, buf) => (.uint32 (.ofNat 32 v), buf))
  | .inlineStrFixed n pos, buf, nbytes =>
    if nbytes < n then .ok none else (readBytes n pos buf).map some

/-- The number of bytes, and what was copied to `rawv`. -/
def skip : FieldType → List UInt8 → Bool → Except Fault (ℕ × List UInt8)
  | .int32, stream, rawv => skipUvint32 stream rawv
  | .uint32, stream, rawv => skipUvint32 stream rawv
  | .inlineStrFixed n _, stream, rawv =>
    if rawv then
      if n ≤ stream.length then .ok (n, stream.take n) else .error .outOfBounds
    else .ok (n, [])

def failsafeSkip : FieldType → List UInt8 → ℕ → Bool → Except Fault (ℕ × List UInt8)
  | .int32, stream, nbytes, rawv => failsafeSkipUvint32 stream nbytes rawv
  | .uint32, stream, nbytes, rawv => failsafeSkipUvint32 stream nbytes rawv
  | .inlineStrFixed n pos, stream, nbytes, rawv =>
    if nbytes < n then .ok (0, []) else skip (.inlineStrFixed n pos) stream rawv

/-- `encoder<name::value>::encode_write` -/
def encodeWrite (obj : List Field) : List UInt8 := obj.flatMap write

def encodeNbytes (obj : List Field) : ℕ := (obj.map nbytes).sum

def encodeRead : List FieldType → List UInt8 → Except Fault (List Field × List UInt8)
  | [], buf => .ok ([], buf)
  | t :: ts, buf => do
    let (f, buf) ← read t buf
    let (fs, buf) ← encodeRead ts buf
    return (f :: fs, buf)

/-- No result stands for `false`. -/
def encodeFailsafeRead :
    List FieldType → List UInt8 → ℕ → Except Fault (Option (List Field × List UInt8))
  | [], buf, _ => .ok (some ([], buf))
  | t :: ts, buf, nbytes => do
    match ← failsafeRead t buf nbytes with
    | none => return none
    | some (f, p) =>
      let r ← encodeFailsafeRead ts p (nbytes - (buf.length - p.length))
      return r.map fun (fs, buf) => (f :: fs, buf)

end Value

section VarintLemmas

variable {v : ℕ}

theorem toNat_ofNat_byte {n : ℕ} (h : n < 256) : (UInt8.ofNat n).toNat = n := by
  rw [UInt8.toNat_ofNat']
  exact Nat.mod_eq_of_lt h

theorem and_septet (n : ℕ) : n &&& 0x7F = n % 128 := Nat.and_two_pow_sub_one_eq_mod n 7

/-- The last byte of a varint. -/
theorem writeUvint32_small (h : v ≤ 0x7F) : writeUvint32 v = [UInt8.ofNat v] := by
  rw [writeUvint32, if_neg (by omega), and_septet]
  congr 2
  omega

/-- A byte that is not the last. -/
theorem writeUvint32_large (h : 0x7F < v) :
    writeUvint32 v = UInt8.ofNat (v % 128 + 128) :: writeUvint32 (v / 128) := by
  rw [writeUvint32, if_pos h, and_septet, Nat.mod_mod_of_dvd _ (by norm_num : 128 ∣ 2 ^ 8),
    Nat.shiftRight_eq_div_pow]
  have hor : 1 <<< 7 + v % 128 = 1 <<< 7 ||| v % 128 :=
    Nat.shiftLeft_add_eq_or_of_lt (Nat.mod_lt v (by norm_num)) 1
  rw [Nat.or_comm, Nat.add_comm]
  exact congrArg (fun n => UInt8.ofNat n :: writeUvint32 (v / 128)) hor.symm

theorem length_writeUvint32_pos (v : ℕ) : 0 < (writeUvint32 v).length := by
  rw [writeUvint32]
  split <;> simp

theorem length_writeUvint32 (h : v < 2 ^ 32) : (writeUvint32 v).length = sizeUvint32 v := by
  have hstep : ∀ {u : ℕ}, 0x7F < u →
      (writeUvint32 u).length = (writeUvint32 (u / 128)).length + 1 := fun hu => by
    rw [writeUvint32_large hu, List.length_cons]
  have hlast : ∀ {u : ℕ}, u ≤ 0x7F → (writeUvint32 u).length = 1 := fun hu => by
    rw [writeUvint32_small hu, List.length_singleton]
  have h2 : 0x7F <<< 7 ||| 0x7F = 2 ^ 14 - 1 := by decide
  have h3 : 0x7F <<< 14 ||| 0x7F <<< 7 ||| 0x7F = 2 ^ 21 - 1 := by decide
  have h4 : 0x7F <<< 21 ||| 0x7F <<< 14 ||| 0x7F <<< 7 ||| 0x7F = 2 ^ 28 - 1 := by decide
  rw [sizeUvint32, h2, h3, h4]
  split
  · exact hlast ‹_›
  · rw [hstep (by omega)]
    split
    · rw [hlast (by omega)]
    · rw [hstep (by omega)]
      split
      · rw [hlast (by omega)]
      · rw [hstep (by omega)]
        split
        · rw [hlast (by omega)]
        · rw [hstep (by omega), hlast (by omega)]

theorem sizeUvint32_le (v : ℕ) : 1 ≤ sizeUvint32 v ∧ sizeUvint32 v ≤ 5 := by
  rw [sizeUvint32]
  split_ifs <;> omega

/-- The bits below `s` and the seven bits from there on. -/
theorem or_septet (v s : ℕ) : v % 2 ^ s ||| (v / 2 ^ s % 128) <<< s = v % 2 ^ (s + 7) := by
  rw [Nat.or_comm, ← Nat.shiftLeft_add_eq_or_of_lt (Nat.mod_lt v (Nat.two_pow_pos s)),
    Nat.shiftLeft_eq, Nat.pow_add, Nat.mod_mul]
  ring

theorem div_septet (v s : ℕ) : v / 2 ^ s / 128 = v / 2 ^ (s + 7) := by
  rw [Nat.div_div_eq_div_mul, Nat.pow_add]

theorem or_last (v s : ℕ) : v % 2 ^ s ||| (v / 2 ^ s) <<< s = v := by
  rw [Nat.or_comm, ← Nat.shiftLeft_add_eq_or_of_lt (Nat.mod_lt v (Nat.two_pow_pos s)),
    Nat.shiftLeft_eq]
  exact Nat.div_add_mod' v (2 ^ s)

section Read

variable {s r u : ℕ} {next : ℕ → List UInt8 → Except Fault (ℕ × List UInt8)}

/-- With the bits below `s` read, the reader is at what the writer puts for the rest. -/
theorem readSeptet_write (v : ℕ) (hr : r = v % 2 ^ s) (hu : u = v / 2 ^ s) (rest : List UInt8) :
    readSeptet s r (writeUvint32 u ++ rest) next =
      if 0x7F < u then next (v % 2 ^ (s + 7)) (writeUvint32 (v / 2 ^ (s + 7)) ++ rest)
      else .ok (v, rest) := by
  subst hr hu
  by_cases hlarge : 0x7F < v / 2 ^ s
  · have hbyte := toNat_ofNat_byte (show v / 2 ^ s % 128 + 128 < 256 by omega)
    have hmod : (v / 2 ^ s % 128 + 128) % 128 = v / 2 ^ s % 128 := by omega
    rw [if_pos hlarge, writeUvint32_large hlarge, List.cons_append, readSeptet]
    simp only [hbyte]
    rw [if_neg (by omega), and_septet, hmod, or_septet, div_septet]
  · have hsmall : v / 2 ^ s ≤ 0x7F := not_lt.mp hlarge
    have hbyte := toNat_ofNat_byte (show v / 2 ^ s < 256 by omega)
    rw [if_neg hlarge, writeUvint32_small hsmall, List.singleton_append, readSeptet]
    simp only [hbyte]
    rw [if_pos (by omega), and_septet, Nat.mod_eq_of_lt (Nat.lt_succ_of_le hsmall), or_last]

/-- The fifth byte holds the four bits that are left. -/
theorem or_fifth (h : v < 2 ^ 32) : v % 2 ^ 28 ||| (v / 2 ^ 28) <<< 28 % 2 ^ 32 = v := by
  have hlt : (v / 2 ^ 28) <<< 28 < 2 ^ 32 := by
    rw [Nat.shiftLeft_eq]
    omega
  rw [Nat.mod_eq_of_lt hlt]
  exact or_last v 28

theorem readUvint32Slow_write (h : v < 2 ^ 32) (rest : List UInt8) :
    readUvint32Slow (writeUvint32 v ++ rest) = .ok (v, rest) := by
  rw [readUvint32Slow, readSeptet_write v (Nat.mod_one v).symm (Nat.div_one v).symm]
  split
  · rw [readSeptet_write v rfl rfl]
    split
    · rw [readSeptet_write v rfl rfl]
      split
      · rw [readSeptet_write v rfl rfl]
        split
        · have hlast : v / 2 ^ (21 + 7) ≤ 0x7F := by omega
          have hbyte := toNat_ofNat_byte (show v / 2 ^ (21 + 7) < 256 by omega)
          rw [writeUvint32_small hlast, List.singleton_append]
          simp only [hbyte]
          rw [if_pos (by omega), or_fifth h]
        · rfl
      · rfl
    · rfl
  · rfl

theorem readUvint32_write (h : v < 2 ^ 32) (rest : List UInt8) :
    readUvint32 (writeUvint32 v ++ rest) = .ok (v, rest) := by
  rcases Nat.lt_or_ge 0x7F v with hlarge | hsmall
  · rw [← readUvint32Slow_write h rest, writeUvint32_large hlarge, List.cons_append, readUvint32]
    have hbyte := toNat_ofNat_byte (show v % 128 + 128 < 256 by omega)
    rw [hbyte, if_neg (by omega)]
  · have hbyte := toNat_ofNat_byte (show v < 256 by omega)
    rw [writeUvint32_small hsmall, List.singleton_append, readUvint32, hbyte, if_pos (by omega)]

end Read

section FailsafeRead

variable {s r u n : ℕ} {next : ℕ → ℕ → List UInt8 → Except Fault (Option (ℕ × List UInt8))}

theorem failsafeSeptet_zero (p : List UInt8) : failsafeSeptet s r 0 p next = .ok none := by
  unfold failsafeSeptet
  exact if_pos rfl

theorem failsafeSeptet_cons {b : UInt8} {p : List UInt8} (hn : n ≠ 0) :
    failsafeSeptet s r n (b :: p) next =
      if b.toNat < 0x80 then .ok (some (r ||| (b.toNat &&& 0x7F) <<< s, p))
      else next (r ||| (b.toNat &&& 0x7F) <<< s) (n - 1) p := by
  unfold failsafeSeptet
  exact if_neg hn

/-- A byte that is not the last of its number. -/
theorem failsafeSeptet_large (v : ℕ) (hr : r = v % 2 ^ s) (hu : u = v / 2 ^ s) (hn : n ≠ 0)
    (hlarge : 0x7F < u) (p : List UInt8) :
    failsafeSeptet s r n (UInt8.ofNat (u % 128 + 128) :: p) next =
      next (v % 2 ^ (s + 7)) (n - 1) p := by
  subst hr hu
  have hbyte := toNat_ofNat_byte (show v / 2 ^ s % 128 + 128 < 256 by omega)
  have hmod : (v / 2 ^ s % 128 + 128) % 128 = v / 2 ^ s % 128 := by omega
  rw [failsafeSeptet_cons hn, hbyte, if_neg (by omega), and_septet, hmod, or_septet]

theorem failsafeSeptet_write (v : ℕ) (hr : r = v % 2 ^ s) (hu : u = v / 2 ^ s)
    (hlen : (writeUvint32 u).length ≤ n) (rest : List UInt8) :
    failsafeSeptet s r n (writeUvint32 u ++ rest) next =
      if 0x7F < u then next (v % 2 ^ (s + 7)) (n - 1) (writeUvint32 (v / 2 ^ (s + 7)) ++ rest)
      else .ok (some (v, rest)) := by
  have hn : n ≠ 0 := by
    have := length_writeUvint32_pos u
    omega
  by_cases hlarge : 0x7F < u
  · rw [if_pos hlarge, writeUvint32_large hlarge, List.cons_append,
      failsafeSeptet_large v hr hu hn hlarge, hu, div_septet]
  · have hsmall : u ≤ 0x7F := not_lt.mp hlarge
    have hbyte := toNat_ofNat_byte (show u < 256 by omega)
    rw [if_neg hlarge, writeUvint32_small hsmall, List.singleton_append, failsafeSeptet_cons hn,
      hbyte, if_pos (by omega), and_septet, Nat.mod_eq_of_lt (Nat.lt_succ_of_le hsmall), hr, hu,
      or_last]

/-- A number that is cut off after `n` bytes. -/
theorem failsafeSeptet_take (v : ℕ) (hr : r = v % 2 ^ s) (hu : u = v / 2 ^ s)
    (hn : n < (writeUvint32 u).length) (rest : List UInt8) :
    failsafeSeptet s r n ((writeUvint32 u).take n ++ rest) next =
      if n = 0 then .ok none
      else next (v % 2 ^ (s + 7)) (n - 1)
        ((writeUvint32 (v / 2 ^ (s + 7))).take (n - 1) ++ rest) := by
  by_cases hzero : n = 0
  · rw [if_pos hzero, hzero, failsafeSeptet_zero]
  · rw [if_neg hzero]
    obtain ⟨m, rfl⟩ := Nat.exists_eq_succ_of_ne_zero hzero
    have hlarge : 0x7F < u := by
      by_contra hsmall
      rw [writeUvint32_small (not_lt.mp hsmall), List.length_singleton] at hn
      omega
    rw [writeUvint32_large hlarge, List.take_succ_cons, List.cons_append,
      failsafeSeptet_large v hr hu hzero hlarge, hu, div_septet]
    rfl

theorem length_writeUvint32_div (hlarge : 0x7F < u) (hu : u = v / 2 ^ s) :
    (writeUvint32 u).length = (writeUvint32 (v / 2 ^ (s + 7))).length + 1 := by
  rw [writeUvint32_large hlarge, List.length_cons, hu, div_septet]

theorem failsafeReadUvint32Slow_write (h : v < 2 ^ 32) (hn : (writeUvint32 v).length ≤ n)
    (rest : List UInt8) :
    failsafeReadUvint32Slow (writeUvint32 v ++ rest) n = .ok (some (v, rest)) := by
  have hnext : ∀ {s n : ℕ}, 0x7F < v / 2 ^ s → (writeUvint32 (v / 2 ^ s)).length ≤ n →
      (writeUvint32 (v / 2 ^ (s + 7))).length ≤ n - 1 := by
    intro s n hlarge hlen
    rw [length_writeUvint32_div hlarge rfl] at hlen
    omega
  rw [← Nat.div_one v] at hn
  rw [failsafeReadUvint32Slow, failsafeSeptet_write v (Nat.mod_one v).symm (Nat.div_one v).symm
    (by rwa [Nat.div_one] at hn)]
  split
  next h0 =>
    have hn := hnext (s := 0) (by rwa [Nat.pow_zero, Nat.div_one]) hn
    rw [failsafeSeptet_write v rfl rfl hn]
    split
    next h1 =>
      have hn := hnext h1 hn
      rw [failsafeSeptet_write v rfl rfl hn]
      split
      next h2 =>
        have hn := hnext h2 hn
        rw [failsafeSeptet_write v rfl rfl hn]
        split
        next h3 =>
          have hn := hnext h3 hn
          have hpos := (length_writeUvint32_pos _).trans_le hn
          have hbyte := toNat_ofNat_byte (show v / 2 ^ (21 + 7) < 256 by omega)
          rw [if_neg hpos.ne', writeUvint32_small (by omega), List.singleton_append]
          simp only [hbyte]
          rw [or_fifth h]
        next => rfl
      next => rfl
    next => rfl
  next => rfl

/-- Of a number that is cut off only the bytes that are there are read. -/
theorem failsafeReadUvint32Slow_take (h : v < 2 ^ 32) (hn : n < (writeUvint32 v).length)
    (rest : List UInt8) :
    failsafeReadUvint32Slow ((writeUvint32 v).take n ++ rest) n = .ok none := by
  have hnext : ∀ {s n : ℕ}, n < (writeUvint32 (v / 2 ^ s)).length → n ≠ 0 →
      n - 1 < (writeUvint32 (v / 2 ^ (s + 7))).length := by
    intro s n hlen hzero
    have hlarge : 0x7F < v / 2 ^ s := by
      by_contra hsmall
      rw [writeUvint32_small (not_lt.mp hsmall), List.length_singleton] at hlen
      omega
    rw [length_writeUvint32_div hlarge rfl] at hlen
    omega
  rw [failsafeReadUvint32Slow, failsafeSeptet_take v (Nat.mod_one v).symm (Nat.div_one v).symm hn]
  split
  next => rfl
  next h0 =>
    have hn := hnext (s := 0) (by rwa [Nat.pow_zero, Nat.div_one]) h0
    rw [failsafeSeptet_take v rfl rfl hn]
    split
    next => rfl
    next h1 =>
      have hn := hnext hn h1
      rw [failsafeSeptet_take v rfl rfl hn]
      split
      next => rfl
      next h2 =>
        have hn := hnext hn h2
        rw [failsafeSeptet_take v rfl rfl hn]
        split
        next => rfl
        next h3 =>
          have hn := hnext hn h3
          rw [writeUvint32_small (by omega), List.length_singleton] at hn
          exact if_pos (by omega)

theorem failsafeReadUvint32_write (h : v < 2 ^ 32) (hn : (writeUvint32 v).length ≤ n)
    (rest : List UInt8) :
    failsafeReadUvint32 (writeUvint32 v ++ rest) n = .ok (some (v, rest)) := by
  have hpos := length_writeUvint32_pos v
  rcases Nat.lt_or_ge 0x7F v with hlarge | hsmall
  · have hbyte := toNat_ofNat_byte (show v % 128 + 128 < 256 by omega)
    rw [← failsafeReadUvint32Slow_write h hn rest, writeUvint32_large hlarge, List.cons_append]
    unfold failsafeReadUvint32
    simp only [hbyte]
    rw [if_neg (by omega), if_neg (by omega)]
  · have hbyte := toNat_ofNat_byte (show v < 256 by omega)
    rw [writeUvint32_small hsmall, List.singleton_append]
    unfold failsafeReadUvint32
    simp only [hbyte]
    rw [if_neg (by omega), if_pos (by omega)]

theorem failsafeReadUvint32_take (h : v < 2 ^ 32) (hn : n < (writeUvint32 v).length)
    (rest : List UInt8) : failsafeReadUvint32 ((writeUvint32 v).take n ++ rest) n = .ok none := by
  by_cases hzero : n = 0
  · unfold failsafeReadUvint32
    exact if_pos hzero
  · obtain ⟨m, rfl⟩ := Nat.exists_eq_succ_of_ne_zero hzero
    have hlarge : 0x7F < v := by
      by_contra hsmall
      rw [writeUvint32_small (not_lt.mp hsmall), List.length_singleton] at hn
      omega
    have hbyte := toNat_ofNat_byte (show v % 128 + 128 < 256 by omega)
    rw [← failsafeReadUvint32Slow_take h hn rest, writeUvint32_large hlarge, List.take_succ_cons,
      List.cons_append]
    unfold failsafeReadUvint32
    simp only [hbyte]
    rw [if_neg hzero, if_neg (by omega)]

end FailsafeRead

section Skip

variable (rawv : Bool) (i : ℕ) {left n : ℕ}

theorem skipFrom_write (hleft : (writeUvint32 v).length ≤ left) (rest out : List UInt8) :
    skipFrom rawv i left (writeUvint32 v ++ rest) out =
      .ok (i + (writeUvint32 v).length, if rawv then out ++ writeUvint32 v else out) := by
  induction left generalizing v i out with
  | zero => exact absurd hleft (by have := length_writeUvint32_pos v; omega)
  | succ left ih =>
    rcases Nat.lt_or_ge 0x7F v with hlarge | hsmall
    · have hbyte := toNat_ofNat_byte (show v % 128 + 128 < 256 by omega)
      rw [writeUvint32_large hlarge, List.length_cons] at hleft ⊢
      rw [List.cons_append, skipFrom]
      simp only [hbyte]
      rw [if_neg (by omega), ih (i + 1) (by omega)]
      cases rawv <;> simp [Nat.add_assoc, Nat.add_comm 1]
    · have hbyte := toNat_ofNat_byte (show v < 256 by omega)
      rw [writeUvint32_small hsmall, List.singleton_append, skipFrom]
      simp only [hbyte]
      rw [if_pos (by omega)]
      rfl

theorem failsafeSkipFrom_write (hleft : (writeUvint32 v).length ≤ left)
    (hn : (writeUvint32 v).length ≤ n) (rest out : List UInt8) :
    failsafeSkipFrom rawv i left n (writeUvint32 v ++ rest) out =
      .ok (i + (writeUvint32 v).length, if rawv then out ++ writeUvint32 v else out) := by
  have hpos := length_writeUvint32_pos v
  induction left generalizing v i n out with
  | zero => omega
  | succ left ih =>
    obtain ⟨m, rfl⟩ := Nat.exists_eq_succ_of_ne_zero (show n ≠ 0 by omega)
    rcases Nat.lt_or_ge 0x7F v with hlarge | hsmall
    · have hbyte := toNat_ofNat_byte (show v % 128 + 128 < 256 by omega)
      rw [writeUvint32_large hlarge, List.length_cons] at hleft hn ⊢
      rw [List.cons_append, failsafeSkipFrom]
      simp only [hbyte]
      rw [if_neg (by omega), ih (i + 1) (by omega) (by omega) _ (length_writeUvint32_pos _)]
      cases rawv <;> simp [Nat.add_assoc, Nat.add_comm 1]
    · have hbyte := toNat_ofNat_byte (show v < 256 by omega)
      rw [writeUvint32_small hsmall, List.singleton_append, failsafeSkipFrom]
      simp only [hbyte]
      rw [if_pos (by omega)]
      rfl

theorem failsafeSkipFrom_take (hleft : (writeUvint32 v).length ≤ left)
    (hn : n < (writeUvint32 v).length) (rest out : List UInt8) :
    ∃ copied, failsafeSkipFrom rawv i left n ((writeUvint32 v).take n ++ rest) out =
      .ok (0, copied) := by
  induction left generalizing v i n out with
  | zero => omega
  | succ left ih =>
    cases n with
    | zero => exact ⟨out, by rw [failsafeSkipFrom]⟩
    | succ m =>
      have hlarge : 0x7F < v := by
        by_contra hsmall
        rw [writeUvint32_small (not_lt.mp hsmall), List.length_singleton] at hn
        omega
      have hbyte := toNat_ofNat_byte (show v % 128 + 128 < 256 by omega)
      rw [writeUvint32_large hlarge, List.length_cons] at hleft hn
      rw [writeUvint32_large hlarge, List.take_succ_cons, List.cons_append, failsafeSkipFrom]
      simp only [hbyte]
      rw [if_neg (by omega)]
      exact ih (i + 1) (by omega) (by omega) _

end Skip

end VarintLemmas

section Zigzag

/-- The sign goes to the lowest bit, and the others are inverted if it is set. -/
theorem getLsbD_zigzagEncode (v : BitVec 32) {i : ℕ} (hi : i < 32) :
    (zigzagEncode v).getLsbD i = ((decide (0 < i) && v.getLsbD (i - 1)) ^^ v.msb) := by
  have hsign : (v.sshiftRight 31).getLsbD i = v.msb := by
    rw [BitVec.getLsbD_sshiftRight]
    rcases Nat.eq_zero_or_pos i with rfl | hpos
    · simp [BitVec.msb_eq_getLsbD_last]
    · simp [show ¬ 32 ≤ i by omega, show ¬ 31 + i < 32 by omega]
  rw [zigzagEncode, BitVec.getLsbD_xor, hsign, BitVec.getLsbD_shiftLeft]
  simp [hi, Nat.pos_iff_ne_zero]

/-- The lowest bit, negated, is the sign in every bit. -/
theorem getLsbD_zigzagMask (v : BitVec 32) {i : ℕ} (hi : i < 32) :
    (-(zigzagEncode v &&& 1)).getLsbD i = v.msb := by
  have hlow : zigzagEncode v &&& 1 = if v.msb then 1 else 0 := by
    apply BitVec.eq_of_getLsbD_eq
    intro j hj
    rw [BitVec.getLsbD_and, getLsbD_zigzagEncode v hj]
    rcases Nat.eq_zero_or_pos j with rfl | hpos
    · cases v.msb <;> simp
    · cases v.msb <;> simp [hpos.ne']
  rw [hlow]
  cases v.msb with
  | false => simp
  | true =>
    rw [if_pos rfl, show (-1 : BitVec 32) = BitVec.allOnes 32 by decide, BitVec.getLsbD_allOnes]
    simpa using hi

theorem zigzagDecode_encode (v : BitVec 32) : zigzagDecode (zigzagEncode v) = v := by
  apply BitVec.eq_of_getLsbD_eq
  intro i hi
  rw [zigzagDecode, BitVec.getLsbD_xor, getLsbD_zigzagMask v hi, BitVec.getLsbD_ushiftRight]
  rcases Nat.lt_or_ge (1 + i) 32 with hlt | hge
  · rw [getLsbD_zigzagEncode v hlt, Nat.add_sub_cancel_left]
    simp
  · obtain rfl : i = 31 := by omega
    simp [BitVec.msb_eq_getLsbD_last]

end Zigzag

namespace Value

section FieldLemmas

variable {n : ℕ}

theorem length_write (f : Field) : (write f).length = nbytes f := by
  cases f with
  | int32 v => exact length_writeUvint32 (zigzagEncode v).isLt
  | uint32 v => exact length_writeUvint32 v.isLt
  | inlineStrFixed buf pos => rfl

theorem readBytes_append {buf : List UInt8} (pos : 0 < buf.length) (rest : List UInt8) :
    readBytes buf.length pos (buf ++ rest) = .ok (.inlineStrFixed buf pos, rest) := by
  simp [readBytes]

theorem read_write (f : Field) (rest : List UInt8) :
    read f.type (write f ++ rest) = .ok (f, rest) := by
  cases f with
  | int32 v =>
    rw [Field.type, write, read, readUvint32_write (zigzagEncode v).isLt]
    simp [Except.map, zigzagDecode_encode]
  | uint32 v =>
    rw [Field.type, write, read, readUvint32_write v.isLt]
    simp [Except.map]
  | inlineStrFixed buf pos => exact readBytes_append pos rest

theorem failsafeRead_write (f : Field) (hn : (write f).length ≤ n) (rest : List UInt8) :
    failsafeRead f.type (write f ++ rest) n = .ok (some (f, rest)) := by
  cases f with
  | int32 v =>
    rw [Field.type, write, failsafeRead, failsafeReadUvint32_write (zigzagEncode v).isLt hn]
    simp [Except.map, zigzagDecode_encode]
  | uint32 v =>
    rw [Field.type, write, failsafeRead, failsafeReadUvint32_write v.isLt hn]
    simp [Except.map]
  | inlineStrFixed buf pos =>
    rw [Field.type, write, failsafeRead, if_neg (show ¬ n < buf.length from not_lt.mpr hn),
      readBytes_append]
    rfl

theorem failsafeRead_take (f : Field) (hn : n < (write f).length) (rest : List UInt8) :
    failsafeRead f.type ((write f).take n ++ rest) n = .ok none := by
  cases f with
  | int32 v =>
    rw [Field.type, write, failsafeRead, failsafeReadUvint32_take (zigzagEncode v).isLt hn]
    rfl
  | uint32 v =>
    rw [Field.type, write, failsafeRead, failsafeReadUvint32_take v.isLt hn]
    rfl
  | inlineStrFixed buf pos => exact if_pos hn

theorem length_uvint32_le {v : ℕ} (h : v < 2 ^ 32) : (writeUvint32 v).length ≤ 5 := by
  rw [length_writeUvint32 h]
  exact (sizeUvint32_le v).2

theorem skip_write (f : Field) (rest : List UInt8) (rawv : Bool) :
    skip f.type (write f ++ rest) rawv = .ok ((write f).length, if rawv then write f else []) := by
  cases f with
  | int32 v =>
    have h := skipFrom_write rawv 0 (length_uvint32_le (zigzagEncode v).isLt) rest []
    rwa [Nat.zero_add, List.nil_append] at h
  | uint32 v =>
    have h := skipFrom_write rawv 0 (length_uvint32_le v.isLt) rest []
    rwa [Nat.zero_add, List.nil_append] at h
  | inlineStrFixed buf pos =>
    cases rawv with
    | true => simp [Field.type, write, skip]
    | false => rfl

theorem failsafeSkip_write (f : Field) (hn : (write f).length ≤ n) (rest : List UInt8)
    (rawv : Bool) : failsafeSkip f.type (write f ++ rest) n rawv =
      .ok ((write f).length, if rawv then write f else []) := by
  cases f with
  | int32 v =>
    have h := failsafeSkipFrom_write rawv 0
      (length_uvint32_le (zigzagEncode v).isLt) hn rest []
    rwa [Nat.zero_add, List.nil_append] at h
  | uint32 v =>
    have h := failsafeSkipFrom_write rawv 0 (length_uvint32_le v.isLt) hn rest []
    rwa [Nat.zero_add, List.nil_append] at h
  | inlineStrFixed buf pos =>
    rw [Field.type, failsafeSkip, if_neg (show ¬ n < buf.length from not_lt.mpr hn)]
    exact skip_write (.inlineStrFixed buf pos) rest rawv

theorem failsafeSkip_take (f : Field) (hn : n < (write f).length) (rest : List UInt8)
    (rawv : Bool) :
    ∃ copied, failsafeSkip f.type ((write f).take n ++ rest) n rawv = .ok (0, copied) := by
  cases f with
  | int32 v =>
    exact failsafeSkipFrom_take rawv 0 (length_uvint32_le (zigzagEncode v).isLt) hn rest []
  | uint32 v => exact failsafeSkipFrom_take rawv 0 (length_uvint32_le v.isLt) hn rest []
  | inlineStrFixed buf pos => exact ⟨[], if_pos hn⟩

end FieldLemmas

section Records

theorem encodeWrite_cons (f : Field) (obj : List Field) :
    encodeWrite (f :: obj) = write f ++ encodeWrite obj := List.flatMap_cons

theorem length_encodeWrite (obj : List Field) : (encodeWrite obj).length = encodeNbytes obj := by
  induction obj with
  | nil => rfl
  | cons f obj ih =>
    rw [encodeWrite_cons, List.length_append, ih, length_write]
    rfl

theorem encodeRead_encodeWrite (obj : List Field) (rest : List UInt8) :
    encodeRead (obj.map Field.type) (encodeWrite obj ++ rest) = .ok (obj, rest) := by
  induction obj with
  | nil => rfl
  | cons f obj ih =>
    rw [List.map_cons, encodeRead, encodeWrite_cons, List.append_assoc, read_write]
    show (do
      let (fs, buf) ← encodeRead (obj.map Field.type) (encodeWrite obj ++ rest)
      return (f :: fs, buf)) = _
    rw [ih]
    rfl

/-- After a field of `write f` the rest is read with the bytes that are left. -/
theorem encodeFailsafeRead_cons {f : Field} {ts : List FieldType} {n : ℕ} (rest : List UInt8)
    (hn : (write f).length ≤ n) :
    encodeFailsafeRead (f.type :: ts) (write f ++ rest) n = (do
      let r ← encodeFailsafeRead ts rest (n - (write f).length)
      return r.map fun (p : List Field × List UInt8) => (f :: p.1, p.2)) := by
  rw [encodeFailsafeRead, failsafeRead_write f hn]
  have hlen : (write f ++ rest).length - rest.length = (write f).length := by
    rw [List.length_append, Nat.add_sub_cancel]
  show (do
    let r ← encodeFailsafeRead ts rest (n - ((write f ++ rest).length - rest.length))
    return r.map fun (p : List Field × List UInt8) => (f :: p.1, p.2)) = _
  rw [hlen]

theorem encodeFailsafeRead_encodeWrite (obj : List Field) (rest : List UInt8) :
    encodeFailsafeRead (obj.map Field.type) (encodeWrite obj ++ rest) (encodeWrite obj).length =
      .ok (some (obj, rest)) := by
  induction obj with
  | nil => rfl
  | cons f obj ih =>
    rw [List.map_cons, encodeWrite_cons, List.append_assoc, List.length_append,
      encodeFailsafeRead_cons _ (Nat.le_add_right _ _), Nat.add_sub_cancel_left, ih]
    rfl

theorem encodeFailsafeRead_take (obj : List Field) {n : ℕ} (hn : n < (encodeWrite obj).length)
    (rest : List UInt8) :
    encodeFailsafeRead (obj.map Field.type) ((encodeWrite obj).take n ++ rest) n = .ok none := by
  induction obj generalizing n with
  | nil => exact absurd hn (Nat.not_lt_zero n)
  | cons f obj ih =>
    rw [encodeWrite_cons, List.length_append] at hn
    rw [List.map_cons, encodeWrite_cons, List.take_append, List.append_assoc]
    rcases Nat.lt_or_ge n (write f).length with hlt | hge
    · -- the field itself is cut off
      rw [encodeFailsafeRead, failsafeRead_take f hlt]
      rfl
    · rw [List.take_of_length_le hge, encodeFailsafeRead_cons _ hge, ih (by omega)]
      rfl

end Records

/-- What was written is read back, by every reader and with any bytes after it. -/
theorem value_round_trip (obj : List Field) (rest : List UInt8) :
    (encodeWrite obj).length = encodeNbytes obj ∧
      encodeRead (obj.map Field.type) (encodeWrite obj ++ rest) = .ok (obj, rest) ∧
      encodeFailsafeRead (obj.map Field.type) (encodeWrite obj ++ rest) (encodeNbytes obj) =
        .ok (some (obj, rest)) ∧
      (∀ n < encodeNbytes obj,
        encodeFailsafeRead (obj.map Field.type) ((encodeWrite obj).take n ++ rest) n = .ok none) ∧
      ∀ f ∈ obj,
        ((f.type = .int32 ∨ f.type = .uint32) →
          1 ≤ (write f).length ∧ (write f).length ≤ 5) ∧
        read f.type (write f ++ rest) = .ok (f, rest) ∧
        ∀ rawv, skip f.type (write f ++ rest) rawv =
            .ok ((write f).length, if rawv then write f else []) ∧
          (∀ n, (write f).length ≤ n → failsafeSkip f.type (write f ++ rest) n rawv =
            .ok ((write f).length, if rawv then write f else [])) ∧
          ∀ n < (write f).length,
            ∃ copied, failsafeSkip f.type ((write f).take n ++ rest) n rawv = .ok (0, copied) := by
  rw [← length_encodeWrite]
  refine ⟨rfl, encodeRead_encodeWrite obj rest, encodeFailsafeRead_encodeWrite obj rest,
    fun n hn => encodeFailsafeRead_take obj hn rest, fun f _ => ⟨fun _ => ?_, read_write f rest,
      fun rawv => ⟨skip_write f rest rawv, fun n hn => failsafeSkip_write f hn rest rawv,
        fun n hn => failsafeSkip_take f hn rest rawv⟩⟩⟩
  rw [length_write]
  cases f with
  | int32 v => exact sizeUvint32_le _
  | uint32 v => exact sizeUvint32_le _
  | inlineStrFixed buf pos => simp [Field.type] at *

end Value

end Record

end PreemptDB
