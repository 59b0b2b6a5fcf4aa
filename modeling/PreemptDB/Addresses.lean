/-
What a fat pointer can tell apart (`dbcore/sm-common.h`), and the addresses that
a set of logs uses (`GetLog` in `engine.cc`, `allocate_log_block`).

Memory addresses, XIDs, CSNs and log addresses share the 64 bits of a `fat_ptr`.
The id of a log is its number in `tlogs`, and a segment number is a number in
`segments`; both grow, and `LSN::make` checks neither in a release build.

* `Address.toPtr_injective` — addresses within the widths of their fields differ
  in their words;
* `LSN.readBack_iff` — a log address is read back if and only if it fits;
* `persistent_addresses` — the runs in which all addresses of all logs fit;
* `seventeenth_segment` — a run in which one does not.
-/
import PreemptDB.TlsLog

namespace PreemptDB

open StepRun

namespace FatPtr

/-- The value of `ASI_XID`. -/
def asiXid : ℕ := 0x40

/-- `fat_ptr::make(n, sz_code, flags)`. -/
def make (n code flags : ℕ) : FatPtr := ⟨(n <<< 16) % 2 ^ 64 ||| code ||| flags⟩

/-- The fields of a word that is not dirty. -/
theorem fields {p : FatPtr} {v a c : ℕ} (hw : p.word = v * 2 ^ 16 + (a * 2 ^ 8 + c))
    (ha : a < 2 ^ 7) (hc : c < 2 ^ 8) : p.offset = v ∧ p.asi = a ∧ p.sizeCode = c := by
  refine ⟨?_, ?_, ?_⟩
  · rw [offset, hw, Nat.shiftRight_eq_div_pow]
    omega
  · rw [asi, hw, Nat.shiftRight_eq_div_pow, show (0x7f : ℕ) = 2 ^ 7 - 1 from rfl,
      Nat.and_two_pow_sub_one_eq_mod]
    omega
  · rw [sizeCode, hw, show (0xff : ℕ) = 2 ^ 8 - 1 from rfl, Nat.and_two_pow_sub_one_eq_mod]
    omega

theorem make_word {n code : ℕ} (hn : n < 2 ^ 48) (hc : code < 2 ^ 8) :
    (make n code 0).word = n * 2 ^ 16 + (0 * 2 ^ 8 + code) := by
  have hmod : (n <<< 16) % 2 ^ 64 = 2 ^ 16 * n := by
    rw [Nat.shiftLeft_eq]
    omega
  rw [make, hmod, Nat.or_zero, ← Nat.two_pow_add_eq_or_of_lt (i := 16) (by omega)]
  ring

end FatPtr

namespace XID

/-- `XID::make(e, i).to_ptr()`: the shifts drop the upper half of the epoch. -/
def make (e i : ℕ) : FatPtr :=
  ⟨((((e <<< 32) ||| i) <<< 16) % 2 ^ 64 ||| FatPtr.asiXid <<< 8) ||| invalidSizeCode⟩

def epoch (p : FatPtr) : ℕ := (p.word >>> 48) % 2 ^ 16

/-- `XID::local`. -/
def localId (p : FatPtr) : ℕ := (p.word >>> 16) % 2 ^ 32

theorem make_word (e : ℕ) {i : ℕ} (hi : i < 2 ^ 32) :
    (make e i).word = (e % 2 ^ 16 * 2 ^ 32 + i) * 2 ^ 16 + (0x40 * 2 ^ 8 + 0xff) := by
  have hor : e <<< 32 ||| i = 2 ^ 32 * e + i := by
    rw [Nat.shiftLeft_eq, mul_comm, Nat.two_pow_add_eq_or_of_lt hi]
  have hmod : ((2 ^ 32 * e + i) <<< 16) % 2 ^ 64 = 2 ^ 16 * (e % 2 ^ 16 * 2 ^ 32 + i) := by
    rw [Nat.shiftLeft_eq]
    omega
  have hflags : 2 ^ 16 * (e % 2 ^ 16 * 2 ^ 32 + i) + 0x40ff =
      2 ^ 16 * (e % 2 ^ 16 * 2 ^ 32 + i) ||| 0x40ff :=
    Nat.two_pow_add_eq_or_of_lt (by norm_num) _
  rw [make, hor, hmod, Nat.or_assoc, mul_comm (_ + i), show FatPtr.asiXid <<< 8 ||| invalidSizeCode
    = 0x40ff from rfl, ← hflags]
  rfl

theorem epoch_make (e : ℕ) {i : ℕ} (hi : i < 2 ^ 32) : epoch (make e i) = e % 2 ^ 16 := by
  rw [epoch, make_word e hi, Nat.shiftRight_eq_div_pow]
  omega

theorem localId_make (e : ℕ) {i : ℕ} (hi : i < 2 ^ 32) : localId (make e i) = i := by
  rw [localId, make_word e hi, Nat.shiftRight_eq_div_pow]
  omega

end XID

/-- What a fat pointer stands for. -/
inductive Address
  | memory (n code : ℕ)
  | xid (epoch localId : ℕ)
  | csn (c : ℕ)
  | log (l : LSN) (code : ℕ)
  deriving DecidableEq, Repr

namespace Address

def toPtr : Address → FatPtr
  | .memory n code => .make n code 0
  | .xid e i => XID.make e i
  | .csn c => CSN.make c
  | .log l code => l.toPtr code

def asiType : Address → ℕ
  | .memory _ _ => 0
  | .xid _ _ => FatPtr.asiXid
  | .csn _ => FatPtr.asiCsn
  | .log _ _ => FatPtr.asiLog

/-- The fields are within their widths. -/
def InRange : Address → Prop
  | .memory n code => n < 2 ^ 48 ∧ code < 2 ^ 8
  | .xid e i => e < 2 ^ 16 ∧ i < 2 ^ 32
  | .csn c => c < CSN.limit
  | .log l code => l.Encodable ∧ code < 2 ^ 8

/-- The value, the ASI and the size code of an address. -/
def parts : Address → ℕ × ℕ × ℕ
  | .memory n code => (n, 0, code)
  | .xid e i => (e * 2 ^ 32 + i, 0x40, 0xff)
  | .csn c => (c, 0x60, 0xff)
  | .log l code => (l.logid * 2 ^ 40 + l.loffset, 0x10 + l.segment, code)

theorem parts_lt {a : Address} (h : a.InRange) : a.parts.2.1 < 2 ^ 7 ∧ a.parts.2.2 < 2 ^ 8 := by
  cases a with
  | memory n code => exact ⟨by norm_num [parts], h.2⟩
  | xid _ _ | csn _ => exact ⟨by norm_num [parts], by norm_num [parts]⟩
  | log l code =>
    have hseg := h.1.segment
    exact ⟨by dsimp only [parts]; omega, h.2⟩

theorem toPtr_word {a : Address} (h : a.InRange) :
    a.toPtr.word = a.parts.1 * 2 ^ 16 + (a.parts.2.1 * 2 ^ 8 + a.parts.2.2) := by
  cases a with
  | memory n code => exact FatPtr.make_word h.1 h.2
  | xid e i => rw [toPtr, XID.make_word e h.2, parts, Nat.mod_eq_of_lt h.1]
  | csn c =>
    rw [toPtr, CSN.make_word, Nat.mod_eq_of_lt h, parts]
    norm_num
  | log l code =>
    rw [toPtr, LSN.toPtr_word h.1 h.2, parts]
    ring

theorem parts_injective {a b : Address} (ha : a.InRange) (hb : b.InRange)
    (h : a.parts = b.parts) : a = b := by
  -- the ASI says which of the four an address is
  cases a <;> cases b <;> simp only [parts, Prod.mk.injEq] at h <;>
    simp only [InRange] at ha hb
  case memory.memory => rw [h.1, h.2.2]
  case xid.xid =>
    congr 1 <;> omega
  case csn.csn => rw [h.1]
  case log.log l code l' code' =>
    obtain ⟨⟨hl, ho, hs⟩, -⟩ := ha
    obtain ⟨⟨hl', ho', hs'⟩, -⟩ := hb
    obtain ⟨logid, loffset, segment⟩ := l
    obtain ⟨logid', loffset', segment'⟩ := l'
    dsimp only at *
    congr 1
    · congr 1 <;> omega
    · omega
  case log.xid l code e i =>
    have := ha.1.segment
    omega
  case xid.log e i l code =>
    have := hb.1.segment
    omega
  case log.csn l code c =>
    have := ha.1.segment
    omega
  case csn.log c l code =>
    have := hb.1.segment
    omega
  all_goals omega

theorem toPtr_injective {a b : Address} (ha : a.InRange) (hb : b.InRange)
    (h : a.toPtr = b.toPtr) : a = b := by
  obtain ⟨hv, hasi, hc⟩ := FatPtr.fields (toPtr_word ha) (parts_lt ha).1 (parts_lt ha).2
  obtain ⟨hv', hasi', hc'⟩ := FatPtr.fields (toPtr_word hb) (parts_lt hb).1 (parts_lt hb).2
  rw [← h] at hv' hasi' hc'
  refine parts_injective ha hb (Prod.ext (hv.symm.trans hv') (Prod.ext ?_ ?_))
  · exact hasi.symm.trans hasi'
  · exact hc.symm.trans hc'

theorem toPtr_asiType {a : Address} (h : a.InRange) : a.toPtr.asiType = a.asiType := by
  obtain ⟨-, hasi, -⟩ := FatPtr.fields (toPtr_word h) (parts_lt h).1 (parts_lt h).2
  cases a with
  | memory n code =>
    rw [FatPtr.asiType, hasi]
    exact Nat.zero_and _
  | xid e i =>
    rw [FatPtr.asiType, hasi]
    change (0x40 : ℕ) &&& 0xfff0 = 0x40
    rfl
  | csn c => exact CSN.make_asiType c
  | log l code => exact LSN.toPtr_asiType h.1 h.2

end Address

namespace LSN

/-- A log address with its size code survives the way through a fat pointer. -/
structure ReadBack (l : LSN) (code : ℕ) : Prop where
  asiType : (l.toPtr code).asiType = FatPtr.asiLog
  sizeCode : (l.toPtr code).sizeCode = code
  fromPtr : LSN.fromPtr (l.toPtr code) = l

theorem toPtr_word_lt (l : LSN) (code : ℕ) : (l.toPtr code).word < 2 ^ 64 :=
  Nat.or_lt_two_pow (Nat.mod_lt _ (by norm_num)) (by decide)

theorem readBack_iff {l : LSN} {code : ℕ} (ho : l.loffset < 2 ^ 40) (hc : code < 2 ^ 8) :
    l.ReadBack code ↔ l.Encodable := by
  refine ⟨fun h => ⟨?_, ho, ?_⟩, fun h => ⟨toPtr_asiType h hc, toPtr_sizeCode h hc,
    from_toPtr h hc⟩⟩
  · -- the id that is read back has eight bits
    have hlt := toPtr_word_lt l code
    have hid : l.logid = (l.toPtr code).word >>> 16 >>> 40 := (congrArg logid h.fromPtr).symm
    rw [hid, Nat.shiftRight_eq_div_pow, Nat.shiftRight_eq_div_pow]
    omega
  · have hseg : l.segment = (l.toPtr code).asi &&& 0x0f := (congrArg segment h.fromPtr).symm
    rw [hseg]
    exact lt_of_le_of_lt Nat.and_le_right (by norm_num)

end LSN

namespace TlsLog

/-- The segment numbers that were returned: those of all segments, except perhaps that
of the first one. -/
structure SegInv (L : TlsLog) : Prop where
  le : ∀ b ∈ L.allocated, b.segnum ≤ L.old.length
  used : ∀ i, 0 < i → i ≤ L.old.length → ∃ b ∈ L.allocated, b.segnum = i

variable {cfg : LogConfig} {L L' : TlsLog}

theorem segInv_init : SegInv init where
  le _ h := by cases h
  used _ hpos hle := absurd hpos (Nat.not_lt.mpr hle)

theorem SegInv.congr (h : SegInv L) (hold : L'.old = L.old)
    (hall : L'.allocated = L.allocated) : SegInv L' := by
  refine ⟨?_, ?_⟩
  · rw [hall, hold]
    exact h.le
  · rw [hall, hold]
    exact h.used

/-- A block is placed, in a new segment or not. -/
theorem SegInv.finishAllocate (h : SegInv L) (payload csn : ℕ) (n : Bool) :
    SegInv (L.finishAllocate payload csn n) := by
  cases n with
  | false =>
    refine ⟨fun b hb => ?_, fun i hpos hle => ?_⟩
    · rcases List.mem_append.mp hb with hb | hb
      · exact h.le b hb
      · rw [List.mem_singleton.mp hb]
        exact le_rfl
    · obtain ⟨b, hb, hi⟩ := h.used i hpos hle
      exact ⟨b, List.mem_append_left _ hb, hi⟩
  | true =>
    have hlen : (L.old ++ [L.current]).length = L.old.length + 1 := List.length_append
    refine ⟨fun b hb => ?_, fun i hpos hle => ?_⟩
    · change b.segnum ≤ (L.old ++ [L.current]).length
      rcases List.mem_append.mp hb with hb | hb
      · have := h.le b hb
        omega
      · rw [List.mem_singleton.mp hb]
        exact le_rfl
    · change i ≤ (L.old ++ [L.current]).length at hle
      by_cases hi : i ≤ L.old.length
      · obtain ⟨b, hb, hi⟩ := h.used i hpos hi
        exact ⟨b, List.mem_append_left _ hb, hi⟩
      · refine ⟨_, List.mem_append_right _ (List.mem_singleton_self _), ?_⟩
        change (L.old ++ [L.current]).length = i
        omega

theorem SegInv.pollFlush (h : SegInv L) (hp : L.pollFlush = some L') : SegInv L' := by
  rw [TlsLog.pollFlush] at hp
  split at hp
  · obtain ⟨-, hp⟩ := Option.ite_none_right_eq_some.mp hp
    cases hp
    exact h.congr rfl rfl
  · cases hp

theorem SegInv.pad (h : SegInv L) (hp : L.pad cfg = some L') : SegInv L' := by
  obtain ⟨aligned, -, rfl⟩ := Option.map_eq_some_iff.mp hp
  exact h.congr rfl rfl

theorem SegInv.step (h : SegInv L) {a : LogAct} (hs : logStep cfg L a = some L') : SegInv L' := by
  cases logStep_move hs with
  | allocate _ _ _ | flush _ _ | complete _ _ | empty _ _ _ _ => exact h.congr rfl rfl
  | pad _ _ _ _ _ _ hM | issue _ _ _ _ _ hM => exact (h.pad hM).congr rfl rfl
  | place _ _ _ _ _ => exact h.finishAllocate _ _ _
  | pollAllocate _ _ _ _ _ _ hM | poll _ _ _ _ hM => exact h.pollFlush hM
  | switch _ _ _ _ _ =>
    have hissue : SegInv L.issueFlush.switchLogBuffers := h.congr rfl rfl
    exact hissue.finishAllocate _ _ _
  | lastPoll _ _ hM => exact (h.pollFlush hM).congr rfl rfl

end TlsLog

/-- What happens to the logs of all threads. -/
inductive LogsAct
  /-- the first `GetLog` of a thread -/
  | getLog
  | log (i : ℕ) (a : LogAct)
  deriving DecidableEq, Repr

/-- One step of `tlogs`; the id of a new log is the number of logs before it. -/
def logsStep (cfg : LogConfig) (tlogs : List TlsLog) : LogsAct → Option (List TlsLog)
  | .getLog => some (tlogs ++ [TlsLog.init])
  | .log i a => (tlogs[i]?.bind fun L => logStep cfg L a).map (tlogs.set i)

/-- An address in a block that some log has returned. -/
def InUse (tlogs : List TlsLog) (l : LSN) : Prop :=
  ∃ L b, tlogs[l.logid]? = some L ∧ b ∈ L.allocated ∧ b.segnum = l.segment ∧ l.loffset < 2 ^ 40

/-- The addresses of a run: of memory, XIDs and CSNs all that fit, and the log addresses
in use. -/
def Address.Used (tlogs : List TlsLog) : Address → Prop
  | .log l code => InUse tlogs l ∧ code < 2 ^ 8
  | a => a.InRange

/-- There are at most 256 logs in use, with at most 16 segments each. -/
def FitsPtr (tlogs : List TlsLog) : Prop :=
  ∀ i L, tlogs[i]? = some L → L.allocated ≠ [] → i < 2 ^ 8 ∧ L.segments.length ≤ 2 ^ 4

section

variable {cfg : LogConfig} {tlogs tlogs' : List TlsLog}

theorem logsStep_segInv {a : LogsAct} (hs : logsStep cfg tlogs a = some tlogs')
    (h : ∀ L ∈ tlogs, L.SegInv) : ∀ L ∈ tlogs', L.SegInv := by
  cases a with
  | getLog =>
    cases hs
    intro L hL
    rcases List.mem_append.mp hL with hL | hL
    · exact h L hL
    · rw [List.mem_singleton.mp hL]
      exact TlsLog.segInv_init
  | log i a =>
    obtain ⟨L', hL', rfl⟩ := Option.map_eq_some_iff.mp hs
    obtain ⟨L, hL, hstep⟩ := Option.bind_eq_some_iff.mp hL'
    intro L₁ hL₁
    rcases List.mem_or_eq_of_mem_set hL₁ with hL₁ | rfl
    · exact h L₁ hL₁
    · exact (h L (List.mem_of_getElem? hL)).step hstep

theorem InUse.encodable {l : LSN} (h : InUse tlogs l) (hinv : ∀ L ∈ tlogs, L.SegInv)
    (hfits : FitsPtr tlogs) : l.Encodable := by
  obtain ⟨L, b, hL, hb, hseg, ho⟩ := h
  obtain ⟨hid, hlen⟩ := hfits _ L hL (List.ne_nil_of_mem hb)
  have hle := (hinv L (List.mem_of_getElem? hL)).le b hb
  rw [TlsLog.segments, List.length_append, List.length_singleton] at hlen
  exact ⟨hid, ho, by omega⟩

theorem Address.Used.inRange {a : Address} (h : a.Used tlogs) (hinv : ∀ L ∈ tlogs, L.SegInv)
    (hfits : FitsPtr tlogs) : a.InRange := by
  cases a with
  | log l code => exact ⟨h.1.encodable hinv hfits, h.2⟩
  | memory n code => exact h
  | xid e i => exact h
  | csn c => exact h

/-- **Addresses.**  In every run of any number of threads: all addresses of blocks are read
back if and only if at most 256 logs with at most 16 segments each are in use; then all
addresses of the run differ in their words; and addresses within the widths of their fields
always do, and say what they are. -/
theorem persistent_addresses {acts : List LogsAct}
    (hr : run (logsStep cfg) [] acts = some tlogs) :
    ((∀ l code, InUse tlogs l → code < 2 ^ 8 → l.ReadBack code) ↔ FitsPtr tlogs) ∧
    (FitsPtr tlogs → ∀ a b : Address, a.Used tlogs → b.Used tlogs → a.toPtr = b.toPtr → a = b) ∧
    ∀ a : Address, a.InRange → a.toPtr.asiType = a.asiType ∧
      ∀ b : Address, b.InRange → a.toPtr = b.toPtr → a = b := by
  have hinv : ∀ L ∈ tlogs, L.SegInv :=
    run_invariant (I := fun tlogs => ∀ L ∈ tlogs, L.SegInv) (fun hs => logsStep_segInv hs) hr
      (fun L hL => by cases hL)
  refine ⟨⟨fun h i L hL hne => ?_, fun hfits l code hl hc => ?_⟩, fun hfits a b ha hb => ?_,
    fun a ha => ⟨Address.toPtr_asiType ha, fun b hb => Address.toPtr_injective ha hb⟩⟩
  · -- some block has the last segment number
    have hback : ∀ b ∈ L.allocated, LSN.Encodable ⟨i, 0, b.segnum⟩ := fun b hb =>
      (LSN.readBack_iff (by norm_num) (show 0 < 2 ^ 8 by norm_num)).mp
        (h ⟨i, 0, b.segnum⟩ 0 ⟨L, b, hL, hb, rfl, by norm_num⟩ (by norm_num))
    obtain ⟨b₀, hb₀⟩ := List.exists_mem_of_ne_nil _ hne
    refine ⟨(hback b₀ hb₀).logid, ?_⟩
    rw [TlsLog.segments, List.length_append, List.length_singleton]
    by_cases hpos : 0 < L.old.length
    · obtain ⟨b, hb, hseg⟩ := (hinv L (List.mem_of_getElem? hL)).used _ hpos le_rfl
      have hlt : b.segnum < 2 ^ 4 := (hback b hb).segment
      omega
    · omega
  · exact (LSN.readBack_iff hl.choose_spec.choose_spec.2.2.2 hc).mpr (hl.encodable hinv hfits)
  · exact Address.toPtr_injective (ha.inRange hinv hfits) (hb.inRange hinv hfits)

end

/-- Buffers of 2 MB and segments of 1 MB. -/
def oneMegabyte : LogConfig where
  logbufSize := 2 * 1024 * 1024
  segmentSize := 1024 * 1024
  directIo := false

/-- What is left of a segment after the header of a block. -/
def wholeSegment : ℕ := 1024 * 1024 - pageSize

/-- A block for a whole segment; the write of the block before has completed. -/
def nextSegment (csn : ℕ) : List LogsAct :=
  [.log 0 (.allocate wholeSegment csn), .log 0 .proceed, .log 0 .complete, .log 0 .proceed,
    .log 0 .proceed]

/-- Two blocks, in two segments. -/
def twoSegments : List LogsAct :=
  [.getLog, .log 0 (.allocate wholeSegment 1), .log 0 .proceed,
    .log 0 (.allocate wholeSegment 2), .log 0 .proceed, .log 0 .proceed]

theorem persistent_addresses_twoSegments :
    ∃ tlogs, run (logsStep oneMegabyte) [] twoSegments = some tlogs ∧
      InUse tlogs ⟨0, 1024 * 1024, 1⟩ ∧ LSN.ReadBack ⟨0, 1024 * 1024, 1⟩ 7 := by
  have hlen : (run (logsStep oneMegabyte) [] twoSegments).map
      (·.map fun L => (L.segments.length, L.allocated.map Block.segnum)) = some [(2, [0, 1])] := by
    decide +kernel
  obtain ⟨tlogs, hr, hmap⟩ := Option.map_eq_some_iff.mp hlen
  obtain ⟨L, rfl, hL⟩ := List.map_eq_singleton_iff.mp hmap
  obtain ⟨hsegs, hall⟩ := Prod.mk.inj hL
  obtain ⟨b, hb, hseg⟩ : ∃ b ∈ L.allocated, b.segnum = 1 := by
    refine List.mem_map.mp ?_
    rw [hall]
    decide
  have huse : InUse [L] ⟨0, 1024 * 1024, 1⟩ := ⟨L, b, rfl, hb, hseg, by decide⟩
  refine ⟨[L], hr, huse, (persistent_addresses hr).1.mpr (fun i L' hL' _ => ?_) _ _ huse
    (by norm_num)⟩
  rcases i with _ | i
  · cases hL'
    exact ⟨by norm_num, by rw [hsegs]; norm_num⟩
  · cases hL'

/-- The address of a block in the seventeenth segment, which is read back as one in the
first. -/
theorem seventeenth_segment :
    ∃ tlogs, run (logsStep oneMegabyte) []
        (twoSegments ++ (List.range 15).flatMap nextSegment) = some tlogs ∧
      InUse tlogs ⟨0, 16777216, 16⟩ ∧
      LSN.fromPtr (LSN.toPtr ⟨0, 16777216, 16⟩ 7) = ⟨0, 16777216, 0⟩ ∧
      ¬ LSN.ReadBack ⟨0, 16777216, 16⟩ 7 := by
  have hall : (run (logsStep oneMegabyte) []
      (twoSegments ++ (List.range 15).flatMap nextSegment)).map
        (·.map fun L => L.allocated.map fun b => (b.lsn, b.segnum))
      = some [(List.range 17).map fun i => (1024 * 1024 * i, i)] := by
    decide +kernel
  obtain ⟨tlogs, hr, hmap⟩ := Option.map_eq_some_iff.mp hall
  obtain ⟨L, rfl, hL⟩ := List.map_eq_singleton_iff.mp hmap
  obtain ⟨b, hb, hseg⟩ : ∃ b ∈ L.allocated, (b.lsn, b.segnum) = (16777216, 16) := by
    refine List.mem_map.mp ?_
    rw [hL]
    decide
  exact ⟨[L], hr, ⟨L, b, rfl, hb, (Prod.mk.inj hseg).2, by norm_num⟩, by decide,
    fun h => absurd h.fromPtr (by decide)⟩

end PreemptDB
