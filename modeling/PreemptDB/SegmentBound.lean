/-
How large a segment gets.

`allocate_log_block` opens a segment if the block would not fit behind the bytes
in the active buffer.  If the block also needs the other buffer, these bytes are
padded to a page first, and the check has not counted the padding.

* `RoomInv` — what is expected in the open segment and the padded buffer fit;
* `FileInv` — the expected size counts the bytes that go to the file;
* `segment_bound` — both hold if the check agrees with the padded size;
* `overfull_segment` — two blocks of two pages in a segment of three.
-/
import PreemptDB.LogPlacement

namespace PreemptDB

/-- A call allocates a block that fits into a buffer and into a segment. -/
def BlockFits (cfg : LogConfig) : LogAct → Prop
  | .allocate payload _ =>
    payload + pageSize ≤ cfg.logbufSize ∧ payload + pageSize ≤ cfg.segmentSize
  | _ => True

instance (cfg : LogConfig) : ∀ a, Decidable (BlockFits cfg a)
  | .allocate _ _ => inferInstanceAs (Decidable (_ ∧ _))
  | .flush _ | .complete | .proceed => isTrue trivial

namespace TlsLog

variable {cfg : LogConfig} {L L' : TlsLog}

/-- The bytes of a buffer as they are written. -/
def padded (cfg : LogConfig) (size : ℕ) : ℕ := if cfg.directIo then alignUp size pageSize else size

/-- If the block goes to the other buffer, the check of the segment decides as it
would for the padded bytes. -/
def SegmentOk (cfg : LogConfig) (L : TlsLog) (a : LogAct) : Prop :=
  a = .proceed → ∀ payload ∈ L.pc.allocating, needsBuffer cfg L payload = true →
    cfg.segmentSize < allocSize payload + padded cfg L.logbufOffset + L.current.expectedSize →
      needsSegment cfg L payload = true

instance (cfg : LogConfig) (L : TlsLog) (a : LogAct) : Decidable (SegmentOk cfg L a) :=
  inferInstanceAs (Decidable (_ → _))

/-! ### The open segment -/

/-- With direct I/O, a number of bytes is one of whole pages. -/
def Paged (cfg : LogConfig) (size : ℕ) : Prop := cfg.directIo = true → pageSize ∣ size

/-- What fits, fits padded. -/
theorem padded_fits (hseg : pageSize ∣ cfg.segmentSize) {m n : ℕ} (hm : Paged cfg m)
    (h : m + n ≤ cfg.segmentSize) : m + padded cfg n ≤ cfg.segmentSize := by
  rw [padded]
  split
  next hdio =>
    have hm := hm hdio
    simp only [alignUp, alignDown, pageSize] at *
    omega
  next => exact h

theorem le_padded (n : ℕ) : n ≤ padded cfg n := by
  rw [padded]
  split
  · exact le_alignUp (by decide)
  · exact le_rfl

/-- The padded buffer is one of whole pages, no longer than before. -/
theorem pad_padded (hp : L.pad cfg = some L') : Paged cfg L'.logbufOffset ∧
    L'.logbufOffset ≤ padded cfg L.logbufOffset ∧ L'.current = L.current ∧ L'.ring = L.ring ∧
    L'.written = L.written ∧ L'.flushing = L.flushing ∧ L'.old = L.old := by
  obtain ⟨aligned, ha, rfl⟩ := Option.map_eq_some_iff.mp hp
  have hal : aligned = padded cfg L.logbufOffset := by
    rw [alignUpFlushSize] at ha
    rw [padded]
    split_ifs at ha ⊢ <;> cases ha <;> rfl
  refine ⟨fun hdio => ?_, hal ▸ Nat.mod_le _ _, rfl, rfl, rfl, rfl, rfl⟩
  show pageSize ∣ aligned % 2 ^ 32
  rw [hal, padded, if_pos hdio]
  simp only [alignUp, alignDown, pageSize]
  omega

/-- The open segment has room for the active buffer. -/
structure RoomInv (cfg : LogConfig) (L : TlsLog) : Prop where
  paged : Paged cfg L.current.expectedSize
  room : L.current.expectedSize + padded cfg L.logbufOffset ≤ cfg.segmentSize
  block : ∀ {payload csn}, L.pc = .allocate payload csn →
    allocSize payload ≤ cfg.logbufSize ∧ allocSize payload ≤ cfg.segmentSize
  flush : ∀ {payload csn n}, L.pc = .allocateFlush payload csn n →
    Paged cfg L.logbufOffset ∧ allocSize payload ≤ cfg.segmentSize ∧ (n = false →
      L.current.expectedSize + L.logbufOffset + allocSize payload ≤ cfg.segmentSize)

theorem roomInv_init : RoomInv cfg init where
  paged _ := dvd_zero _
  room := by
    have : padded cfg 0 = 0 := by
      rw [padded]
      split <;> rfl
    simp [init, this]
  block h := by cases h
  flush h := by cases h

theorem allocSize_le (payload : ℕ) : allocSize payload ≤ payload + pageSize := Nat.mod_le _ _

namespace RoomInv

theorem congr (h : RoomInv cfg L) (hsize : L'.current.expectedSize = L.current.expectedSize)
    (hoff : L'.logbufOffset = L.logbufOffset) (hpc : L'.pc = L.pc) : RoomInv cfg L' :=
  ⟨hsize ▸ h.paged, by rw [hsize, hoff]; exact h.room, by rw [hpc]; exact h.block,
    by rw [hpc, hsize, hoff]; exact h.flush⟩

theorem poll (h : RoomInv cfg L) (hp : L.pollFlush = some L') : RoomInv cfg L' := by
  obtain ⟨w, -, -, rfl⟩ := pollFlush_eq_some hp
  exact h.congr rfl rfl rfl

/-- At the end of a call, or before the space is looked for. -/
theorem goto (h : RoomInv cfg L) {pc : LogPc}
    (hb : ∀ {payload csn}, pc = .allocate payload csn →
      allocSize payload ≤ cfg.logbufSize ∧ allocSize payload ≤ cfg.segmentSize)
    (hpc : ∀ {payload csn n}, pc ≠ .allocateFlush payload csn n) :
    RoomInv cfg { L with pc := pc } :=
  ⟨h.paged, h.room, hb, fun heq => absurd heq hpc⟩

/-- What is left of the segment after padding. -/
theorem padded_room (h : RoomInv cfg L) (hp : L.pad cfg = some L') :
    L'.current.expectedSize + L'.logbufOffset ≤ cfg.segmentSize := by
  obtain ⟨-, hle, hcur, -⟩ := pad_padded hp
  have hroom := h.room
  rw [hcur]
  omega

theorem pad (h : RoomInv cfg L) (hseg : pageSize ∣ cfg.segmentSize) (hp : L.pad cfg = some L') :
    RoomInv cfg { L' with pc := .unlocked } := by
  have hcur := (pad_padded hp).2.2.1
  have hpaged : Paged cfg L'.current.expectedSize := hcur ▸ h.paged
  have hroom := h.padded_room hp
  exact ⟨hpaged, padded_fits hseg hpaged hroom, nofun,
    nofun⟩

/-- The padded buffer goes to the open segment. -/
theorem issue (h : RoomInv cfg L) (hp : Paged cfg L.logbufOffset) :
    RoomInv cfg { L.issueFlush.switchLogBuffers with pc := .unlocked } := by
  have hroom := h.room
  have hle : L.logbufOffset ≤ padded cfg L.logbufOffset := le_padded _
  refine ⟨fun hdio => (Nat.dvd_add (h.paged hdio) (hp hdio)), ?_, nofun,
    nofun⟩
  have hzero : padded cfg 0 = 0 := by
    rw [padded]
    split <;> rfl
  show L.current.expectedSize + L.logbufOffset + padded cfg 0 ≤ _
  omega

/-- A block is placed behind the bytes of the active buffer. -/
theorem place (hseg : pageSize ∣ cfg.segmentSize) {payload csn : ℕ}
    (hp : Paged cfg L.current.expectedSize)
    (hle : L.current.expectedSize + (L.logbufOffset + allocSize payload) % 2 ^ 32
      ≤ cfg.segmentSize) :
    RoomInv cfg (L.place payload csn) :=
  ⟨hp, padded_fits hseg hp hle, nofun, nofun⟩

/-- A block is placed at the end of `allocate_log_block`, in a new segment or in
the open one. -/
theorem finishAllocate (hseg : pageSize ∣ cfg.segmentSize) {payload csn : ℕ} {n : Bool}
    (hp : Paged cfg L.current.expectedSize)
    (hnew : n = true → (L.logbufOffset + allocSize payload) % 2 ^ 32 ≤ cfg.segmentSize)
    (hle : n = false → L.current.expectedSize + (L.logbufOffset + allocSize payload) % 2 ^ 32
      ≤ cfg.segmentSize) :
    RoomInv cfg (L.finishAllocate payload csn n) := by
  rw [TlsLog.finishAllocate]
  cases n with
  | true =>
    refine place hseg (fun _ => dvd_zero _) ?_
    show 0 + _ ≤ _
    rw [Nat.zero_add]
    exact hnew rfl
  | false => exact place hseg hp (hle rfl)

/-- A step keeps the room. -/
theorem step (h : RoomInv cfg L) (hseg : pageSize ∣ cfg.segmentSize) {a : LogAct}
    (hfit : BlockFits cfg a) (hok : SegmentOk cfg L a) (hs : logStep cfg L a = some L') :
    RoomInv cfg L' := by
  cases logStep_move hs with
  | allocate payload csn _ =>
    refine ⟨h.paged, h.room, fun heq => ?_, nofun⟩
    cases heq
    exact ⟨(allocSize_le _).trans hfit.1, (allocSize_le _).trans hfit.2⟩
  | flush _ _ | empty _ _ _ _ => exact h.goto nofun nofun
  | complete _ _ => exact h.congr rfl rfl rfl
  | pad payload csn M hpc _ hfull hM =>
    obtain ⟨hpaged, hle, hcur, -⟩ := pad_padded hM
    have hM' := h.pad hseg hM
    refine ⟨hM'.paged, hM'.room, nofun, fun heq => ?_⟩
    cases heq
    refine ⟨hpaged, (h.block hpc).2, fun hnew => ?_⟩
    show M.current.expectedSize + M.logbufOffset + _ ≤ _
    rw [hcur]
    -- the segment is kept, so the other buffer is needed
    have hbuf : needsBuffer cfg L payload = true := by
      have := hfull.1
      rwa [hnew, Bool.or_false] at this
    by_contra hlt
    have := hok rfl payload (by rw [hpc]; exact rfl) hbuf (by omega)
    rw [hnew] at this
    cases this
  | place payload csn hpc _ hroom =>
    have hlt : (L.logbufOffset + allocSize payload) % 2 ^ 32 =
        (allocSize payload + L.logbufOffset) % 2 ^ 32 := by rw [Nat.add_comm]
    obtain ⟨hbuf, hblock⟩ := h.block hpc
    refine finishAllocate hseg h.paged (fun hnew => ?_) (fun hnew => ?_)
    · -- with a new segment and no flush, the buffer is empty
      have hzero : L.logbufOffset = 0 := by
        by_contra hne
        exact hroom ⟨by rw [hnew, Bool.or_true], hne⟩
      rw [hzero, Nat.zero_add]
      exact (Nat.mod_le _ _).trans hblock
    · rw [hlt]
      simp only [needsSegment, decide_eq_false_iff_not, not_lt] at hnew
      omega
  | pollAllocate _ _ _ _ _ _ hM | poll _ _ _ _ hM => exact h.poll hM
  | switch payload csn n hpc _ =>
    obtain ⟨hpaged, hblock, hkeep⟩ := h.flush hpc
    refine finishAllocate hseg (h.issue hpaged).paged (fun hnew => ?_) (fun hnew => ?_)
    · show (0 + allocSize payload) % 2 ^ 32 ≤ _
      rw [Nat.zero_add]
      exact (Nat.mod_le _ _).trans hblock
    · show L.current.expectedSize + L.logbufOffset + (0 + allocSize payload) % 2 ^ 32 ≤ _
      have hmod := Nat.mod_le (allocSize payload) (2 ^ 32)
      have := hkeep hnew
      rw [Nat.zero_add]
      omega
  | issue last M _ _ _ hM =>
    refine RoomInv.goto (L := { M.issueFlush.switchLogBuffers with pc := .unlocked })
      ((h.pad hseg hM).issue (pad_padded hM).1) ?_ ?_
    · intro _ _ heq
      split at heq <;> cases heq
    · intro _ _ _ heq
      split at heq <;> cases heq
  | lastPoll _ _ hM =>
    exact (h.poll hM).goto nofun nofun

end RoomInv

/-! ### The files -/

/-- The expected size of the open segment is that of its file, and no file is too
large. -/
structure FileInv (cfg : LogConfig) (L : TlsLog) : Prop where
  counted : L.current.size + L.outstanding = L.current.expectedSize
  files : ∀ w ∈ L.submitted, w.offset + w.size ≤ cfg.segmentSize
  keeps : ∀ {payload csn n}, L.pc = .allocateFlush payload csn n → n = false

theorem fileInv_init : FileInv cfg init where
  counted := rfl
  files _ h := by cases h
  keeps h := by cases h

namespace FileInv

theorem congr (h : FileInv cfg L)
    (hcur : L'.current.size + L'.outstanding = L.current.size + L.outstanding)
    (hsize : L'.current.expectedSize = L.current.expectedSize)
    (hsub : L'.submitted = L.submitted)
    (hk : ∀ {payload csn n}, L'.pc = .allocateFlush payload csn n → n = false) : FileInv cfg L' :=
  ⟨by rw [hcur, hsize, h.counted], hsub ▸ h.files, hk⟩

theorem poll (h : FileInv cfg L) (hp : L.pollFlush = some L') : FileInv cfg L' := by
  obtain ⟨w, hw, -, rfl⟩ := pollFlush_eq_some hp
  refine h.congr ?_ rfl ?_ h.keeps
  · simp [outstanding, hw]
  · simp [submitted, hw]

theorem pad (h : FileInv cfg L) (hp : L.pad cfg = some L')
    {pc : LogPc} (hk : ∀ {payload csn n}, pc = .allocateFlush payload csn n → n = false) :
    FileInv cfg { L' with pc := pc } := by
  obtain ⟨-, -, hcur, hring, hwritten, -⟩ := pad_padded hp
  refine h.congr ?_ ?_ ?_ hk
  · simp [outstanding, hcur, hring]
  · simp [hcur]
  · simp [submitted, hring, hwritten]

/-- The buffer is written behind what is in the file. -/
theorem issue (h : FileInv cfg L) (hring : L.ring = none)
    (hroom : L.current.expectedSize + L.logbufOffset ≤ cfg.segmentSize) :
    FileInv cfg L.issueFlush.switchLogBuffers := by
  have hcount := h.counted
  have hout : L.outstanding = 0 := by rw [outstanding, hring, Option.map_none, Option.getD_none]
  have hsub : L.submitted = L.written := by
    rw [submitted, hring, Option.toList_none, List.append_nil]
  refine ⟨?_, ?_, h.keeps⟩
  · show L.current.size + L.logbufOffset = L.current.expectedSize + L.logbufOffset
    omega
  · intro w hw
    rcases List.mem_append.mp hw with hw | hw
    · exact h.files w (hsub ▸ hw)
    · obtain rfl := List.mem_singleton.mp hw
      show L.current.size + L.logbufOffset ≤ _
      omega

theorem finishAllocate (h : FileInv cfg L) {payload csn : ℕ} {n : Bool}
    (hok : n = true → L.ring = none) : FileInv cfg (L.finishAllocate payload csn n) := by
  rw [TlsLog.finishAllocate]
  cases n with
  | true =>
    refine ⟨?_, h.files, fun h => by cases h⟩
    show 0 + L.outstanding = 0
    rw [outstanding, hok rfl]
    rfl
  | false => exact ⟨h.counted, h.files, fun h => by cases h⟩

theorem step (h : FileInv cfg L) (hroom : RoomInv cfg L) (hb : BufInv L) {a : LogAct}
    (hok : PlaceOk cfg L a)
    (hs : logStep cfg L a = some L') : FileInv cfg L' := by
  cases logStep_move hs with
  | allocate _ _ _ | flush _ _ | empty _ _ _ _ =>
    exact h.congr rfl rfl rfl nofun
  | complete _ _ => exact h.congr rfl rfl rfl h.keeps
  | pad payload csn M hpc _ hfull hM =>
    refine h.pad hM fun heq => ?_
    cases heq
    exact Bool.eq_false_iff.mpr fun hnew => hfull.2 ((hok.of_allocate hpc).2 hnew).1
  | place payload csn hpc _ _ =>
    exact h.finishAllocate fun hnew => hb.ring_none ((hok.of_allocate hpc).2 hnew).2
  | pollAllocate _ _ _ _ _ _ hM | poll _ _ _ _ hM => exact h.poll hM
  | switch payload csn n hpc hf =>
    have hle : L.logbufOffset ≤ padded cfg L.logbufOffset := le_padded _
    have hroom := hroom.room
    refine (h.issue (hb.ring_none hf) (by omega)).finishAllocate fun hn => ?_
    rw [h.keeps hpc] at hn
    cases hn
  | issue last M hpc hf h0 hM =>
    have hring : M.ring = none := (pad_padded hM).2.2.2.1.trans (hb.ring_none hf)
    have hM' : FileInv cfg { M with pc := .unlocked } := h.pad hM nofun
    have hroom := hroom.padded_room hM
    refine (hM'.issue hring hroom).congr rfl rfl rfl fun heq => ?_
    split at heq <;> cases heq
  | lastPoll _ _ hM => exact (h.poll hM).congr rfl rfl rfl nofun

end FileInv

end TlsLog

open StepRun TlsLog

/-- **The size of segments.**  In every run of a log with blocks that fit, in which
the check of the segment agrees with the padded size: whenever no call is under
way, the open segment has room for what is in the active buffer.  If moreover
segments are opened while nothing is under way, no write goes beyond the size of a
segment. -/
theorem segment_bound {cfg : LogConfig} {acts : List LogAct} {L : TlsLog}
    (hseg : pageSize ∣ cfg.segmentSize) (hfit : ∀ a ∈ acts, BlockFits cfg a)
    (hok : Along (logStep cfg) (SegmentOk cfg) TlsLog.init acts)
    (hr : run (logStep cfg) TlsLog.init acts = some L) :
    (L.pc = .unlocked →
      L.current.expectedSize + padded cfg L.logbufOffset ≤ cfg.segmentSize) ∧
    (Along (logStep cfg) (PlaceOk cfg) TlsLog.init acts →
      ∀ w ∈ L.submitted, w.offset + w.size ≤ cfg.segmentSize) := by
  have hok := hok.and (along_of_forall hfit TlsLog.init)
  refine ⟨fun _ => ?_, fun hplace => ?_⟩
  · refine (run_invariant_along (I := RoomInv cfg) ?_ hok hr roomInv_init).room
    intro L a L' hok hs h
    exact h.step hseg hok.2 hok.1 hs
  · have hinv : RoomInv cfg L ∧ FileInv cfg L ∧ BufInv L := by
      refine run_invariant_along (I := fun L => RoomInv cfg L ∧ FileInv cfg L ∧ BufInv L) ?_
        (hok.and hplace) hr ⟨roomInv_init, fileInv_init, bufInv_init⟩
      rintro L a L' ⟨hok, hplace⟩ hs ⟨hroom, hfile, hb⟩
      refine ⟨hroom.step hseg hok.2 hok.1 hs, hfile.step hroom hb hplace hs, hb.step hs ?_⟩
      rintro payload csn rfl hpc
      exact (hplace.of_allocate hpc).1
    exact hinv.2.1.files

/-- Buffers of 2 MB and segments of 3 MB. -/
def threeMegabytes (directIo : Bool) : LogConfig where
  logbufSize := 2 * 1024 * 1024
  segmentSize := 3 * 1024 * 1024
  directIo := directIo

/-- Two blocks, 3 MB together; the second one needs the other buffer. -/
def twoBlocks : List LogAct :=
  [.allocate 1570916 1, .proceed, .allocate 1570716 2, .proceed, .proceed]

theorem segment_bound_unpadded :
    (∀ a ∈ twoBlocks, BlockFits (threeMegabytes false) a) ∧
    Along (logStep (threeMegabytes false)) (SegmentOk (threeMegabytes false)) TlsLog.init
      twoBlocks ∧
    ∃ L, run (logStep (threeMegabytes false)) TlsLog.init twoBlocks = some L ∧
      L.current.expectedSize + padded (threeMegabytes false) L.logbufOffset ≤ 3 * 1024 * 1024 ∧
      ∀ w ∈ L.submitted, w.offset + w.size ≤ 3 * 1024 * 1024 := by
  have hfit : ∀ a ∈ twoBlocks, BlockFits (threeMegabytes false) a := by decide
  have hok : Along (logStep (threeMegabytes false)) (SegmentOk (threeMegabytes false)) TlsLog.init
      twoBlocks := by decide
  have hplace : Along (logStep (threeMegabytes false)) (PlaceOk (threeMegabytes false)) TlsLog.init
      twoBlocks := by decide
  have hbound := segment_bound
    (L := (run (logStep (threeMegabytes false)) TlsLog.init twoBlocks).get rfl) (by decide) hfit hok
    (Option.some_get rfl).symm
  exact ⟨hfit, hok, _, (Option.some_get rfl).symm, hbound.1 rfl, hbound.2 hplace⟩

/-- With direct I/O the first block is padded to whole pages, and the second one no
longer fits into the segment; it is written at the end of the file nevertheless. -/
theorem overfull_segment :
    (∀ a ∈ twoBlocks ++ [.flush false, .complete, .proceed, .proceed],
      BlockFits (threeMegabytes true) a) ∧
    (∃ L, run (logStep (threeMegabytes true)) TlsLog.init twoBlocks = some L ∧
      L.pc = .unlocked ∧ L.segments.length = 1 ∧
      3 * 1024 * 1024 < L.current.expectedSize + padded (threeMegabytes true) L.logbufOffset) ∧
    ∃ L, run (logStep (threeMegabytes true)) TlsLog.init
        (twoBlocks ++ [.flush false, .complete, .proceed, .proceed]) = some L ∧
      ∃ w ∈ L.submitted, w.segment = 0 ∧ w.offset + w.size = 3 * 1024 * 1024 + 2048 := by
  refine ⟨by decide, ⟨_, rfl, rfl, rfl, by decide⟩, _, rfl,
    ⟨0, 1574912, 1572864, [⟨1574912, 0, 2, 0, 1572764⟩]⟩, by decide, rfl, rfl⟩

end PreemptDB
