/-
Where the blocks of a log end up.

`BufInv` says that blocks lie apart in the buffer and that none is lost on the
way to a write; it needs that the 32-bit sizes do not wrap around.  `PlaceInv`
says that every write goes to the place that the LSNs of its blocks stand for;
it needs moreover that a segment is opened only when nothing is under way to the
one before, because `poll_flush` adds the bytes of a completed write to the
segment that is open by then.

* `log_placement` — the runs in which both hold place all blocks right;
* `misplaced_block` — a segment switch with a write under way misplaces a block.
-/
import PreemptDB.TlsLog

namespace PreemptDB

/-- The payload for which the holder of the lock is about to look for space. -/
def LogPc.allocating : LogPc → Option ℕ
  | .allocate payload _ => some payload
  | _ => none

namespace TlsLog

variable {cfg : LogConfig} {L L' : TlsLog}

/-! ### Blocks in the buffer -/

/-- No sum of sizes wraps around when a block is allocated. -/
def NoWrap (L : TlsLog) (payload : ℕ) : Prop :=
  payload + pageSize + L.logbufOffset ≤ 2 ^ 32 - pageSize

instance (L : TlsLog) (payload : ℕ) : Decidable (L.NoWrap payload) :=
  inferInstanceAs (Decidable (_ ≤ _))

/-- The blocks of a log are in its active buffer or covered by a write. -/
structure BufInv (L : TlsLog) : Prop where
  ring : L.ring.isSome = L.flushing
  bound : L.logbufOffset ≤ 2 ^ 32 - pageSize
  inside : ∀ b ∈ L.buffered, 0 < b.size ∧ b.bufOffset + b.size ≤ L.logbufOffset
  covered : ∀ w ∈ L.submitted, ∀ b ∈ w.blocks, b.bufOffset + b.size ≤ w.size
  kept : ∀ b ∈ L.allocated, b ∈ L.buffered ∨ ∃ w ∈ L.submitted, b ∈ w.blocks
  fits : ∀ {payload csn n}, L.pc = .allocateFlush payload csn n →
    payload + pageSize ≤ 2 ^ 32 - pageSize

theorem bufInv_init : BufInv init where
  ring := rfl
  bound := by decide
  inside _ h := by cases h
  covered _ h := by cases h
  kept _ h := by cases h
  fits h := by cases h

theorem alignUp_le {size : ℕ} (h : size ≤ 2 ^ 32 - pageSize) :
    alignUp size pageSize ≤ 2 ^ 32 - pageSize := by
  simp only [alignUp, alignDown, pageSize] at h ⊢
  omega

/-- Padding moves the end of the buffer and the LSN by the same amount. -/
theorem pad_eq_some (h : L.logbufOffset ≤ 2 ^ 32 - pageSize) (hp : L.pad cfg = some L') :
    ∃ n, L' = { L with currentLsn := L.currentLsn + n, logbufOffset := L.logbufOffset + n } ∧
      L.logbufOffset + n ≤ 2 ^ 32 - pageSize := by
  obtain ⟨aligned, ha, rfl⟩ := Option.map_eq_some_iff.mp hp
  have hle : L.logbufOffset ≤ aligned ∧ aligned ≤ 2 ^ 32 - pageSize := by
    rw [alignUpFlushSize] at ha
    split_ifs at ha <;> cases ha
    · exact ⟨le_alignUp (by decide), alignUp_le h⟩
    · exact ⟨le_rfl, h⟩
  have hadd : L.logbufOffset + (aligned - L.logbufOffset) = aligned := by omega
  refine ⟨aligned - L.logbufOffset, ?_, hadd.trans_le hle.2⟩
  rw [hadd, Nat.mod_eq_of_lt (lt_of_le_of_lt hle.2 (by decide))]

theorem pollFlush_eq_some (h : L.pollFlush = some L') : ∃ w, L.ring = some w ∧
    L.completed = true ∧ L' = { L with
      flushing := false
      ring := none
      written := L.written ++ [w]
      durableLsn := L.durableLsn + w.size
      current := { L.current with size := L.current.size + w.size }
      durableCsn := L.lastCsns (!L.active) } := by
  rw [pollFlush] at h
  split at h
  · rename_i w hw
    rw [Option.ite_none_right_eq_some, Option.some_inj] at h
    exact ⟨w, hw, h.1, h.2.symm⟩
  · cases h

/-- The block that is placed is not empty, and the buffer grows by its size. -/
theorem NoWrap.place {payload : ℕ} (h : L.NoWrap payload) : 0 < allocSize payload ∧
    (L.logbufOffset + allocSize payload) % 2 ^ 32 = L.logbufOffset + allocSize payload ∧
    L.logbufOffset + allocSize payload ≤ 2 ^ 32 - pageSize := by
  simp only [NoWrap, allocSize, pageSize] at h ⊢
  omega

namespace BufInv

theorem ring_none (h : BufInv L) (hf : L.flushing = false) : L.ring = none := by
  have := h.ring
  rwa [hf, Option.isSome_eq_false_iff, Option.isNone_iff_eq_none] at this

theorem goto (h : BufInv L) {pc : LogPc} (hf : ∀ {payload csn n},
    pc = .allocateFlush payload csn n → payload + pageSize ≤ 2 ^ 32 - pageSize) :
    BufInv { L with pc := pc } :=
  ⟨h.ring, h.bound, h.inside, h.covered, h.kept, hf⟩

theorem pad (h : BufInv L) (hp : L.pad cfg = some L') : BufInv L' := by
  obtain ⟨n, rfl, hn⟩ := pad_eq_some h.bound hp
  exact ⟨h.ring, hn,
    fun b hb => ⟨(h.inside b hb).1, (h.inside b hb).2.trans (Nat.le_add_right _ _)⟩,
    h.covered, h.kept, h.fits⟩

theorem poll (h : BufInv L) (hp : L.pollFlush = some L') : BufInv L' := by
  obtain ⟨w, hw, -, rfl⟩ := pollFlush_eq_some hp
  have hsub : L.submitted = L.written ++ [w] := by rw [submitted, hw, Option.toList_some]
  refine ⟨rfl, h.bound, h.inside, ?_, ?_, h.fits⟩
  · have hcov := h.covered
    rw [hsub] at hcov
    simpa [submitted] using hcov
  · have hkept := h.kept
    rw [hsub] at hkept
    simpa [submitted] using hkept

/-- The active buffer goes to the ring. -/
theorem issue (h : BufInv L) (hf : L.flushing = false) : BufInv L.issueFlush.switchLogBuffers := by
  have hsub : L.submitted = L.written := by
    rw [submitted, h.ring_none hf, Option.toList_none, List.append_nil]
  refine ⟨rfl, Nat.zero_le _, by simp [switchLogBuffers], ?_, ?_, h.fits⟩
  · intro w hw b hb
    rcases List.mem_append.mp hw with hw | hw
    · exact h.covered w (hsub ▸ hw) b hb
    · obtain rfl := List.mem_singleton.mp hw
      exact (h.inside b hb).2
  · intro b hb
    refine .inr ?_
    rcases h.kept b hb with hin | ⟨w, hw, hbw⟩
    · exact ⟨_, List.mem_append_right _ (List.mem_singleton_self _), hin⟩
    · exact ⟨w, List.mem_append_left _ (hsub ▸ hw), hbw⟩

theorem place (h : BufInv L) {payload csn : ℕ} (hn : L.NoWrap payload) :
    BufInv (L.place payload csn) := by
  obtain ⟨hpos, hoff, hbound⟩ := hn.place
  refine ⟨h.ring, ?_, ?_, h.covered, ?_, nofun⟩
  · show (L.logbufOffset + allocSize payload) % 2 ^ 32 ≤ _
    rwa [hoff]
  · intro b hb
    show 0 < b.size ∧ b.bufOffset + b.size ≤ (L.logbufOffset + allocSize payload) % 2 ^ 32
    rw [hoff]
    rcases List.mem_append.mp hb with hb | hb
    · exact ⟨(h.inside b hb).1, (h.inside b hb).2.trans (Nat.le_add_right _ _)⟩
    · obtain rfl := List.mem_singleton.mp hb
      exact ⟨hpos, le_rfl⟩
  · intro b hb
    rcases List.mem_append.mp hb with hb | hb
    · exact (h.kept b hb).imp_left (List.mem_append_left _)
    · exact .inl (List.mem_append_right _ hb)

theorem createSegment (h : BufInv L) : BufInv L.createSegment :=
  ⟨h.ring, h.bound, h.inside, h.covered, h.kept, h.fits⟩

theorem finishAllocate (h : BufInv L) {payload csn : ℕ} (n : Bool) (hn : L.NoWrap payload) :
    BufInv (L.finishAllocate payload csn n) := by
  rw [TlsLog.finishAllocate]
  split
  · exact h.createSegment.place hn
  · exact h.place hn

/-- A step keeps the blocks, if an allocation does not wrap around. -/
theorem step (h : BufInv L) {a : LogAct} (hs : logStep cfg L a = some L')
    (hok : ∀ {payload csn}, a = .proceed → L.pc = .allocate payload csn → L.NoWrap payload) :
    BufInv L' := by
  cases logStep_move hs with
  | allocate payload csn _ =>
    exact ⟨h.ring, h.bound, h.inside, h.covered, h.kept, nofun⟩
  | flush _ _ | empty _ _ _ _ => exact h.goto nofun
  | complete _ _ => exact ⟨h.ring, h.bound, h.inside, h.covered, h.kept, h.fits⟩
  | pad payload csn M hpc _ _ hM =>
    have hn := hok rfl hpc
    rw [NoWrap] at hn
    refine (h.pad hM).goto fun hpc' => ?_
    cases hpc'
    omega
  | place payload csn hpc _ _ => exact h.finishAllocate _ (hok rfl hpc)
  | pollAllocate _ _ _ _ _ _ hM | poll _ _ _ _ hM => exact h.poll hM
  | switch payload csn n hpc hf => exact (h.issue hf).finishAllocate n (h.fits hpc)
  | issue last M hpc hf h0 hM =>
    have hM' := h.pad hM
    have hflush : M.flushing = false := by
      obtain ⟨n, rfl, -⟩ := pad_eq_some h.bound hM
      exact hf
    refine (hM'.issue hflush).goto fun hpc' => ?_
    split at hpc' <;> cases hpc'
  | lastPoll _ _ hM => exact (h.poll hM).goto nofun

end BufInv

/-! ### Writes in the segments -/

/-- The bytes of the outstanding write. -/
def outstanding (L : TlsLog) : ℕ := (L.ring.map Write.size).getD 0

/-- Where a segment begins in the log. -/
def startOffset (L : TlsLog) (i : ℕ) : Option ℕ := L.segments[i]?.map Segment.startOffset

/-- The writes are where the LSNs of their blocks say, one behind the other. -/
structure PlaceInv (L : TlsLog) : Prop where
  lsn : L.currentLsn
    = L.current.startOffset + L.current.size + L.outstanding + L.logbufOffset
  buffered : ∀ b ∈ L.buffered, b.segnum = L.old.length ∧
    b.lsn + L.logbufOffset = L.currentLsn + b.bufOffset
  segment : ∀ w ∈ L.submitted, w.segment ≤ L.old.length
  placed : ∀ w ∈ L.submitted, ∀ b ∈ w.blocks, b.segnum = w.segment ∧
    ∃ start, L.startOffset w.segment = some start ∧ b.lsn = start + (w.offset + b.bufOffset)
  ends : ∀ w ∈ L.submitted, w.segment = L.old.length →
    w.offset + w.size ≤ L.current.size + L.outstanding
  disjoint : L.submitted.Pairwise fun w w' => w.segment = w'.segment → w.offset + w.size ≤ w'.offset
  keeps : ∀ {payload csn n}, L.pc = .allocateFlush payload csn n → n = false

theorem placeInv_init : PlaceInv init where
  lsn := rfl
  buffered _ h := by cases h
  segment _ h := by cases h
  placed _ h := by cases h
  ends _ h := by cases h
  disjoint := List.Pairwise.nil
  keeps h := by cases h

theorem startOffset_current (L : TlsLog) :
    L.startOffset L.old.length = some L.current.startOffset := by
  simp [startOffset, segments]

theorem startOffset_createSegment {i : ℕ} (h : i ≤ L.old.length) :
    L.createSegment.startOffset i = L.startOffset i := by
  rw [startOffset, startOffset, createSegment]
  simp only [segments]
  rw [List.getElem?_append_left (by simpa using Nat.lt_succ_of_le h)]

/-- The size of the open segment does not matter for where it begins. -/
theorem startOffset_congr (hold : L'.old = L.old)
    (hstart : L'.current.startOffset = L.current.startOffset) : L'.startOffset = L.startOffset := by
  funext i
  simp only [startOffset, segments, hold]
  rcases Nat.lt_trichotomy i L.old.length with h | rfl | h
  · rw [List.getElem?_append_left h, List.getElem?_append_left h]
  · simp [hstart]
  · rw [List.getElem?_eq_none (by simpa using h), List.getElem?_eq_none (by simpa using h)]

namespace PlaceInv

theorem goto (h : PlaceInv L) {pc : LogPc}
    (hk : ∀ {payload csn n}, pc = .allocateFlush payload csn n → n = false) :
    PlaceInv { L with pc := pc } :=
  ⟨h.lsn, h.buffered, h.segment, h.placed, h.ends, h.disjoint, hk⟩

theorem pad (h : PlaceInv L) (hb : BufInv L) (hp : L.pad cfg = some L') : PlaceInv L' := by
  obtain ⟨n, rfl, -⟩ := pad_eq_some hb.bound hp
  refine ⟨?_, fun b hin => ⟨(h.buffered b hin).1, ?_⟩, h.segment, h.placed, h.ends, h.disjoint,
    h.keeps⟩
  · have hlsn := h.lsn
    show L.currentLsn + n = L.current.startOffset + L.current.size + L.outstanding
      + (L.logbufOffset + n)
    omega
  · have hb := (h.buffered b hin).2
    show b.lsn + (L.logbufOffset + n) = L.currentLsn + n + b.bufOffset
    omega

/-- What the invariant depends on; of the open segment, it is the end of the
writes to it. -/
theorem congr (h : PlaceInv L) (hlsn : L'.currentLsn = L.currentLsn)
    (hbuf : L'.buffered = L.buffered) (hoff : L'.logbufOffset = L.logbufOffset)
    (hold : L'.old = L.old) (hstart : L'.current.startOffset = L.current.startOffset)
    (hsub : L'.submitted = L.submitted)
    (hend : L'.current.size + L'.outstanding = L.current.size + L.outstanding)
    (hpc : L'.pc = L.pc) : PlaceInv L' where
  lsn := by
    have := h.lsn
    omega
  buffered := by
    rw [hbuf, hold, hoff, hlsn]
    exact h.buffered
  segment := by
    rw [hsub, hold]
    exact h.segment
  placed := by
    rw [hsub, startOffset_congr hold hstart]
    exact h.placed
  ends := by
    rw [hsub, hold, hend]
    exact h.ends
  disjoint := hsub ▸ h.disjoint
  keeps := hpc ▸ h.keeps

/-- The polled bytes become part of the open segment. -/
theorem poll (h : PlaceInv L) (hp : L.pollFlush = some L') : PlaceInv L' := by
  obtain ⟨w, hw, -, rfl⟩ := pollFlush_eq_some hp
  refine h.congr rfl rfl rfl rfl rfl ?_ ?_ rfl
  · simp [submitted, hw]
  · simp [outstanding, hw]

/-- The buffer is written behind the end of the open segment. -/
theorem issue (h : PlaceInv L) (hring : L.ring = none) :
    PlaceInv L.issueFlush.switchLogBuffers := by
  have hsub : L.submitted = L.written := by
    rw [submitted, hring, Option.toList_none, List.append_nil]
  have hout : L.outstanding = 0 := by rw [outstanding, hring, Option.map_none, Option.getD_none]
  have hlsn := h.lsn
  have hstart : L.issueFlush.switchLogBuffers.startOffset = L.startOffset :=
    startOffset_congr rfl rfl
  obtain ⟨w, hw⟩ : ∃ w, w = (⟨L.old.length, L.current.size, L.logbufOffset, L.buffered⟩ : Write) :=
    ⟨_, rfl⟩
  have hsub' : L.issueFlush.switchLogBuffers.submitted = L.submitted ++ [w] := by
    rw [hsub, hw]
    rfl
  have hends : ∀ v ∈ L.submitted, v.segment = L.old.length →
      v.offset + v.size ≤ L.current.size := by
    simpa [hout] using h.ends
  refine ⟨?_, by simp [switchLogBuffers], ?_, ?_, ?_, ?_, h.keeps⟩
  · show L.currentLsn = L.current.startOffset + L.current.size + L.logbufOffset + 0
    omega
  · rw [hsub', List.forall_mem_append, List.forall_mem_singleton, hw]
    exact ⟨h.segment, le_rfl⟩
  · rw [hsub', List.forall_mem_append, List.forall_mem_singleton, hstart, hw]
    refine ⟨h.placed, fun b hb => ⟨(h.buffered b hb).1, _, startOffset_current L, ?_⟩⟩
    have := (h.buffered b hb).2
    show b.lsn = L.current.startOffset + (L.current.size + b.bufOffset)
    omega
  · rw [hsub', List.forall_mem_append, List.forall_mem_singleton, hw]
    refine ⟨fun v hv hseg => ?_, fun _ => le_rfl⟩
    exact (hends v hv hseg).trans (Nat.le_add_right _ _)
  · rw [hsub', List.pairwise_append]
    refine ⟨h.disjoint, List.pairwise_singleton _ _, ?_⟩
    intro v hv w' hw' hseg
    obtain rfl := List.mem_singleton.mp hw'
    rw [hw] at hseg ⊢
    exact hends v hv hseg

/-- A segment is opened while nothing is under way. -/
theorem createSegment (h : PlaceInv L) (hb : BufInv L) (hring : L.ring = none)
    (hoff : L.logbufOffset = 0) : PlaceInv L.createSegment := by
  have hnone : L.buffered = [] := by
    refine List.eq_nil_iff_forall_not_mem.mpr fun b hin => ?_
    have := hb.inside b hin
    omega
  refine ⟨?_, ?_, ?_, ?_, ?_, h.disjoint, h.keeps⟩
  · show L.currentLsn = L.currentLsn + 0 + L.outstanding + L.logbufOffset
    rw [hoff, outstanding, hring]
    rfl
  · intro b hin
    rw [show L.createSegment.buffered = [] from hnone] at hin
    cases hin
  · intro w hw
    have := h.segment w hw
    simp only [TlsLog.createSegment, List.length_append, List.length_singleton]
    omega
  · intro w hw b hin
    rw [startOffset_createSegment (h.segment w hw)]
    exact h.placed w hw b hin
  · intro w hw hseg
    have := h.segment w hw
    simp only [TlsLog.createSegment, List.length_append, List.length_singleton] at hseg
    omega

theorem place (h : PlaceInv L) {payload csn : ℕ} (hn : L.NoWrap payload) :
    PlaceInv (L.place payload csn) := by
  obtain ⟨-, hoff, -⟩ := hn.place
  have hlsn := h.lsn
  refine ⟨?_, ?_, h.segment, h.placed, h.ends, h.disjoint, nofun⟩
  · show L.currentLsn + allocSize payload = L.current.startOffset + L.current.size + L.outstanding
      + (L.logbufOffset + allocSize payload) % 2 ^ 32
    omega
  · intro b hb
    show b.segnum = L.old.length ∧ b.lsn + (L.logbufOffset + allocSize payload) % 2 ^ 32
      = L.currentLsn + allocSize payload + b.bufOffset
    rw [hoff]
    rcases List.mem_append.mp hb with hb | hb
    · have := h.buffered b hb
      exact ⟨this.1, by omega⟩
    · obtain rfl := List.mem_singleton.mp hb
      refine ⟨rfl, ?_⟩
      show L.currentLsn + (L.logbufOffset + allocSize payload)
        = L.currentLsn + allocSize payload + L.logbufOffset
      omega

theorem finishAllocate (h : PlaceInv L) (hb : BufInv L) {payload csn : ℕ} {n : Bool}
    (hn : L.NoWrap payload)
    (hok : n = true → L.ring = none ∧ L.logbufOffset = 0) :
    PlaceInv (L.finishAllocate payload csn n) := by
  rw [TlsLog.finishAllocate]
  split
  · rename_i hnew
    obtain ⟨hring, hoff⟩ := hok hnew
    exact (h.createSegment hb hring hoff).place hn
  · exact h.place hn

end PlaceInv

/-- A call of `allocate_log_block` does not wrap around, and opens a new segment
only if no byte is in the active buffer and no write is outstanding. -/
def PlaceOk (cfg : LogConfig) (L : TlsLog) (a : LogAct) : Prop :=
  a = .proceed → ∀ payload ∈ L.pc.allocating, L.NoWrap payload ∧
    (needsSegment cfg L payload = true → L.logbufOffset = 0 ∧ L.flushing = false)

instance (cfg : LogConfig) (L : TlsLog) (a : LogAct) : Decidable (PlaceOk cfg L a) :=
  inferInstanceAs (Decidable (_ → _))

theorem PlaceOk.of_allocate {payload csn : ℕ} (h : PlaceOk cfg L .proceed)
    (hpc : L.pc = .allocate payload csn) : L.NoWrap payload ∧
      (needsSegment cfg L payload = true → L.logbufOffset = 0 ∧ L.flushing = false) :=
  h rfl payload (by rw [hpc]; exact rfl)

/-- A step keeps the writes in place. -/
theorem PlaceInv.step (h : PlaceInv L) (hb : BufInv L) {a : LogAct} (hok : PlaceOk cfg L a)
    (hs : logStep cfg L a = some L') : PlaceInv L' := by
  cases logStep_move hs with
  | allocate _ _ _ =>
    exact ⟨h.lsn, h.buffered, h.segment, h.placed, h.ends, h.disjoint, nofun⟩
  | flush _ _ | empty _ _ _ _ => exact h.goto nofun
  | complete _ _ => exact h.congr rfl rfl rfl rfl rfl rfl rfl rfl
  | pad payload csn M hpc _ hfull hM =>
    refine (h.pad hb hM).goto fun hpc' => ?_
    cases hpc'
    -- the buffer is not empty, so no segment is opened
    refine Bool.eq_false_iff.mpr fun hnew => hfull.2 ?_
    exact ((hok.of_allocate hpc).2 hnew).1
  | place payload csn hpc _ _ =>
    obtain ⟨hn, hnew⟩ := hok.of_allocate hpc
    exact h.finishAllocate hb hn fun hn => ⟨hb.ring_none (hnew hn).2, (hnew hn).1⟩
  | pollAllocate _ _ _ _ _ _ hM | poll _ _ _ _ hM => exact h.poll hM
  | switch payload csn n hpc hf =>
    refine (h.issue (hb.ring_none hf)).finishAllocate (hb.issue hf) (hb.fits hpc) fun hn => ?_
    rw [h.keeps hpc] at hn
    cases hn
  | issue last M hpc hf h0 hM =>
    have hring : M.ring = none := by
      obtain ⟨n, rfl, -⟩ := pad_eq_some hb.bound hM
      exact hb.ring_none hf
    refine ((h.pad hb hM).issue hring).goto fun hpc' => ?_
    split at hpc' <;> cases hpc'
  | lastPoll _ _ hM => exact (h.poll hM).goto nofun

end TlsLog

open StepRun TlsLog

/-- **Log placement.**  In every run of a log in which allocations do not wrap
around and open a segment only when nothing is under way: every block that was
returned is in the active buffer or covered by a write; a write goes to the
segment that was returned for each of its blocks, at the file offset that
`LoadFromStorage` computes from the block's LSN; and no later write touches the
range of an earlier one. -/
theorem log_placement {cfg : LogConfig} {acts : List LogAct} {L : TlsLog}
    (hok : Along (logStep cfg) (PlaceOk cfg) TlsLog.init acts)
    (hr : run (logStep cfg) TlsLog.init acts = some L) :
    (∀ b ∈ L.allocated, b ∈ L.buffered ∨ ∃ w ∈ L.submitted, b ∈ w.blocks) ∧
    (∀ w ∈ L.submitted, ∀ b ∈ w.blocks, w.segment = b.segnum ∧
      b.bufOffset + b.size ≤ w.size ∧ ∃ seg, L.segments[b.segnum]? = some seg ∧
        seg.startOffset ≤ b.lsn ∧ w.offset + b.bufOffset = b.lsn - seg.startOffset ∧
        ∀ bytes fileSize, b.lsn < 2 ^ 64 →
          LogSegment.offsetInSeg ⟨seg.startOffset, bytes, fileSize⟩ b.lsn
            = w.offset + b.bufOffset) ∧
    L.submitted.Pairwise fun w w' => w.segment = w'.segment → w.offset + w.size ≤ w'.offset := by
  have hinv : PlaceInv L ∧ BufInv L := by
    refine run_invariant_along (I := fun L => PlaceInv L ∧ BufInv L) ?_ hok hr
      ⟨placeInv_init, bufInv_init⟩
    rintro L a L' hok hs ⟨h, hb⟩
    refine ⟨h.step hb hok hs, hb.step hs fun ha hpc => ?_⟩
    subst ha
    exact (hok.of_allocate hpc).1
  obtain ⟨h, hb⟩ := hinv
  refine ⟨hb.kept, fun w hw b hin => ?_, h.disjoint⟩
  obtain ⟨hseg, start, hstart, hlsn⟩ := h.placed w hw b hin
  rw [startOffset, Option.map_eq_some_iff] at hstart
  obtain ⟨seg, hget, rfl⟩ := hstart
  refine ⟨hseg.symm, hb.covered w hw b hin, seg, hseg ▸ hget, by omega, by omega, ?_⟩
  intro bytes fileSize hlt
  rw [LogSegment.offsetInSeg_eq (by show seg.startOffset ≤ b.lsn; omega) hlt]
  show b.lsn - seg.startOffset = _
  omega

/-- Log buffers and segments of one megabyte. -/
def smallLog : LogConfig where
  logbufSize := 2 ^ 20
  segmentSize := 2 ^ 20
  directIo := true

/-- A block of 301 pages is flushed and polled; the next one goes to a new segment
and is flushed in turn. -/
def switchActs : List LogAct :=
  [.allocate 614400 1, .proceed, .flush true, .proceed, .complete, .proceed,
    .allocate 614400 2, .proceed, .flush true, .proceed]

theorem log_placement_switch :
    ∃ L, run (logStep smallLog) TlsLog.init switchActs = some L ∧
      L.segments.length = 2 ∧ L.submitted.length = 2 ∧
      L.submitted.Pairwise fun w w' => w.segment = w'.segment → w.offset + w.size ≤ w'.offset := by
  have hok : Along (logStep smallLog) (PlaceOk smallLog) TlsLog.init switchActs := by decide
  exact ⟨_, rfl, rfl, rfl, (log_placement hok rfl).2.2⟩

/-- The same blocks, but the first one is flushed by the allocation that opens the
second segment: the completion is counted there, and the second block goes to
offset 616448 of the file instead of its beginning. -/
theorem misplaced_block :
    ∃ L, run (logStep smallLog) TlsLog.init
        [.allocate 614400 1, .proceed, .allocate 614400 2, .proceed, .proceed, .complete,
          .flush false, .proceed, .proceed] = some L ∧
      ∃ w ∈ L.submitted, ∃ b ∈ w.blocks, ∃ seg, L.segments[b.segnum]? = some seg ∧
        b.csn = 2 ∧ w.segment = b.segnum ∧ b.lsn - seg.startOffset = 0 ∧
        w.offset + b.bufOffset = 616448 := by
  refine ⟨_, rfl, ⟨1, 616448, 616448, [⟨616448, 1, 2, 0, 616448⟩]⟩, ?_,
    ⟨616448, 1, 2, 0, 616448⟩, ?_, ⟨616448, 616448, 616448⟩, ?_, rfl, rfl, rfl, rfl⟩
  all_goals decide

end PreemptDB
