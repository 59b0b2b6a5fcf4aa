/-
The two buffers of a log.

A log fills one buffer while the other one is written.  All blocks it has returned,
in order, are those of the polled writes, those of the outstanding write and those
in the active buffer, and the three LSNs lie at the borders between them.

* `Tracked` — a log, and the buffer that the outstanding write reads;
* `SpanInv` — where the blocks are, by LSN;
* `LastInv` — what `last_csns` and the published word say;
* `double_buffered` — the invariant of the log, if no size wraps around;
* `forgotten_blocks` — a buffer of 4 GB, in which it does.
-/
import PreemptDB.DurableCsn

namespace PreemptDB

namespace TlsLog

variable {cfg : LogConfig} {L L' : TlsLog}

def writtenBlocks (L : TlsLog) : List Block := L.written.flatMap Write.blocks

def ringBlocks (L : TlsLog) : List Block := L.ring.toList.flatMap Write.blocks

/-! ### Where the blocks are -/

/-- The blocks in the order of their LSNs, with the borders. -/
structure SpanInv (L : TlsLog) : Prop where
  lsn : L.durableLsn + L.outstanding + L.logbufOffset = L.currentLsn
  order : L.allocated = L.writtenBlocks ++ L.ringBlocks ++ L.buffered
  below : ∀ b ∈ L.writtenBlocks, b.lsn + b.size ≤ L.durableLsn
  away : ∀ b ∈ L.ringBlocks, L.durableLsn ≤ b.lsn ∧ b.lsn + b.size ≤ L.durableLsn + L.outstanding
  here : ∀ b ∈ L.buffered, b.segnum = L.old.length ∧
    b.lsn = L.durableLsn + L.outstanding + b.bufOffset
  pos : ∀ b ∈ L.allocated, 0 < b.size
  apart : L.allocated.Pairwise fun b b' => b.lsn + b.size ≤ b'.lsn
  segment : ∀ w ∈ L.submitted, ∀ b ∈ w.blocks, w.segment = b.segnum

theorem spanInv_init : SpanInv init where
  lsn := rfl
  order := rfl
  below _ h := by cases h
  away _ h := by cases h
  here _ h := by cases h
  pos _ h := by cases h
  apart := List.Pairwise.nil
  segment _ h := by cases h

namespace SpanInv

theorem goto (h : SpanInv L) (pc : LogPc) : SpanInv { L with pc := pc } :=
  ⟨h.lsn, h.order, h.below, h.away, h.here, h.pos, h.apart, h.segment⟩

theorem pad (h : SpanInv L) (hb : BufInv L) (hp : L.pad cfg = some L') : SpanInv L' := by
  obtain ⟨n, rfl, -⟩ := pad_eq_some hb.bound hp
  refine ⟨?_, h.order, h.below, h.away, h.here, h.pos, h.apart, h.segment⟩
  have hlsn := h.lsn
  show L.durableLsn + L.outstanding + (L.logbufOffset + n) = L.currentLsn + n
  omega

/-- The blocks of the write are durable. -/
theorem poll (h : SpanInv L) (hp : L.pollFlush = some L') : SpanInv L' := by
  obtain ⟨w, hw, -, rfl⟩ := pollFlush_eq_some hp
  have hout : L.outstanding = w.size := by simp [outstanding, hw]
  have hring : L.ringBlocks = w.blocks := by simp [ringBlocks, hw]
  have hlsn := h.lsn
  rw [hout] at hlsn
  refine ⟨?_, ?_, ?_, ?_, ?_, h.pos, h.apart, ?_⟩
  · show L.durableLsn + w.size + 0 + L.logbufOffset = L.currentLsn
    omega
  · rw [h.order, hring]
    simp [writtenBlocks, ringBlocks]
  · intro b hb
    show b.lsn + b.size ≤ L.durableLsn + w.size
    simp only [writtenBlocks, List.flatMap_append, List.mem_append, List.flatMap_singleton] at hb
    rcases hb with hb | hb
    · have := h.below b hb
      omega
    · have := h.away b (by rw [hring]; exact hb)
      omega
  · intro b hb
    simp [ringBlocks] at hb
  · intro b hb
    obtain ⟨hseg, hlsn'⟩ := h.here b hb
    refine ⟨hseg, ?_⟩
    show b.lsn = L.durableLsn + w.size + 0 + b.bufOffset
    omega
  · have hseg := h.segment
    simp only [submitted, hw, Option.toList_some] at hseg
    simpa [submitted] using hseg

/-- The active buffer is under way. -/
theorem issue (h : SpanInv L) (hb : BufInv L) (hring : L.ring = none) :
    SpanInv L.issueFlush.switchLogBuffers := by
  have hout : L.outstanding = 0 := by simp [outstanding, hring]
  have hnone : L.ringBlocks = [] := by simp [ringBlocks, hring]
  have hlsn := h.lsn
  refine ⟨?_, ?_, h.below, ?_, ?_, h.pos, h.apart, ?_⟩
  · show L.durableLsn + L.logbufOffset + 0 = L.currentLsn
    omega
  · show L.allocated = _
    rw [h.order, hnone]
    simp [ringBlocks, writtenBlocks, issueFlush, switchLogBuffers]
  · intro b hin
    have hin' : b ∈ L.buffered := by simpa [ringBlocks, issueFlush, switchLogBuffers] using hin
    have hpos := hb.inside b hin'
    have hhere := (h.here b hin').2
    show L.durableLsn ≤ b.lsn ∧ b.lsn + b.size ≤ L.durableLsn + L.logbufOffset
    omega
  · intro b hin
    simp [issueFlush, switchLogBuffers] at hin
  · intro w hw b hin
    rcases List.mem_append.mp hw with hw | hw
    · exact h.segment w (List.mem_append_left _ hw) b hin
    · obtain rfl := List.mem_singleton.mp hw
      exact (h.here b hin).1.symm

/-- A segment is opened when the active buffer is empty. -/
theorem createSegment (h : SpanInv L) (hempty : L.buffered = []) : SpanInv L.createSegment := by
  refine ⟨h.lsn, h.order, h.below, h.away, fun b hb => ?_, h.pos, h.apart, h.segment⟩
  change b ∈ L.buffered at hb
  simp [hempty] at hb

theorem end_le (h : SpanInv L) (hb : BufInv L) {b : Block} (hin : b ∈ L.allocated) :
    b.lsn + b.size ≤ L.currentLsn := by
  have hlsn := h.lsn
  rw [h.order, List.mem_append, List.mem_append] at hin
  rcases hin with (hin | hin) | hin
  · have := h.below b hin
    omega
  · have := h.away b hin
    omega
  · have := h.here b hin
    have := hb.inside b hin
    omega

theorem place (h : SpanInv L) (hb : BufInv L) {payload csn : ℕ} (hn : L.NoWrap payload) :
    SpanInv (L.place payload csn) := by
  obtain ⟨hpos, hoff, -⟩ := hn.place
  have hlsn := h.lsn
  refine ⟨?_, ?_, h.below, h.away, ?_, ?_, ?_, h.segment⟩
  · show L.durableLsn + L.outstanding + (L.logbufOffset + allocSize payload) % 2 ^ 32 = _
    rw [hoff]
    show _ = L.currentLsn + allocSize payload
    omega
  · show L.allocated ++ _ = _
    rw [h.order, List.append_assoc]
    rfl
  · intro b hin
    rcases List.mem_append.mp hin with hin | hin
    · exact h.here b hin
    · obtain rfl := List.mem_singleton.mp hin
      exact ⟨rfl, hlsn.symm⟩
  · intro b hin
    rcases List.mem_append.mp hin with hin | hin
    · exact h.pos b hin
    · obtain rfl := List.mem_singleton.mp hin
      exact hpos
  · refine List.pairwise_append.mpr ⟨h.apart, List.pairwise_singleton _ _, ?_⟩
    intro b hin b' hin'
    obtain rfl := List.mem_singleton.mp hin'
    exact h.end_le hb hin

theorem finishAllocate (h : SpanInv L) (hb : BufInv L) {payload csn : ℕ} {n : Bool}
    (hn : L.NoWrap payload) (hempty : n = true → L.buffered = []) :
    SpanInv (L.finishAllocate payload csn n) := by
  rw [TlsLog.finishAllocate]
  split
  · next hnew => exact (h.createSegment (hempty hnew)).place hb.createSegment hn
  · exact h.place hb hn

end SpanInv

/-! ### What the log says about its CSNs -/

/-- The CSN of the last block in a list, or 0. -/
def lastCsn (bs : List Block) : ℕ := (bs.getLast?.map Block.csn).getD 0

theorem lastCsn_append {bs cs : List Block} (h : cs ≠ []) : lastCsn (bs ++ cs) = lastCsn cs := by
  rw [lastCsn, lastCsn, List.getLast?_append_of_ne_nil _ h]

/-- `last_csns` holds the last CSN of either buffer, and the published value is that of
the last block that was polled. -/
structure LastInv (L : TlsLog) : Prop where
  filled : L.logbufOffset ≠ 0 → L.buffered ≠ []
  waiting : ∀ {payload csn n}, L.pc = .allocateFlush payload csn n → L.buffered ≠ []
  active : L.buffered ≠ [] → L.lastCsns L.active = lastCsn L.buffered
  away : L.ring.isSome → L.ringBlocks ≠ [] ∧ L.lastCsns (!L.active) = lastCsn L.ringBlocks
  word : L.durableCsn < 2 ^ 64
  value : L.durableCsn % 2 ^ 63 = lastCsn L.writtenBlocks

theorem lastInv_init : LastInv init where
  filled h := absurd rfl h
  waiting h := by cases h
  active h := absurd rfl h
  away h := by cases h
  word := by decide
  value := rfl

namespace LastInv

theorem goto (h : LastInv L) {pc : LogPc}
    (hw : ∀ {payload csn n}, pc = .allocateFlush payload csn n → L.buffered ≠ []) :
    LastInv { L with pc := pc } :=
  ⟨h.filled, hw, h.active, h.away, h.word, h.value⟩

theorem setDirtyFlag (h : LastInv L) {payload csn : ℕ} :
    LastInv { L.setDirtyFlag with pc := .allocate payload csn } := by
  have hor := or_dirtyFlag h.word
  refine ⟨h.filled, nofun, h.active, h.away, ?_, ?_⟩
  · show L.durableCsn ||| dirtyFlag < 2 ^ 64
    omega
  · show (L.durableCsn ||| dirtyFlag) % 2 ^ 63 = lastCsn L.writtenBlocks
    rw [← h.value]
    omega

theorem pad (h : LastInv L) (hb : BufInv L) (h0 : L.logbufOffset ≠ 0)
    (hp : L.pad cfg = some L') : LastInv L' := by
  obtain ⟨n, rfl, -⟩ := pad_eq_some hb.bound hp
  exact ⟨fun _ => h.filled h0, h.waiting, h.active, h.away, h.word, h.value⟩

/-- Polling publishes the last CSN of the write. -/
theorem poll (h : LastInv L) (hlt : ∀ k ∈ L.csns, k < 2 ^ 63) (hp : L.pollFlush = some L') :
    LastInv L' := by
  obtain ⟨w, hw, -, rfl⟩ := pollFlush_eq_some hp
  obtain ⟨hne, hlast⟩ := h.away (by rw [hw]; rfl)
  have hring : L.ringBlocks = w.blocks := by simp [ringBlocks, hw]
  rw [hring] at hne hlast
  have hsmall : L.lastCsns (!L.active) < 2 ^ 63 := by
    refine hlt _ ?_
    rw [hlast, lastCsn, List.getLast?_eq_some_getLast hne]
    have hmem := List.mem_map_of_mem (f := Block.csn) (List.getLast_mem hne)
    simp only [csns, ringCsns, hw, Option.toList_some, List.flatMap_singleton, Write.csns,
      List.mem_append]
    exact .inl (.inl (.inr hmem))
  refine ⟨h.filled, h.waiting, h.active, (fun h => by cases h), ?_, ?_⟩
  · show L.lastCsns (!L.active) < 2 ^ 64
    omega
  · show L.lastCsns (!L.active) % 2 ^ 63 = _
    rw [Nat.mod_eq_of_lt hsmall, hlast]
    simp only [writtenBlocks, List.flatMap_append, List.flatMap_singleton]
    exact (lastCsn_append hne).symm

theorem issue (h : LastInv L) (hne : L.buffered ≠ []) {pc : LogPc}
    (hpc : ∀ {payload csn n}, pc ≠ .allocateFlush payload csn n) :
    LastInv { L.issueFlush.switchLogBuffers with pc := pc } := by
  have hlast := h.active hne
  refine ⟨fun h0 => absurd rfl h0, fun h => absurd h hpc, fun hne => absurd rfl hne, fun _ => ?_,
    h.word, h.value⟩
  have hring : ({ L.issueFlush.switchLogBuffers with pc := pc } : TlsLog).ringBlocks
      = L.buffered := by
    simp [ringBlocks, issueFlush, switchLogBuffers]
  rw [hring]
  refine ⟨hne, ?_⟩
  show L.lastCsns (!!L.active) = _
  rw [Bool.not_not]
  exact hlast

theorem createSegment (h : LastInv L) : LastInv L.createSegment :=
  ⟨h.filled, h.waiting, h.active, h.away, h.word, h.value⟩

theorem place (h : LastInv L) {payload csn : ℕ} : LastInv (L.place payload csn) := by
  refine ⟨fun _ => ?_, nofun, fun _ => ?_, fun hr => ?_, h.word, h.value⟩
  · simp [TlsLog.place]
  · simp [TlsLog.place, lastCsn]
  · obtain ⟨hne, hlast⟩ := h.away hr
    refine ⟨hne, ?_⟩
    show Function.update L.lastCsns L.active csn (!L.active) = _
    rw [Function.update_of_ne (by cases L.active <;> simp)]
    exact hlast

theorem finishAllocate (h : LastInv L) {payload csn : ℕ} (n : Bool) :
    LastInv (L.finishAllocate payload csn n) := by
  rw [TlsLog.finishAllocate]
  split
  · exact h.createSegment.place
  · exact h.place

end LastInv

/-- The next action submits the active buffer. -/
def issues (L : TlsLog) : LogAct → Bool
  | .proceed =>
    match L.pc with
    | .allocateFlush _ _ _ => !L.flushing
    | .flush _ => !L.flushing && L.logbufOffset ≠ 0
    | _ => false
  | _ => false

end TlsLog

open StepRun TlsLog

/-- A log, and the buffer from which the outstanding write takes its bytes. -/
structure Tracked where
  log : TlsLog
  source : Option Bool

namespace Tracked

variable {cfg : LogConfig} {S S' : Tracked}

def init : Tracked := ⟨.init, none⟩

def step (cfg : LogConfig) (S : Tracked) (a : LogAct) : Option Tracked :=
  (logStep cfg S.log a).map fun L =>
    { log := L
      source :=
        if S.log.issues a then some S.log.active
        else if L.ring.isSome then S.source
        else none }

/-- CSNs leave the dirty flag free, and no size wraps around. -/
def SizesOk (S : Tracked) (a : LogAct) : Prop :=
  (∀ csn ∈ a.csn?, csn < 2 ^ 63) ∧
    (a = .proceed → ∀ payload ∈ S.log.pc.allocating, S.log.NoWrap payload)

instance (S : Tracked) (a : LogAct) : Decidable (SizesOk S a) :=
  inferInstanceAs (Decidable (_ ∧ _))

structure Inv (cfg : LogConfig) (S : Tracked) : Prop where
  buf : BufInv S.log
  span : SpanInv S.log
  last : LastInv S.log
  small : ∀ k ∈ S.log.csns, k < 2 ^ 63
  inside : ∀ b ∈ S.log.allocated, b.bufOffset + b.size ≤ cfg.logbufSize
  fits : ∀ {payload csn n}, S.log.pc = .allocateFlush payload csn n →
    allocSize payload ≤ cfg.logbufSize
  drained : S.log.pc = .lastPoll → S.log.logbufOffset = 0
  source : S.log.ring.isSome → S.source = some (!S.log.active)

theorem inv_init : Inv cfg init where
  buf := bufInv_init
  span := spanInv_init
  last := lastInv_init
  small _ h := by cases h
  inside _ h := by cases h
  fits h := by cases h
  drained h := by cases h
  source h := by cases h

/-- What a step does to the parts that the other lemmas do not cover. -/
structure Move (cfg : LogConfig) (S : Tracked) (a : LogAct) (L : TlsLog) : Prop where
  span : SpanInv L
  last : LastInv L
  inside : ∀ b ∈ L.allocated, b.bufOffset + b.size ≤ cfg.logbufSize
  fits : ∀ {payload csn n}, L.pc = .allocateFlush payload csn n →
    allocSize payload ≤ cfg.logbufSize
  drained : L.pc = .lastPoll → L.logbufOffset = 0
  active : L.active = if S.log.issues a then !S.log.active else S.log.active
  ring : S.log.issues a = false → L.ring.isSome → S.log.ring.isSome
  written : S.log.writtenBlocks <+: L.writtenBlocks

theorem inside_place {L : TlsLog} {payload csn : ℕ}
    (h : ∀ b ∈ L.allocated, b.bufOffset + b.size ≤ cfg.logbufSize)
    (hfit : L.logbufOffset + allocSize payload ≤ cfg.logbufSize) :
    ∀ b ∈ (L.place payload csn).allocated, b.bufOffset + b.size ≤ cfg.logbufSize := by
  intro b hb
  rcases List.mem_append.mp hb with hb | hb
  · exact h b hb
  · obtain rfl := List.mem_singleton.mp hb
    exact hfit

theorem inside_finishAllocate {L : TlsLog} {payload csn : ℕ} (n : Bool)
    (h : ∀ b ∈ L.allocated, b.bufOffset + b.size ≤ cfg.logbufSize)
    (hfit : L.logbufOffset + allocSize payload ≤ cfg.logbufSize) :
    ∀ b ∈ (L.finishAllocate payload csn n).allocated, b.bufOffset + b.size ≤ cfg.logbufSize := by
  rw [TlsLog.finishAllocate]
  split <;> exact inside_place h hfit

theorem finishAllocate_fields (L : TlsLog) (payload csn : ℕ) (n : Bool) :
    (L.finishAllocate payload csn n).active = L.active ∧
      (L.finishAllocate payload csn n).ring = L.ring ∧
      (L.finishAllocate payload csn n).writtenBlocks = L.writtenBlocks ∧
      (L.finishAllocate payload csn n).pc = .unlocked := by
  cases n <;> exact ⟨rfl, rfl, rfl, rfl⟩

theorem written_poll {L L' : TlsLog} (hp : L.pollFlush = some L') :
    L.writtenBlocks <+: L'.writtenBlocks := by
  obtain ⟨w, -, -, rfl⟩ := pollFlush_eq_some hp
  exact ⟨w.blocks, by simp [writtenBlocks]⟩

theorem Inv.buffered_nil (h : Inv cfg S) (h0 : S.log.logbufOffset = 0) : S.log.buffered = [] := by
  refine List.eq_nil_iff_forall_not_mem.mpr fun b hb => ?_
  have := h.buf.inside b hb
  omega

section Moves

variable {L : TlsLog} {payload csn : ℕ}

/-- A write that is polled comes from the other buffer. -/
theorem Inv.move_poll (h : Inv cfg S) (hp : S.log.pollFlush = some L)
    (hi : S.log.issues .proceed = false) : Move cfg S .proceed L := by
  refine ⟨h.span.poll hp, h.last.poll h.small hp, ?_, ?_, ?_, ?_, ?_, written_poll hp⟩
  all_goals obtain ⟨w, -, -, rfl⟩ := pollFlush_eq_some hp
  · exact h.inside
  · exact h.fits
  · exact h.drained
  · rw [hi]
    rfl
  · intro _ hsome
    cases hsome

/-- `allocate_log_block` pads the buffer before it waits to flush it. -/
theorem Inv.move_pad (h : Inv cfg S) (hpc : S.log.pc = .allocate payload csn)
    (hsize : ¬ cfg.logbufSize < allocSize payload) (h0 : S.log.logbufOffset ≠ 0) (n : Bool)
    (hM : S.log.pad cfg = some L) :
    Move cfg S .proceed { L with pc := .allocateFlush payload csn n } := by
  have hissues : S.log.issues .proceed = false := by simp [issues, hpc]
  have hne := h.last.filled h0
  refine ⟨(h.span.pad h.buf hM).goto _, (h.last.pad h.buf h0 hM).goto ?_, ?_, ?_, ?_, ?_, ?_, ?_⟩
  all_goals obtain ⟨n, rfl, -⟩ := pad_eq_some h.buf.bound hM
  · exact fun _ => hne
  · exact h.inside
  · intro _ _ _ hpc'
    cases hpc'
    omega
  · intro hpc'
    cases hpc'
  · rw [hissues]
    rfl
  · exact fun _ => id
  · exact List.prefix_rfl

/-- A block is placed in the active buffer: it fits, and a new segment finds the buffer
empty. -/
theorem Inv.move_place (h : Inv cfg S) (hpc : S.log.pc = .allocate payload csn)
    (hsize : ¬ cfg.logbufSize < allocSize payload) (hn : S.log.NoWrap payload)
    (hflush : ¬ ((needsBuffer cfg S.log payload || needsSegment cfg S.log payload) ∧
      S.log.logbufOffset ≠ 0)) :
    Move cfg S .proceed
      (S.log.finishAllocate payload csn (needsSegment cfg S.log payload)) := by
  have hissues : S.log.issues .proceed = false := by simp [issues, hpc]
  obtain ⟨hactive, hring, hwritten, hpc'⟩ :=
    finishAllocate_fields S.log payload csn (needsSegment cfg S.log payload)
  have hfit : S.log.logbufOffset + allocSize payload ≤ cfg.logbufSize := by
    by_cases h0 : S.log.logbufOffset = 0
    · omega
    · have hbuf : needsBuffer cfg S.log payload = false := by
        by_contra hb
        exact hflush ⟨by simp [Bool.eq_true_of_not_eq_false hb], h0⟩
      simp only [needsBuffer, decide_eq_false_iff_not, not_lt] at hbuf
      have := hn.place.2.1
      rw [Nat.add_comm] at hbuf
      omega
  have hempty : needsSegment cfg S.log payload = true → S.log.buffered = [] := by
    intro hnew
    refine h.buffered_nil ?_
    by_contra h0
    exact hflush ⟨by simp [hnew], h0⟩
  refine ⟨h.span.finishAllocate h.buf hn hempty, h.last.finishAllocate _,
    inside_finishAllocate _ h.inside hfit, fun hpc'' => ?_, fun hpc'' => ?_, ?_, ?_, ?_⟩
  · rw [hpc'] at hpc''
    cases hpc''
  · rw [hpc'] at hpc''
    cases hpc''
  · rw [hactive, hissues]
    rfl
  · rw [hring]
    exact fun _ => id
  · rw [hwritten]

/-- The buffer is flushed, and the block is placed in the other one. -/
theorem Inv.move_switch (h : Inv cfg S) {n : Bool}
    (hpc : S.log.pc = .allocateFlush payload csn n) (hf : S.log.flushing = false) :
    Move cfg S .proceed (S.log.issueFlush.switchLogBuffers.finishAllocate payload csn n) := by
  have hissues : S.log.issues .proceed = true := by simp [issues, hpc, hf]
  have hissue : LastInv { S.log.issueFlush.switchLogBuffers with pc := .allocate payload csn } :=
    h.last.issue (h.last.waiting hpc) nofun
  have hspan := h.span.issue h.buf (h.buf.ring_none hf)
  obtain ⟨hactive, hring, hwritten, hpc'⟩ :=
    finishAllocate_fields S.log.issueFlush.switchLogBuffers payload csn n
  refine ⟨hspan.finishAllocate (h.buf.issue hf) (h.buf.fits hpc) fun _ => rfl, ?_,
    inside_finishAllocate _ h.inside ?_, fun hpc'' => ?_, fun hpc'' => ?_, ?_, fun hno => ?_, ?_⟩
  · cases n with
    | false => exact hissue.place
    | true => exact hissue.createSegment.place
  · have hle := h.fits hpc
    show 0 + allocSize payload ≤ _
    omega
  · rw [hpc'] at hpc''
    cases hpc''
  · rw [hpc'] at hpc''
    cases hpc''
  · rw [hactive, hissues]
    rfl
  · rw [hissues] at hno
    cases hno
  · rw [hwritten]
    exact List.prefix_rfl

/-- `enqueue_flush` pads the buffer and flushes it. -/
theorem Inv.move_flush (h : Inv cfg S) {last : Bool} (hpc : S.log.pc = .flush last)
    (hf : S.log.flushing = false) (h0 : S.log.logbufOffset ≠ 0) (hM : S.log.pad cfg = some L) :
    Move cfg S .proceed
      { L.issueFlush.switchLogBuffers with pc := if last then .lastPoll else .unlocked } := by
  have hissues : S.log.issues .proceed = true := by simp [issues, hpc, hf, h0]
  have hspan := h.span.pad h.buf hM
  have hlast := h.last.pad h.buf h0 hM
  have hbuf := h.buf.pad hM
  have hne := h.last.filled h0
  have hring := h.buf.ring_none hf
  have hpc' : ∀ {payload csn n}, (if last = true then LogPc.lastPoll else .unlocked) ≠
      .allocateFlush payload csn n := by
    intro _ _ _
    split <;> simp
  obtain ⟨n, rfl, -⟩ := pad_eq_some h.buf.bound hM
  refine ⟨(hspan.issue hbuf hring).goto _, hlast.issue hne hpc', h.inside,
    fun hpc'' => absurd hpc'' hpc', fun _ => rfl, ?_, fun hno => ?_, List.prefix_rfl⟩
  · rw [hissues]
    rfl
  · rw [hissues] at hno
    cases hno

end Moves

theorem Inv.move (h : Inv cfg S) {a : LogAct} {L : TlsLog} (hok : SizesOk S a)
    (hs : logStep cfg S.log a = some L) : Move cfg S a L := by
  cases logStep_move hs with
  | allocate payload csn _ =>
    exact ⟨⟨h.span.lsn, h.span.order, h.span.below, h.span.away, h.span.here, h.span.pos,
      h.span.apart, h.span.segment⟩, h.last.setDirtyFlag, h.inside, nofun,
      nofun, rfl, fun _ => id, List.prefix_rfl⟩
  | flush last _ =>
    exact ⟨h.span.goto _, h.last.goto nofun, h.inside, nofun,
      nofun, rfl, fun _ => id, List.prefix_rfl⟩
  | complete _ _ =>
    exact ⟨⟨h.span.lsn, h.span.order, h.span.below, h.span.away, h.span.here, h.span.pos,
      h.span.apart, h.span.segment⟩, ⟨h.last.filled, h.last.waiting, h.last.active, h.last.away,
      h.last.word, h.last.value⟩, h.inside, h.fits, h.drained, rfl, fun _ => id, List.prefix_rfl⟩
  | pad payload csn M hpc hsize hfull hM => exact h.move_pad hpc hsize hfull.2 _ hM
  | place payload csn hpc hsize hroom =>
    exact h.move_place hpc hsize (hok.2 rfl payload (by rw [hpc]; exact rfl)) hroom
  | pollAllocate _ _ _ _ hpc hf hM | poll _ _ hpc hf hM =>
    exact h.move_poll hM (by simp [issues, hpc, hf])
  | switch payload csn n hpc hf => exact h.move_switch hpc hf
  | issue last M hpc hf h0 hM => exact h.move_flush hpc hf h0 hM
  | empty last hpc hf h0 =>
    have hissues : S.log.issues .proceed = false := by simp [issues, hpc, h0]
    refine ⟨h.span.goto _, h.last.goto nofun, h.inside, nofun,
      nofun, ?_, fun _ => id, List.prefix_rfl⟩
    rw [hissues]
    rfl
  | lastPoll M hpc hM =>
    have hmove := h.move_poll hM (by simp [issues, hpc])
    exact ⟨hmove.span.goto _, hmove.last.goto nofun, hmove.inside,
      nofun, nofun, hmove.active, hmove.ring, hmove.written⟩

theorem Inv.step (h : Inv cfg S) {a : LogAct} (hok : SizesOk S a)
    (hs : step cfg S a = some S') :
    Inv cfg S' ∧ S.log.writtenBlocks <+: S'.log.writtenBlocks := by
  obtain ⟨L, hL, rfl⟩ := Option.map_eq_some_iff.mp hs
  have hmove := h.move hok hL
  have hbuf : BufInv L := h.buf.step hL fun {payload csn} ha hpc =>
    hok.2 ha payload (by rw [hpc]; exact rfl)
  refine ⟨⟨hbuf, hmove.span, hmove.last, ?_, hmove.inside, hmove.fits, hmove.drained,
    fun hsome => ?_⟩, hmove.written⟩
  · intro k hk
    rw [(logStep_csns h.buf hL).1, List.mem_append] at hk
    rcases hk with hk | hk
    · exact h.small k hk
    · exact hok.1 k (Option.mem_toList.mp hk)
  · show (if S.log.issues a then some S.log.active else if L.ring.isSome then S.source else none)
      = some (!L.active)
    rw [hmove.active]
    cases hi : S.log.issues a with
    | true => simp
    | false => simpa [show L.ring.isSome = true from hsome] using h.source (hmove.ring hi hsome)

theorem run_inv {acts : List LogAct} (hok : Along (step cfg) SizesOk init acts)
    (hr : run (step cfg) init acts = some S) : Inv cfg S :=
  run_invariant_along (I := Inv cfg) (fun hok hs h => (h.step hok hs).1) hok hr inv_init

/-- The CSNs of the log are those of the calls. -/
theorem run_csns {acts : List LogAct} (hok : Along (step cfg) SizesOk S acts) (h : Inv cfg S)
    (hr : run (step cfg) S acts = some S') :
    S'.log.csns = S.log.csns ++ acts.filterMap LogAct.csn? := by
  induction acts generalizing S with
  | nil =>
    rw [run_nil, Option.some_inj] at hr
    simp [hr]
  | cons a acts ih =>
    obtain ⟨M, hM, hr⟩ := run_cons_eq_some.mp hr
    have hcsns : M.log.csns = S.log.csns ++ a.csn?.toList := by
      obtain ⟨L, hL, rfl⟩ := Option.map_eq_some_iff.mp hM
      exact (logStep_csns h.buf hL).1
    rw [ih (hok.2 M hM) (h.step hok.1 hM).1 hr, hcsns, List.append_assoc]
    cases hc : a.csn? <;> simp [hc]

/-- What is polled stays polled. -/
theorem run_written {acts : List LogAct} (hok : Along (step cfg) SizesOk S acts) (h : Inv cfg S)
    (hr : run (step cfg) S acts = some S') : S.log.writtenBlocks <+: S'.log.writtenBlocks := by
  induction acts generalizing S with
  | nil =>
    rw [run_nil, Option.some_inj] at hr
    rw [hr]
  | cons a acts ih =>
    obtain ⟨M, hM, hr⟩ := run_cons_eq_some.mp hr
    obtain ⟨hinv, hprefix⟩ := h.step hok.1 hM
    exact hprefix.trans (ih (hok.2 M hM) hinv hr)

/-- The blocks below the durable LSN are the polled ones. -/
theorem Inv.filter_durable (h : Inv cfg S) :
    S.log.allocated.filter (fun b => b.lsn + b.size ≤ S.log.durableLsn) = S.log.writtenBlocks := by
  have hpos := h.span.pos
  rw [h.span.order] at hpos ⊢
  have hwritten : S.log.writtenBlocks.filter (fun b => b.lsn + b.size ≤ S.log.durableLsn)
      = S.log.writtenBlocks := by
    rw [List.filter_eq_self]
    intro b hb
    simpa using h.span.below b hb
  have hring : S.log.ringBlocks.filter (fun b => b.lsn + b.size ≤ S.log.durableLsn) = [] := by
    rw [List.filter_eq_nil_iff]
    intro b hb
    have := hpos b (by simp [hb])
    have := h.span.away b hb
    simp only [decide_eq_true_eq]
    omega
  have hbuffered : S.log.buffered.filter (fun b => b.lsn + b.size ≤ S.log.durableLsn) = [] := by
    rw [List.filter_eq_nil_iff]
    intro b hb
    have := hpos b (by simp [hb])
    have := h.span.here b hb
    simp only [decide_eq_true_eq]
    omega
  rw [List.filter_append, List.filter_append, hwritten, hring, hbuffered, List.append_nil,
    List.append_nil]

theorem writtenBlocks_csns (L : TlsLog) : L.writtenBlocks.map Block.csn = L.writtenCsns := by
  rw [writtenBlocks, writtenCsns, List.map_flatMap]
  rfl

/-- In increasing order the last of a part is not above the last of the whole. -/
theorem lastCsn_le_of_prefix {bs cs : List Block} (hsorted : (cs.map Block.csn).Pairwise (· < ·))
    (h : bs <+: cs) : lastCsn bs ≤ lastCsn cs := by
  obtain ⟨ds, rfl⟩ := h
  by_cases hds : ds = []
  · rw [hds, List.append_nil]
  · rw [lastCsn_append hds, lastCsn, lastCsn]
    cases hb : bs.getLast? with
    | none => simp
    | some b =>
      rw [List.getLast?_eq_some_getLast hds]
      rw [List.map_append, List.pairwise_append] at hsorted
      refine (hsorted.2.2 b.csn ?_ (ds.getLast hds).csn ?_).le
      · exact List.mem_map_of_mem (List.mem_of_getLast? hb)
      · exact List.mem_map_of_mem (List.getLast_mem hds)

end Tracked

/-- A call of `last_flush` is going on. -/
def LogPc.lastFlush : LogPc → Bool
  | .flush last => last
  | .lastPoll => true
  | _ => false

namespace Tracked

variable {cfg : LogConfig} {S S' : Tracked}

/-- `last_flush` leaves nothing behind. -/
theorem Inv.lastFlush (h : Inv cfg S) {a : LogAct} (hok : SizesOk S a)
    (hs : Tracked.step cfg S a = some S') (hpc : S.log.pc.lastFlush = true)
    (hret : S'.log.pc = .unlocked) : S'.log.durableLsn = S'.log.currentLsn := by
  obtain ⟨hinv, -⟩ := h.step hok hs
  have hlsn := hinv.span.lsn
  obtain ⟨L, hL, rfl⟩ := Option.map_eq_some_iff.mp hs
  change L.pc = .unlocked at hret
  suffices hnone : L.outstanding = 0 ∧ L.logbufOffset = 0 by
    change L.durableLsn + L.outstanding + L.logbufOffset = L.currentLsn at hlsn
    show L.durableLsn = L.currentLsn
    omega
  cases logStep_move hL with
  | allocate _ _ hq | flush _ hq | pad _ _ _ hq _ _ _ | place _ _ hq _ _
  | pollAllocate _ _ _ _ hq _ _ | switch _ _ _ hq _ =>
    rw [hq] at hpc
    cases hpc
  | complete _ _ =>
    change S.log.pc = .unlocked at hret
    rw [hret] at hpc
    cases hpc
  | poll last _ hq _ hM =>
    -- the call goes on after the first poll
    obtain ⟨w, -, -, rfl⟩ := pollFlush_eq_some hM
    change S.log.pc = .unlocked at hret
    rw [hq] at hret
    cases hret
  | empty last hq hf h0 => exact ⟨by simp [outstanding, h.buf.ring_none hf], h0⟩
  | issue last M hq _ _ _ =>
    rw [hq] at hpc
    change last = true at hpc
    subst hpc
    cases hret
  | lastPoll M hq hM =>
    obtain ⟨w, -, -, rfl⟩ := pollFlush_eq_some hM
    exact ⟨rfl, h.drained hq⟩

end Tracked

/-- **Double buffering.**  In every run of a log in which no size wraps around and CSNs
leave the dirty flag free: the outstanding write reads the other buffer, and a write is
submitted only when none is outstanding; the LSNs add up; blocks are apart, each inside
a buffer that goes to its segment; the published value is the CSN of the last durable
block, and does not decrease; and `last_flush` leaves nothing behind. -/
theorem double_buffered {cfg : LogConfig} {acts : List LogAct} {S : Tracked}
    (hcsns : (acts.filterMap LogAct.csn?).Pairwise (· < ·))
    (hok : Along (Tracked.step cfg) Tracked.SizesOk Tracked.init acts)
    (hr : run (Tracked.step cfg) Tracked.init acts = some S) :
    (∀ w, S.log.ring = some w → S.source = some (!S.log.active)) ∧
    (∀ a, S.log.issues a = true → S.log.ring = none) ∧
    S.log.durableLsn + S.log.outstanding + S.log.logbufOffset = S.log.currentLsn ∧
    S.log.allocated.Pairwise (fun b b' => b.lsn + b.size ≤ b'.lsn) ∧
    (∀ b ∈ S.log.allocated, b.bufOffset + b.size ≤ cfg.logbufSize ∧
      (b ∈ S.log.buffered ∨ ∃ w ∈ S.log.submitted, b ∈ w.blocks) ∧
      ∀ w ∈ S.log.submitted, b ∈ w.blocks → w.segment = b.segnum) ∧
    S.log.durableCsn % 2 ^ 63
      = lastCsn (S.log.allocated.filter fun b => b.lsn + b.size ≤ S.log.durableLsn) ∧
    (∀ as bs M, acts = as ++ bs → run (Tracked.step cfg) Tracked.init as = some M →
      M.log.durableCsn % 2 ^ 63 ≤ S.log.durableCsn % 2 ^ 63) ∧
    (∀ as a M, acts = as ++ [a] → run (Tracked.step cfg) Tracked.init as = some M →
      M.log.pc.lastFlush = true → S.log.pc = .unlocked →
      S.log.durableLsn = S.log.currentLsn) := by
  have h := Tracked.run_inv hok hr
  refine ⟨?_, ?_, h.span.lsn, h.span.apart, ?_, ?_, ?_, ?_⟩
  · exact fun w hw => h.source (by rw [hw]; rfl)
  · intro a ha
    refine h.buf.ring_none ?_
    cases a with
    | proceed => cases hq : S.log.pc <;> simp_all [issues]
    | _ => cases ha
  · intro b hb
    exact ⟨h.inside b hb, h.buf.kept b hb, fun w hw hin => h.span.segment w hw b hin⟩
  · rw [h.filter_durable]
    exact h.last.value
  · intro as bs M hacts hM
    subst hacts
    obtain ⟨hok', hrest⟩ := Along.append hok hM
    have hM' := Tracked.run_inv hok' hM
    obtain ⟨M', hM'', hr'⟩ := run_append.mp hr
    obtain rfl : M = M' := Option.some_inj.mp (hM.symm.trans hM'')
    rw [hM'.last.value, h.last.value]
    refine Tracked.lastCsn_le_of_prefix ?_ (Tracked.run_written hrest hM' hr')
    -- the CSNs of the polled blocks begin the list of all
    rw [Tracked.writtenBlocks_csns]
    have hall := Tracked.run_csns hok Tracked.inv_init hr
    have hpre : S.log.writtenCsns <+: (as ++ bs).filterMap LogAct.csn? := by
      rw [show (as ++ bs).filterMap LogAct.csn? = S.log.csns by rw [hall]; rfl, csns,
        List.append_assoc, List.append_assoc]
      exact List.prefix_append _ _
    exact hcsns.sublist hpre.sublist
  · intro as a M hacts hM hpc hret
    subst hacts
    obtain ⟨hok', hrest⟩ := Along.append hok hM
    obtain ⟨M', hM', hs⟩ := run_snoc.mp hr
    obtain rfl : M = M' := Option.some_inj.mp (hM.symm.trans hM')
    exact (Tracked.run_inv hok' hM).lastFlush hrest.1 hs hpc hret

/-- Two blocks and their flushes, with a new segment between them. -/
theorem double_buffered_switch :
    ∃ S, run (Tracked.step smallLog) Tracked.init (switchActs ++ [.complete, .proceed]) = some S ∧
      S.log.allocated.length = 2 ∧ S.log.durableLsn = S.log.currentLsn := by
  have hok : Along (Tracked.step smallLog) Tracked.SizesOk Tracked.init
      (switchActs ++ [.complete, .proceed]) := by decide
  have hM : (run (Tracked.step smallLog) Tracked.init (switchActs ++ [.complete])).map
      (fun M => M.log.pc.lastFlush) = some true := by decide
  have hS : (run (Tracked.step smallLog) Tracked.init (switchActs ++ [.complete, .proceed])).map
      (fun S => (S.log.allocated.length, S.log.pc)) = some (2, .unlocked) := by decide
  obtain ⟨M, hM, hpc⟩ := Option.map_eq_some_iff.mp hM
  obtain ⟨S, hS, hend⟩ := Option.map_eq_some_iff.mp hS
  obtain ⟨hlen, hret⟩ := Prod.mk.inj hend
  obtain ⟨-, -, -, -, -, -, -, hlast⟩ := double_buffered (by decide) hok hS
  exact ⟨S, hS, hlen, hlast _ .proceed M rfl hM hpc hret⟩

/-- Log buffers of 4 GB. -/
def hugeLog : LogConfig where
  logbufSize := 2 ^ 32
  segmentSize := 2 ^ 34
  directIo := true

/-- Two blocks of 2 GB fill the buffer, and `logbuf_offset` is 0 again: `last_flush`
returns without a write, and the blocks are forgotten. -/
theorem forgotten_blocks :
    ∃ S, run (Tracked.step hugeLog) Tracked.init
        [.allocate (2 ^ 31 - 2048) 1, .proceed, .allocate (2 ^ 31 - 2048) 2, .proceed,
          .flush true, .proceed] = some S ∧
      S.log.pc = .unlocked ∧ S.log.submitted = [] ∧ S.log.durableLsn = 0 ∧
      S.log.logbufOffset = 0 ∧ S.log.currentLsn = 2 ^ 32 := by
  have hrun : (run (Tracked.step hugeLog) Tracked.init
      [.allocate (2 ^ 31 - 2048) 1, .proceed, .allocate (2 ^ 31 - 2048) 2, .proceed,
        .flush true, .proceed]).map (fun S => (S.log.pc, S.log.submitted, S.log.durableLsn,
          S.log.logbufOffset, S.log.currentLsn)) = some (.unlocked, [], 0, 0, 2 ^ 32) := by
    decide +kernel
  obtain ⟨S, hr, hS⟩ := Option.map_eq_some_iff.mp hrun
  simp only [Prod.mk.injEq] at hS
  exact ⟨S, hr, hS⟩

end PreemptDB
