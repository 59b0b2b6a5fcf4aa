/-
The owner of a log commits (`transaction::si_commit`), while other threads flush.

`allocate_log_block` reserves a block under the lock of the log; the owner fills it
afterwards, record by record, without the lock.  Every other thread may call
`enqueue_flush` or `last_flush` meanwhile.

* `OwnedLog` — a log with its owner, the headers of its blocks and the cold entries;
* `step` — one access of the owner, or one step of the log;
* `whole_blocks` — if nobody flushes while a block is being filled, then only complete
  blocks are written;
* `half_block` — otherwise a write takes a block without its records.
-/
import PreemptDB.DoubleBuffer

namespace PreemptDB

open Function

/-- The payload for which the holder of the lock wants a block. -/
def LogPc.payload? : LogPc → Option ℕ
  | .allocate payload _ | .allocateFlush payload _ _ => some payload
  | _ => none

namespace LogCommit

open StepRun TlsLog

/-- An entry of a write set: the size of the tuple, and whether it becomes cold. -/
structure LoggedWrite where
  size : ℕ
  isCold : Bool
  deriving DecidableEq, Repr

/-- The bytes that the records of a write set need. -/
def totalSize (ws : List LoggedWrite) : ℕ := (ws.map fun w => logrecSize w.size).sum

/-- `log_size`, a 32-bit integer. -/
def logSize (ws : List LoggedWrite) : ℕ := totalSize ws % 2 ^ 32

/-- Where the owner is in `si_commit`. -/
inductive Owner
  | idle
  /-- in `allocate_log_block` -/
  | allocating (ws : List LoggedWrite)
  /-- in the loop over the write set -/
  | populating (lb : Block) (ws : List LoggedWrite)
  /-- the record is in the block, at the given offset -/
  | logged (lb : Block) (off : ℕ) (w : LoggedWrite) (ws : List LoggedWrite)
  deriving DecidableEq, Repr

/-- The CSN of a block that the owner has not yet filled. -/
def Owner.unfilled : Owner → Option ℕ
  | .populating lb (_ :: _) | .logged lb _ _ (_ :: _) => some lb.csn
  | _ => none

/-- The owner has records that are not in its block. -/
def Owner.writes (o : Owner) : Bool := o.unfilled.isSome

/-- An entry of an OID array that was overwritten with a log address, and the record for
which this was done. -/
structure ColdEntry where
  block : Block
  off : ℕ
  size : ℕ
  ptr : FatPtr
  deriving DecidableEq, Repr

/-- The header of a block, as a write takes it. -/
structure Image where
  block : Block
  payloadSize : ℕ
  capacity : ℕ
  deriving DecidableEq, Repr

/-- A log and its owner.  `payloadSize` and `capacity` are the headers of the blocks, which
are told apart by their CSNs; `images` is a ghost. -/
structure OwnedLog where
  log : TlsLog
  owner : Owner
  payloadSize : ℕ → ℕ
  capacity : ℕ → ℕ
  entries : List ColdEntry
  images : List Image

/-- What the owner and the others do.  The CSN of `commit` is drawn from the global
counter, so it is above those of all blocks before. -/
inductive CommitAct
  | commit (ws : List LoggedWrite) (csn : ℕ)
  /-- the record of the next write is put into the block -/
  | logInsert
  /-- the entry of a cold write gets the address of its record -/
  | setAddress
  /-- the end of `si_commit` -/
  | finish
  /-- another thread calls `enqueue_flush` or `last_flush` -/
  | flush (last : Bool)
  | complete
  | proceed
  deriving DecidableEq, Repr

namespace OwnedLog

def init : OwnedLog where
  log := .init
  owner := .idle
  payloadSize _ := 0
  capacity _ := 0
  entries := []
  images := []

/-- The blocks in the active buffer, as they are now. -/
def buffer (S : OwnedLog) : List Image :=
  S.log.buffered.map fun b => ⟨b, S.payloadSize b.csn, S.capacity b.csn⟩

/-- `pdest`: the address of the record at offset `off`. -/
def address (logid : ℕ) (lb : Block) (off size : ℕ) : FatPtr :=
  LSN.toPtr ⟨logid, lb.lsn + pageSize + off, lb.segnum⟩ (defaultSizeCode (logrecSize size))

/-- The owner after a step of the log: `allocate_log_block` returns when the lock is
released, with a new block. -/
def afterLog (S : OwnedLog) (L : TlsLog) : OwnedLog :=
  match S.owner, L.pc, L.buffered.getLast? with
  | .allocating ws, .unlocked, some lb =>
    { S with
      log := L
      owner := .populating lb ws
      payloadSize := Function.update S.payloadSize lb.csn 0
      capacity := Function.update S.capacity lb.csn (logSize ws) }
  | _, _, _ => { S with log := L }

def step (cfg : LogConfig) (logid : ℕ) (S : OwnedLog) : CommitAct → Option OwnedLog
  | .commit ws csn =>
    if S.owner = .idle ∧ ws ≠ [] ∧ ∀ b ∈ S.log.allocated, b.csn < csn then
      (logStep cfg S.log (.allocate (logSize ws) csn)).map fun L =>
        { S with log := L, owner := .allocating ws }
    else none
  | .logInsert =>
    match S.owner with
    | .populating lb (w :: ws) =>
      let off := S.payloadSize lb.csn
      let next := (off + logrecSize w.size) % 2 ^ 32
      if S.capacity lb.csn < (off + w.size) % 2 ^ 32 ∨ S.capacity lb.csn < next then none
      else some { S with
        owner := .logged lb off w ws
        payloadSize := Function.update S.payloadSize lb.csn next }
    | _ => none
  | .setAddress =>
    match S.owner with
    | .logged lb off w ws => some { S with
        owner := .populating lb ws
        entries := S.entries ++
          if w.isCold then [⟨lb, off, w.size, address logid lb off w.size⟩] else [] }
    | _ => none
  | .finish =>
    match S.owner with
    | .populating lb [] =>
      if S.payloadSize lb.csn = S.capacity lb.csn then some { S with owner := .idle } else none
    | _ => none
  | .flush last => (logStep cfg S.log (.flush last)).map fun L => { S with log := L }
  | .complete => (logStep cfg S.log .complete).map fun L => { S with log := L }
  | .proceed =>
    (logStep cfg S.log .proceed).map fun L =>
      { S.afterLog L with
        images := if S.log.issues .proceed then S.images ++ S.buffer else S.images }

end OwnedLog

section Whole

variable {cfg : LogConfig} {logid : ℕ} {S S' : OwnedLog} {L : TlsLog}

/-- The blocks in the active buffer are complete, but for the one with this CSN. -/
def FullBut (S : OwnedLog) (csn : Option ℕ) : Prop :=
  ∀ b ∈ S.log.buffered, some b.csn ≠ csn → S.payloadSize b.csn = S.capacity b.csn

/-- What is missing in the block are these records; the sizes have 32 bits. -/
def Missing (S : OwnedLog) (lb : Block) (ws : List LoggedWrite) : Prop :=
  S.payloadSize lb.csn < 2 ^ 32 ∧
    (S.payloadSize lb.csn + totalSize ws) % 2 ^ 32 = S.capacity lb.csn

/-- A block without missing records is complete. -/
theorem Missing.full {lb : Block} (h : Missing S lb []) :
    S.payloadSize lb.csn = S.capacity lb.csn := by
  rw [← h.2]
  exact (Nat.mod_eq_of_lt h.1).symm

/-- A record goes into the block. -/
theorem Missing.logInsert {lb : Block} {w : LoggedWrite} {ws : List LoggedWrite}
    (h : Missing S lb (w :: ws)) (hpay : S'.payloadSize = Function.update S.payloadSize lb.csn
      ((S.payloadSize lb.csn + logrecSize w.size) % 2 ^ 32)) (hcap : S'.capacity = S.capacity) :
    Missing S' lb ws := by
  have hcons : totalSize (w :: ws) = logrecSize w.size + totalSize ws := by simp [totalSize]
  rw [Missing, hpay, hcap, update_self, Nat.mod_add_mod, Nat.add_assoc, ← hcons]
  exact ⟨Nat.mod_lt _ (by decide), h.2⟩

/-- The owner holds the lock of the log while it allocates; while it fills its block,
nobody does. -/
def OwnerOk (S : OwnedLog) : Owner → Prop
  | .idle => S.log.pc.csn? = none
  | .allocating _ => ∃ csn, S.log.pc.csn? = some csn ∧ ∀ b ∈ S.log.allocated, b.csn < csn
  | .populating lb ws | .logged lb _ _ ws =>
    S.log.pc.csn? = none ∧ (ws ≠ [] → S.log.pc = .unlocked) ∧ Missing S lb ws

structure Whole (S : OwnedLog) : Prop where
  ring : S.log.ring.isSome = S.log.flushing
  blocks : S.images.map Image.block = S.log.submitted.flatMap Write.blocks
  whole : ∀ im ∈ S.images, im.payloadSize = im.capacity
  kept : S.log.buffered ⊆ S.log.allocated
  full : FullBut S S.owner.unfilled
  owner : OwnerOk S S.owner

/-- Nobody calls a flush function while the owner fills a block. -/
def Undisturbed (S : OwnedLog) : CommitAct → Prop
  | .flush _ => S.owner.writes = false
  | _ => True

instance (S : OwnedLog) : DecidablePred (Undisturbed S)
  | .flush _ => inferInstanceAs (Decidable (_ = _))
  | .commit _ _ | .logInsert | .setAddress | .finish | .complete | .proceed => isTrue trivial

/-- What a step of the holder of the lock does to the buffers. -/
inductive Proceeds (L L' : TlsLog) : Prop
  /-- padding, polling, or the end of a flush -/
  | keeps (hissues : L.issues .proceed = false) (hbuf : L'.buffered = L.buffered)
      (hsub : L'.submitted = L.submitted) (hring : L'.ring.isSome = L'.flushing)
      (hcsn : L'.pc.csn? = L.pc.csn?) (hpay : L'.pc.payload? = L.pc.payload?)
      (hall : L'.allocated = L.allocated)
  /-- the active buffer is submitted by a flush function -/
  | flushes (hissues : L.issues .proceed = true) (hbuf : L'.buffered = [])
      (hsub : L'.submitted.flatMap Write.blocks
        = L.submitted.flatMap Write.blocks ++ L.buffered)
      (hring : L'.ring.isSome = L'.flushing) (hcsn : L.pc.csn? = none)
      (hcsn' : L'.pc.csn? = none) (hall : L'.allocated = L.allocated)
  /-- a block is returned, after the active buffer is submitted or not -/
  | returns (lb : Block) (hcsn : L.pc.csn? = some lb.csn) (hpc : L'.pc = .unlocked)
      (hbuf : L'.buffered = (if L.issues .proceed then [] else L.buffered) ++ [lb])
      (hsub : L'.submitted.flatMap Write.blocks = L.submitted.flatMap Write.blocks ++
        if L.issues .proceed then L.buffered else [])
      (hring : L'.ring.isSome = L'.flushing)
      (hpay : ∃ payload, L.pc.payload? = some payload ∧ lb.size = allocSize payload)
      (hall : L'.allocated = L.allocated ++ [lb])

theorem finishAllocate_last (L : TlsLog) (payload csn : ℕ) (n : Bool) :
    ∃ lb : Block, lb.csn = csn ∧ (L.finishAllocate payload csn n).allocated = L.allocated ++ [lb] ∧
      lb.size = allocSize payload ∧ (L.finishAllocate payload csn n).buffered = L.buffered ++ [lb] ∧
      (L.finishAllocate payload csn n).submitted = L.submitted ∧
      (L.finishAllocate payload csn n).ring = L.ring ∧
      (L.finishAllocate payload csn n).flushing = L.flushing ∧
      (L.finishAllocate payload csn n).pc = .unlocked := by
  cases n <;> exact ⟨_, rfl, rfl, rfl, rfl, rfl, rfl, rfl, rfl⟩

theorem submitted_issue (hring : L.ring = none) :
    L.issueFlush.switchLogBuffers.submitted.flatMap Write.blocks
      = L.submitted.flatMap Write.blocks ++ L.buffered := by
  simp [submitted, issueFlush, switchLogBuffers, hring]

/-- Padding leaves the buffers and the ring alone. -/
theorem pad_fields {M : TlsLog} (hp : L.pad cfg = some M) :
    M.buffered = L.buffered ∧ M.submitted = L.submitted ∧ M.ring = L.ring ∧
      M.flushing = L.flushing ∧ M.allocated = L.allocated := by
  obtain ⟨aligned, -, rfl⟩ := Option.map_eq_some_iff.mp hp
  exact ⟨rfl, rfl, rfl, rfl, rfl⟩

theorem Proceeds.poll {L' : TlsLog} (hp : L.pollFlush = some L')
    (hissues : L.issues .proceed = false) : Proceeds L L' := by
  obtain ⟨w, hw, -, rfl⟩ := pollFlush_eq_some hp
  refine .keeps hissues rfl ?_ rfl rfl rfl rfl
  simp [submitted, hw]

theorem proceeds {L' : TlsLog} (hring : L.ring.isSome = L.flushing)
    (hs : logStep cfg L .proceed = some L') : Proceeds L L' := by
  have hnone : L.flushing = false → L.ring = none := by
    intro hf
    rwa [hf, Option.isSome_eq_false_iff, Option.isNone_iff_eq_none] at hring
  cases logStep_move hs with
  | pad payload csn M hpc _ _ hM =>
    obtain ⟨hbuf, hsub, hr, hf, hall⟩ := pad_fields hM
    refine .keeps (by simp [issues, hpc]) hbuf hsub ?_ (by rw [hpc]; rfl) (by rw [hpc]; rfl) hall
    show M.ring.isSome = M.flushing
    rw [hr, hf, hring]
  | place payload csn hpc _ _ =>
    have hissues : L.issues .proceed = false := by simp [issues, hpc]
    obtain ⟨lb, rfl, hall, hsize, hbuf, hsub, hr, hf, hpc'⟩ :=
      finishAllocate_last L payload csn (needsSegment cfg L payload)
    refine .returns lb (by rw [hpc]; rfl) hpc' ?_ ?_ ?_ ⟨payload, by rw [hpc]; rfl, hsize⟩ hall
    · simpa [hissues] using hbuf
    · simp [hissues, hsub]
    · rw [hr, hf, hring]
  | pollAllocate _ _ _ _ hpc hf hM | poll _ _ hpc hf hM =>
    exact .poll hM (by simp [issues, hpc, hf])
  | switch payload csn n hpc hf =>
    have hissues : L.issues .proceed = true := by simp [issues, hpc, hf]
    obtain ⟨lb, rfl, hall, hsize, hbuf, hsub, hr, hf', hpc'⟩ :=
      finishAllocate_last L.issueFlush.switchLogBuffers payload csn n
    refine .returns lb (by rw [hpc]; rfl) hpc' ?_ ?_ ?_ ⟨payload, by rw [hpc]; rfl, hsize⟩ hall
    · simpa [hissues, switchLogBuffers] using hbuf
    · rw [hsub, submitted_issue (hnone hf), hissues]
      rfl
    · rw [hr, hf']
      rfl
  | issue last M hpc hf h0 hM =>
    obtain ⟨hbuf, hsub, hr, hf', hall⟩ := pad_fields hM
    refine .flushes (by simp [issues, hpc, hf, h0]) rfl ?_ rfl (by rw [hpc]; rfl) ?_ hall
    · rw [← hbuf, ← hsub]
      exact submitted_issue (hr.trans (hnone hf))
    · cases last <;> rfl
  | empty last hpc hf h0 =>
    exact .keeps (by simp [issues, hpc, h0]) rfl rfl hring (by rw [hpc]; rfl) (by rw [hpc]; rfl)
      rfl
  | lastPoll M hpc hM =>
    obtain ⟨w, hw, -, rfl⟩ := pollFlush_eq_some hM
    refine .keeps (by simp [issues, hpc]) rfl ?_ rfl (by rw [hpc]; rfl) (by rw [hpc]; rfl) rfl
    simp [submitted, hw]

/-- Only an owner that allocates waits for the log. -/
theorem afterLog_of_ne (ho : ∀ ws, S.owner ≠ .allocating ws) :
    S.afterLog L = { S with log := L } := by
  cases ho' : S.owner with
  | allocating ws => exact absurd ho' (ho ws)
  | _ => simp [OwnedLog.afterLog, ho']

theorem afterLog_of_csn {csn : ℕ} (hcsn : L.pc.csn? = some csn) :
    S.afterLog L = { S with log := L } := by
  cases hpc : L.pc with
  | unlocked =>
    rw [hpc] at hcsn
    cases hcsn
  | _ => simp [OwnedLog.afterLog, hpc]

theorem afterLog_returns {ws : List LoggedWrite} {lb : Block} {bs : List Block}
    (ho : S.owner = .allocating ws) (hpc : L.pc = .unlocked) (hbuf : L.buffered = bs ++ [lb]) :
    S.afterLog L = { S with
      log := L
      owner := .populating lb ws
      payloadSize := Function.update S.payloadSize lb.csn 0
      capacity := Function.update S.capacity lb.csn (logSize ws) } := by
  simp [OwnedLog.afterLog, ho, hpc, hbuf]

/-- While somebody runs in the log the owner has no block to fill. -/
theorem Whole.unfilled_eq_none (h : Whole S) (hs : logStep cfg S.log .proceed = some L) :
    S.owner.unfilled = none := by
  have hlocked : S.log.pc ≠ .unlocked := fun hpc => by simp [logStep, TlsLog.proceed, hpc] at hs
  have howner := h.owner
  cases ho : S.owner with
  | idle => rfl
  | allocating ws => rfl
  | populating lb ws | logged lb off w ws =>
    rw [ho] at howner
    cases ws with
    | nil => rfl
    | cons w ws => exact absurd (howner.2.1 (List.cons_ne_nil _ _)) hlocked

/-- An owner that does not allocate does not hold the lock. -/
theorem OwnerOk.csn?_eq_none {o : Owner} (h : OwnerOk S o) (ho : ∀ ws, o ≠ .allocating ws) :
    S.log.pc.csn? = none := by
  cases o with
  | idle => exact h
  | allocating ws => exact absurd rfl (ho ws)
  | populating lb ws | logged lb off w ws => exact h.1

/-- A flush function goes on, beside an owner that has nothing to fill. -/
theorem OwnerOk.flush {o : Owner} (h : OwnerOk S o) (ho : ∀ ws, o ≠ .allocating ws)
    (hfill : o.unfilled = none) (hcsn : S'.log.pc.csn? = none)
    (hpay : S'.payloadSize = S.payloadSize) (hcap : S'.capacity = S.capacity) : OwnerOk S' o := by
  have missing : ∀ {lb ws}, Missing S lb ws → Missing S' lb ws := by
    intro lb ws hm
    rw [Missing, hpay, hcap]
    exact hm
  cases o with
  | idle => exact hcsn
  | allocating ws => exact absurd rfl (ho ws)
  | populating lb ws | logged lb off w ws =>
    cases ws with
    | nil => exact ⟨hcsn, fun hne => absurd rfl hne, missing h.2.2⟩
    | cons w ws => cases hfill

/-- All blocks in the active buffer are complete when it is submitted. -/
theorem Whole.images_append (h : Whole S) (hfull : FullBut S none) :
    (∀ im ∈ S.images ++ S.buffer, im.payloadSize = im.capacity) ∧
      (S.images ++ S.buffer).map Image.block
        = S.log.submitted.flatMap Write.blocks ++ S.log.buffered := by
  constructor
  · intro im him
    rcases List.mem_append.mp him with him | him
    · exact h.whole im him
    · obtain ⟨b, hb, rfl⟩ := List.mem_map.mp him
      exact hfull b hb (by simp)
  · rw [List.map_append, h.blocks, OwnedLog.buffer, List.map_map]
    simp [comp_def]

theorem Whole.proceed (h : Whole S) (hs : logStep cfg S.log .proceed = some L) :
    Whole { S.afterLog L with
      images := if S.log.issues .proceed then S.images ++ S.buffer else S.images } := by
  have hfill := h.unfilled_eq_none hs
  have hfull : FullBut S none := hfill ▸ h.full
  obtain ⟨hwhole, hblocks⟩ := h.images_append hfull
  by_cases halloc : ∃ ws, S.owner = .allocating ws
  · obtain ⟨ws, ho⟩ := halloc
    have howner := h.owner
    rw [ho] at howner
    obtain ⟨csn, hcsn, hlt⟩ := howner
    cases proceeds h.ring hs with
    | keeps hissues hbuf hsub hring hcsn' _ hall =>
      rw [hissues, afterLog_of_csn (hcsn'.trans hcsn)]
      refine ⟨hring, ?_, h.whole, ?_, ?_, ?_⟩
      · show S.images.map Image.block = L.submitted.flatMap Write.blocks
        rw [hsub]
        exact h.blocks
      · show L.buffered ⊆ L.allocated
        rw [hbuf, hall]
        exact h.kept
      · exact fun b hb => h.full b (hbuf ▸ hb)
      · show OwnerOk _ S.owner
        rw [ho]
        exact ⟨csn, hcsn'.trans hcsn, fun b hb => hlt b (hall ▸ hb)⟩
    | flushes _ _ _ _ hnone =>
      rw [hcsn] at hnone
      cases hnone
    | returns lb hsome hpc hbuf hsub hring _ hall =>
      obtain rfl : csn = lb.csn := Option.some_inj.mp (hcsn.symm.trans hsome)
      have hmem : ∀ b ∈ L.buffered, b ∈ S.log.buffered ∨ b = lb := by
        intro b hb
        rw [hbuf, List.mem_append, List.mem_singleton] at hb
        cases hissues : S.log.issues .proceed with
        | true => exact Or.inr (by simpa [hissues] using hb)
        | false => simpa [hissues] using hb
      rw [afterLog_returns ho hpc hbuf]
      refine ⟨hring, ?_, ?_, ?_, ?_, ?_⟩
      · show List.map Image.block (if _ then _ else _) = L.submitted.flatMap Write.blocks
        rw [hsub]
        cases hissues : S.log.issues .proceed with
        | true => simpa [hissues] using hblocks
        | false => simpa [hissues] using h.blocks
      · show ∀ im ∈ (if S.log.issues .proceed = true then S.images ++ S.buffer else S.images),
          im.payloadSize = im.capacity
        cases hissues : S.log.issues .proceed with
        | true => exact hwhole
        | false => exact h.whole
      · show L.buffered ⊆ L.allocated
        intro b hb
        rw [hall, List.mem_append, List.mem_singleton]
        exact (hmem b hb).imp_left fun hb => h.kept hb
      · -- the blocks before have smaller CSNs, so their headers are not touched
        intro b hb hne
        show Function.update S.payloadSize lb.csn 0 b.csn
          = Function.update S.capacity lb.csn (logSize ws) b.csn
        rcases hmem b hb with hb | rfl
        · have hne' : b.csn ≠ lb.csn := (hlt b (h.kept hb)).ne
          rw [update_of_ne hne', update_of_ne hne']
          exact hfull b hb (by simp)
        · -- the new block is complete if there is nothing to write
          cases ws with
          | nil => simp [logSize, totalSize]
          | cons w ws => exact absurd rfl hne
      · refine ⟨by show L.pc.csn? = none; rw [hpc]; rfl, fun _ => hpc, ?_, ?_⟩
        · show Function.update S.payloadSize lb.csn 0 lb.csn < 2 ^ 32
          rw [update_self]
          decide
        · show (Function.update S.payloadSize lb.csn 0 lb.csn + totalSize ws) % 2 ^ 32
            = Function.update S.capacity lb.csn (logSize ws) lb.csn
          rw [update_self, update_self, Nat.zero_add]
          rfl
  · -- somebody else holds the lock
    have ho : ∀ ws, S.owner ≠ .allocating ws := fun ws hws => halloc ⟨ws, hws⟩
    have hcsn := h.owner.csn?_eq_none ho
    rw [afterLog_of_ne ho]
    cases proceeds h.ring hs with
    | keeps hissues hbuf hsub hring hcsn' _ hall =>
      rw [hissues]
      refine ⟨hring, ?_, h.whole, ?_, ?_, h.owner.flush ho hfill (hcsn'.trans hcsn) rfl rfl⟩
      · show S.images.map Image.block = L.submitted.flatMap Write.blocks
        rw [hsub]
        exact h.blocks
      · show L.buffered ⊆ L.allocated
        rw [hbuf, hall]
        exact h.kept
      · exact fun b hb => h.full b (hbuf ▸ hb)
    | flushes hissues hbuf hsub hring _ hcsn' =>
      rw [hissues]
      refine ⟨hring, ?_, hwhole, ?_, ?_, h.owner.flush ho hfill hcsn' rfl rfl⟩
      · show (S.images ++ S.buffer).map Image.block = L.submitted.flatMap Write.blocks
        rw [hblocks, hsub]
      · show L.buffered ⊆ L.allocated
        simp [hbuf]
      · show ∀ b ∈ L.buffered, _
        simp [hbuf]
    | returns lb hsome =>
      rw [hcsn] at hsome
      cases hsome

/-- A step keeps the blocks whole, if no flush function is called in between. -/
theorem Whole.step (h : Whole S) {a : CommitAct} (hok : Undisturbed S a)
    (hs : S.step cfg logid a = some S') : Whole S' := by
  have howner := h.owner
  have hfull := h.full
  cases a with
  | commit ws csn =>
    obtain ⟨⟨ho, -, hlt⟩, hs⟩ := Option.ite_none_right_eq_some.mp hs
    rw [ho] at hfull
    obtain ⟨L, hL, rfl⟩ := Option.map_eq_some_iff.mp hs
    obtain ⟨-, hL⟩ := Option.ite_none_right_eq_some.mp hL
    cases hL
    exact ⟨h.ring, h.blocks, h.whole, h.kept, hfull, csn, rfl, hlt⟩
  | logInsert =>
    simp only [OwnedLog.step] at hs
    split at hs
    · next lb w ws ho =>
      rw [ho] at howner hfull
      obtain ⟨hcsn, hpc, hlt, hrest⟩ := howner
      obtain ⟨-, hs⟩ := Option.ite_none_left_eq_some.mp hs
      have hS' := (Option.some_inj.mp hs).symm
      have hmiss : Missing S' lb ws :=
        Missing.logInsert ⟨hlt, hrest⟩ (by rw [hS']) (by rw [hS'])
      subst hS'
      refine ⟨h.ring, h.blocks, h.whole, h.kept, fun b hb hne => ?_, hcsn, fun _ => hpc (by simp),
        hmiss⟩
      by_cases heq : b.csn = lb.csn
      · -- the block is complete if this was its last record
        cases ws with
        | nil =>
          rw [heq]
          exact hmiss.full
        | cons w ws => exact absurd (congrArg some heq) hne
      · show Function.update S.payloadSize lb.csn _ b.csn = S.capacity b.csn
        rw [update_of_ne heq]
        exact hfull b hb fun hsome => heq (Option.some_inj.mp hsome)
    · cases hs
  | setAddress =>
    simp only [OwnedLog.step] at hs
    split at hs
    · next lb off w ws ho =>
      rw [ho] at howner hfull
      cases hs
      refine ⟨h.ring, h.blocks, h.whole, h.kept, ?_, howner⟩
      cases ws <;> exact hfull
    · cases hs
  | finish =>
    simp only [OwnedLog.step] at hs
    split at hs
    · next lb ho =>
      rw [ho] at howner hfull
      obtain ⟨-, hs⟩ := Option.ite_none_right_eq_some.mp hs
      cases hs
      exact ⟨h.ring, h.blocks, h.whole, h.kept, hfull, howner.1⟩
    · cases hs
  | flush last =>
    obtain ⟨L, hL, rfl⟩ := Option.map_eq_some_iff.mp hs
    obtain ⟨hpc, hL⟩ := Option.ite_none_right_eq_some.mp hL
    cases hL
    -- an owner that allocates holds the lock
    have ho : ∀ ws, S.owner ≠ .allocating ws := by
      intro ws hws
      rw [hws] at howner
      obtain ⟨csn, hcsn, -⟩ := howner
      rw [hpc] at hcsn
      cases hcsn
    have hfill : S.owner.unfilled = none := by
      rwa [Undisturbed, Owner.writes, Option.isSome_eq_false_iff,
        Option.isNone_iff_eq_none] at hok
    exact ⟨h.ring, h.blocks, h.whole, h.kept, hfull, howner.flush ho hfill rfl rfl rfl⟩
  | complete =>
    obtain ⟨L, hL, rfl⟩ := Option.map_eq_some_iff.mp hs
    obtain ⟨-, hL⟩ := Option.ite_none_right_eq_some.mp hL
    cases hL
    refine ⟨h.ring, h.blocks, h.whole, h.kept, hfull, ?_⟩
    show OwnerOk _ S.owner
    cases ho : S.owner <;> rw [ho] at howner <;> exact howner
  | proceed =>
    obtain ⟨L, hL, rfl⟩ := Option.map_eq_some_iff.mp hs
    exact h.proceed hL

end Whole

end LogCommit

end PreemptDB
