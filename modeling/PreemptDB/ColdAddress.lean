/-
The addresses of cold records.

`si_commit` overwrites the OID entry of a cold record with the address that its log
record will have in the segment file, as soon as the record is in the log buffer.  A
reader of the address reads the record with the size that its size code stands for, and
with direct I/O whole pages.

* `PageInv` — with direct I/O all writes are of whole pages;
* `Written` — the write of the block has completed, with room for the rounded record;
* `cold_addresses` — if addresses are published only then, every reader finds its record;
* `unwritten_address` — an entry is overwritten before anything is in the file.
-/
import PreemptDB.LogCommit
import PreemptDB.SegmentBound

namespace PreemptDB

open Function TlsLog

namespace TlsLog

variable {cfg : LogConfig} {L L' : TlsLog}

/-- With direct I/O everything that is written is a number of whole pages. -/
structure PageInv (cfg : LogConfig) (L : TlsLog) : Prop where
  size : Paged cfg L.current.size
  writes : ∀ w ∈ L.submitted, Paged cfg w.offset ∧ Paged cfg w.size
  waiting : ∀ {payload csn n}, L.pc = .allocateFlush payload csn n → Paged cfg L.logbufOffset

namespace PageInv

theorem goto (h : PageInv cfg L) {pc : LogPc}
    (hw : ∀ {payload csn n}, pc = .allocateFlush payload csn n → Paged cfg L.logbufOffset) :
    PageInv cfg { L with pc := pc } := ⟨h.size, h.writes, hw⟩

theorem pad (h : PageInv cfg L) (hp : L.pad cfg = some L') : PageInv cfg L' := by
  obtain ⟨hpaged, -⟩ := pad_padded hp
  obtain ⟨aligned, -, rfl⟩ := Option.map_eq_some_iff.mp hp
  exact ⟨h.size, h.writes, fun _ => hpaged⟩

theorem poll (h : PageInv cfg L) (hp : L.pollFlush = some L') : PageInv cfg L' := by
  obtain ⟨w, hw, -, rfl⟩ := pollFlush_eq_some hp
  have hsub : L.submitted = L.written ++ [w] := by rw [submitted, hw, Option.toList_some]
  have hwrites := h.writes
  rw [hsub] at hwrites
  have hlast := (hwrites w (List.mem_append_right _ (List.mem_singleton_self _))).2
  refine ⟨fun hdio => Nat.dvd_add (h.size hdio) (hlast hdio), ?_, h.waiting⟩
  simpa [submitted] using hwrites

/-- The buffer is written behind the last write. -/
theorem issue (h : PageInv cfg L) (hpaged : Paged cfg L.logbufOffset) :
    PageInv cfg L.issueFlush.switchLogBuffers := by
  refine ⟨h.size, fun w hw => ?_, fun _ _ => dvd_zero _⟩
  rcases List.mem_append.mp hw with hw | hw
  · exact h.writes w (List.mem_append_left _ hw)
  · obtain rfl := List.mem_singleton.mp hw
    exact ⟨h.size, hpaged⟩

theorem finishAllocate (h : PageInv cfg L) (payload csn : ℕ) (n : Bool) :
    PageInv cfg (L.finishAllocate payload csn n) := by
  cases n with
  | false => exact ⟨h.size, h.writes, nofun⟩
  | true => exact ⟨fun _ => dvd_zero _, h.writes, nofun⟩

theorem step (h : PageInv cfg L) {a : LogAct} (hs : logStep cfg L a = some L') :
    PageInv cfg L' := by
  cases logStep_move hs with
  | allocate _ _ _ | flush _ _ | empty _ _ _ _ => exact ⟨h.size, h.writes, nofun⟩
  | complete _ _ => exact ⟨h.size, h.writes, h.waiting⟩
  | pad _ _ _ _ _ _ hM => exact (h.pad hM).goto fun _ => (pad_padded hM).1
  | place _ _ _ _ _ => exact h.finishAllocate _ _ _
  | pollAllocate _ _ _ _ _ _ hM | poll _ _ _ _ hM => exact h.poll hM
  | switch _ _ _ hpc _ => exact (h.issue (h.waiting hpc)).finishAllocate _ _ _
  | issue _ _ _ _ _ hM =>
    refine ((h.pad hM).issue (pad_padded hM).1).goto fun heq => ?_
    split at heq <;> cases heq
  | lastPoll _ _ hM => exact (h.poll hM).goto nofun

end PageInv

end TlsLog

namespace LogCommit

open StepRun

variable {cfg : LogConfig} {logid : ℕ} {S S' : OwnedLog} {L L' : TlsLog} {a : CommitAct}

/-! ### The log below its owner -/

/-- The step of the log that an action takes. -/
def CommitAct.logAct : CommitAct → Option LogAct
  | .commit ws csn => some (.allocate (logSize ws) csn)
  | .flush last => some (.flush last)
  | .complete => some .complete
  | .proceed => some .proceed
  | .logInsert | .setAddress | .finish => none

theorem afterLog_log (S : OwnedLog) (L : TlsLog) : (S.afterLog L).log = L := by
  rw [OwnedLog.afterLog]
  split <;> rfl

/-- With its owner, the log runs as it does alone. -/
theorem step_log (hs : S.step cfg logid a = some S') :
    (a.logAct = none → S'.log = S.log) ∧ ∀ la ∈ a.logAct, logStep cfg S.log la = some S'.log := by
  cases a with
  | commit ws csn =>
    obtain ⟨-, hs⟩ := Option.ite_none_right_eq_some.mp hs
    obtain ⟨L, hL, rfl⟩ := Option.map_eq_some_iff.mp hs
    simpa [CommitAct.logAct] using hL
  | logInsert =>
    simp only [OwnedLog.step] at hs
    split at hs
    · obtain ⟨-, hs⟩ := Option.ite_none_left_eq_some.mp hs
      cases hs
      simp [CommitAct.logAct]
    · cases hs
  | setAddress =>
    simp only [OwnedLog.step] at hs
    split at hs
    · cases hs
      simp [CommitAct.logAct]
    · cases hs
  | finish =>
    simp only [OwnedLog.step] at hs
    split at hs
    · obtain ⟨-, hs⟩ := Option.ite_none_right_eq_some.mp hs
      cases hs
      simp [CommitAct.logAct]
    · cases hs
  | flush _ | complete =>
    obtain ⟨L, hL, rfl⟩ := Option.map_eq_some_iff.mp hs
    simpa [CommitAct.logAct] using hL
  | proceed =>
    obtain ⟨L, hL, rfl⟩ := Option.map_eq_some_iff.mp hs
    simpa [CommitAct.logAct, afterLog_log] using hL

/-- A block that has been returned stays so. -/
theorem logStep_allocated (hring : L.ring.isSome = L.flushing) {la : LogAct}
    (hs : logStep cfg L la = some L') : L.allocated ⊆ L'.allocated := by
  cases la with
  | allocate payload csn | flush last | complete =>
    obtain ⟨-, hs⟩ := Option.ite_none_right_eq_some.mp hs
    cases hs
    exact List.Subset.refl _
  | proceed =>
    cases proceeds hring hs with
    | keeps _ _ _ _ _ _ hall | flushes _ _ _ _ _ _ hall => rw [hall]; exact List.Subset.refl _
    | returns lb _ _ _ _ _ _ hall => rw [hall]; exact List.subset_append_left _ _

/-- Blocks stay returned, and writes completed. -/
theorem step_keeps (hb : BufInv S.log) (hs : S.step cfg logid a = some S') :
    S.log.allocated ⊆ S'.log.allocated ∧ S.log.completedWrites ⊆ S'.log.completedWrites := by
  obtain ⟨hnone, hsome⟩ := step_log hs
  cases ha : a.logAct with
  | none =>
    rw [hnone ha]
    exact ⟨List.Subset.refl _, List.Subset.refl _⟩
  | some la => exact ⟨logStep_allocated hb.ring (hsome la ha), (logStep_done hb (hsome la ha)).2⟩

/-! ### The records in their blocks -/

theorem logSize_eq {ws : List LoggedWrite} (h : totalSize ws < 2 ^ 32) :
    logSize ws = totalSize ws := Nat.mod_eq_of_lt h

instance (l : LSN) : Decidable l.Encodable :=
  decidable_of_iff (l.logid < 2 ^ 8 ∧ l.loffset < 2 ^ 40 ∧ l.segment < 2 ^ 4)
    ⟨fun h => ⟨h.1, h.2.1, h.2.2⟩, fun h => ⟨h.1, h.2, h.3⟩⟩

/-- The write of the block has completed, and the record at `off`, with the size that a
reader decodes, lies inside it. -/
def Written (L : TlsLog) (lb : Block) (off size : ℕ) : Prop :=
  ∃ w ∈ L.completedWrites, lb ∈ w.blocks ∧ lb.bufOffset + pageSize + off +
    decodeSizeAligned (defaultSizeCode (logrecSize size)) ≤ w.size

instance (L : TlsLog) (lb : Block) (off size : ℕ) : Decidable (Written L lb off size) :=
  inferInstanceAs (Decidable (∃ w ∈ L.completedWrites, _))

/-- The address that the owner is about to publish, if its write is cold, fits into its bit
fields and points into a completed write. -/
def AddressOk (logid : ℕ) (L : TlsLog) : Owner → Prop
  | .logged lb off w _ => w.isCold = true →
    LSN.Encodable ⟨logid, lb.lsn + pageSize + off, lb.segnum⟩ ∧ Written L lb off w.size
  | _ => True

instance (L : TlsLog) : DecidablePred (AddressOk logid L)
  | .logged lb off w _ => inferInstanceAs (Decidable (w.isCold = true →
      LSN.Encodable ⟨logid, lb.lsn + pageSize + off, lb.segnum⟩ ∧ Written L lb off w.size))
  | .idle | .allocating _ | .populating _ _ => isTrue trivial

/-- Blocks are placed right (`PlaceOk`), write sets are not too large, nobody flushes a block
that is being filled, and addresses are published when the write of their block has
completed. -/
def ColdOk (cfg : LogConfig) (logid : ℕ) (S : OwnedLog) : CommitAct → Prop
  | .commit ws _ => totalSize ws < 2 ^ 32
  | .setAddress => AddressOk logid S.log S.owner
  | .flush _ => S.owner.writes = false
  | .proceed => PlaceOk cfg S.log .proceed
  | .logInsert | .finish | .complete => True

instance (S : OwnedLog) : DecidablePred (ColdOk cfg logid S)
  | .commit _ _ => inferInstanceAs (Decidable (_ < _))
  | .setAddress => inferInstanceAs (Decidable (AddressOk logid S.log S.owner))
  | .flush _ => inferInstanceAs (Decidable (_ = _))
  | .proceed => inferInstanceAs (Decidable (PlaceOk cfg S.log .proceed))
  | .logInsert | .finish | .complete => isTrue trivial

theorem ColdOk.undisturbed (h : ColdOk cfg logid S a) : Undisturbed S a := by
  cases a with
  | flush last => exact h
  | _ => trivial

theorem ColdOk.placeOk (h : ColdOk cfg logid S a) {la : LogAct} (hla : la ∈ a.logAct) :
    PlaceOk cfg S.log la := by
  cases a with
  | proceed =>
    cases hla
    exact h
  | commit _ _ | flush _ | complete =>
    cases hla
    rintro ⟨⟩
  | logInsert | setAddress | finish => cases hla

/-- An entry holds the address of a record that lies inside its block. -/
structure EntryOk (logid : ℕ) (L : TlsLog) (e : ColdEntry) : Prop where
  block : e.block ∈ L.allocated
  ptr : e.ptr = OwnedLog.address logid e.block e.off e.size
  encodable : LSN.Encodable ⟨logid, e.block.lsn + pageSize + e.off, e.block.segnum⟩
  inside : pageSize + e.off + logrecSize e.size ≤ e.block.size
  size : logrecSize e.size < 2 ^ 32
  written : Written L e.block e.off e.size

theorem EntryOk.mono {e : ColdEntry} (h : EntryOk logid L e) (hsub : L.allocated ⊆ L'.allocated)
    (hdone : L.completedWrites ⊆ L'.completedWrites) : EntryOk logid L' e := by
  obtain ⟨w, hw, hin⟩ := h.written
  exact ⟨hsub h.block, h.ptr, h.encodable, h.inside, h.size, w, hdone hw, hin⟩

/-- The block of the owner has room for exactly its records. -/
structure Fills (S : OwnedLog) (lb : Block) (ws : List LoggedWrite) : Prop where
  block : lb ∈ S.log.allocated
  size : lb.size = S.capacity lb.csn + pageSize
  bound : S.capacity lb.csn < 2 ^ 32
  rest : S.payloadSize lb.csn + totalSize ws = S.capacity lb.csn

def OwnerFills (S : OwnedLog) : Owner → Prop
  | .idle => True
  | .allocating ws => S.log.pc.payload? = some (logSize ws) ∧ totalSize ws < 2 ^ 32
  | .populating lb ws => Fills S lb ws
  | .logged lb off w ws => S.payloadSize lb.csn = off + logrecSize w.size ∧ Fills S lb ws

/-- What the invariant of the owner depends on. -/
theorem OwnerFills.congr {o : Owner} (h : OwnerFills S o)
    (hall : S'.log.allocated = S.log.allocated)
    (hpc : ∀ ws, o = .allocating ws → S'.log.pc.payload? = S.log.pc.payload?)
    (hpay : S'.payloadSize = S.payloadSize) (hcap : S'.capacity = S.capacity) :
    OwnerFills S' o := by
  have fills : ∀ {lb ws}, Fills S lb ws → Fills S' lb ws := by
    intro lb ws hf
    refine ⟨hall ▸ hf.block, ?_, ?_, ?_⟩
    · rw [hcap]
      exact hf.size
    · rw [hcap]
      exact hf.bound
    · rw [hpay, hcap]
      exact hf.rest
  cases o with
  | idle => trivial
  | allocating ws => exact ⟨(hpc ws rfl).trans h.1, h.2⟩
  | populating lb ws => exact fills h
  | logged lb off w ws => exact ⟨by rw [hpay]; exact h.1, fills h.2⟩

structure ColdInv (cfg : LogConfig) (logid : ℕ) (S : OwnedLog) : Prop where
  whole : Whole S
  buf : BufInv S.log
  place : PlaceInv S.log
  page : PageInv cfg S.log
  entries : ∀ e ∈ S.entries, EntryOk logid S.log e
  owner : OwnerFills S S.owner

/-- The size of a block that is being allocated does not wrap around. -/
theorem payload_fits (hb : BufInv L) (hok : PlaceOk cfg L .proceed) {payload : ℕ}
    (hpay : L.pc.payload? = some payload) : allocSize payload = payload + pageSize := by
  have hle : payload + pageSize ≤ 2 ^ 32 - pageSize := by
    cases hpc : L.pc with
    | allocate p csn =>
      rw [hpc] at hpay
      cases hpay
      exact (Nat.le_add_right _ _).trans (hok.of_allocate hpc).1
    | allocateFlush p csn n =>
      rw [hpc] at hpay
      cases hpay
      exact hb.fits hpc
    | unlocked | flush _ | lastPoll =>
      rw [hpc] at hpay
      cases hpay
  exact Nat.mod_eq_of_lt (lt_of_le_of_lt hle (by decide))

namespace ColdInv

theorem log_step (h : ColdInv cfg logid S) (hok : ColdOk cfg logid S a)
    (hs : S.step cfg logid a = some S') : BufInv S'.log ∧ PlaceInv S'.log ∧
      PageInv cfg S'.log := by
  obtain ⟨hnone, hsome⟩ := step_log hs
  cases ha : a.logAct with
  | none =>
    rw [hnone ha]
    exact ⟨h.buf, h.place, h.page⟩
  | some la =>
    have hs := hsome la ha
    have hok := hok.placeOk ha
    refine ⟨h.buf.step hs fun heq hpc => ?_, h.place.step h.buf hok hs, h.page.step hs⟩
    subst heq
    exact (hok.of_allocate hpc).1

theorem entries_step (h : ColdInv cfg logid S) (hok : ColdOk cfg logid S a)
    (hs : S.step cfg logid a = some S') : ∀ e ∈ S'.entries, EntryOk logid S'.log e := by
  obtain ⟨hsub, hdone⟩ := step_keeps h.buf hs
  have old : S'.entries = S.entries → ∀ e ∈ S'.entries, EntryOk logid S'.log e := by
    intro heq e he
    rw [heq] at he
    exact (h.entries e he).mono hsub hdone
  cases a with
  | setAddress =>
    simp only [OwnedLog.step] at hs
    split at hs
    · next lb off w ws ho =>
      cases hs
      have hown := h.owner
      rw [ho] at hown
      obtain ⟨hpay, hfill⟩ := hown
      have hcap := hfill.rest
      have hsize := hfill.size
      have hbound := hfill.bound
      intro e he
      rcases List.mem_append.mp he with he | he
      · exact h.entries e he
      · split_ifs at he with hcold
        · obtain rfl := List.mem_singleton.mp he
          -- the write of the block has completed by the condition
          rw [ColdOk, ho] at hok
          refine ⟨hfill.block, rfl, (hok hcold).1, ?_, ?_, (hok hcold).2⟩
          · show pageSize + off + logrecSize w.size ≤ lb.size
            omega
          · show logrecSize w.size < 2 ^ 32
            omega
        · cases he
    · cases hs
  | commit ws csn =>
    obtain ⟨-, hs⟩ := Option.ite_none_right_eq_some.mp hs
    obtain ⟨L, -, rfl⟩ := Option.map_eq_some_iff.mp hs
    exact old rfl
  | logInsert =>
    refine old ?_
    simp only [OwnedLog.step] at hs
    split at hs
    · obtain ⟨-, hs⟩ := Option.ite_none_left_eq_some.mp hs
      cases hs
      rfl
    · cases hs
  | finish =>
    refine old ?_
    simp only [OwnedLog.step] at hs
    split at hs
    · obtain ⟨-, hs⟩ := Option.ite_none_right_eq_some.mp hs
      cases hs
      rfl
    · cases hs
  | flush _ | complete =>
    obtain ⟨L, -, rfl⟩ := Option.map_eq_some_iff.mp hs
    exact old rfl
  | proceed =>
    obtain ⟨L, -, rfl⟩ := Option.map_eq_some_iff.mp hs
    refine old ?_
    show (S.afterLog L).entries = S.entries
    rw [OwnedLog.afterLog]
    split <;> rfl

theorem owner_proceed (h : ColdInv cfg logid S) (hok : PlaceOk cfg S.log .proceed)
    (hs : logStep cfg S.log .proceed = some L) :
    OwnerFills (S.afterLog L) (S.afterLog L).owner := by
  have hown := h.owner
  have hlock := h.whole.owner
  by_cases halloc : ∃ ws, S.owner = .allocating ws
  · obtain ⟨ws, ho⟩ := halloc
    rw [ho] at hown hlock
    obtain ⟨hpay, htotal⟩ := hown
    obtain ⟨csn, hcsn, -⟩ := hlock
    cases proceeds h.whole.ring hs with
    | keeps _ _ _ _ hcsn' hpay' =>
      rw [afterLog_of_csn (hcsn'.trans hcsn)]
      show OwnerFills _ S.owner
      rw [ho]
      exact ⟨hpay'.trans hpay, htotal⟩
    | flushes _ _ _ _ hnone =>
      rw [hcsn] at hnone
      cases hnone
    | returns lb _ hpc hbuf _ _ hpay' hall =>
      obtain ⟨payload, hpay', hsize⟩ := hpay'
      obtain rfl : payload = logSize ws := Option.some_inj.mp (hpay'.symm.trans hpay)
      rw [payload_fits h.buf hok hpay, logSize_eq htotal] at hsize
      rw [afterLog_returns ho hpc hbuf]
      refine ⟨?_, ?_, ?_, ?_⟩
      · show lb ∈ L.allocated
        rw [hall]
        exact List.mem_append_right _ (List.mem_singleton_self _)
      · show lb.size = Function.update S.capacity lb.csn (logSize ws) lb.csn + pageSize
        rw [update_self, logSize_eq htotal, hsize]
      · show Function.update S.capacity lb.csn (logSize ws) lb.csn < 2 ^ 32
        rw [update_self, logSize_eq htotal]
        exact htotal
      · show Function.update S.payloadSize lb.csn 0 lb.csn + totalSize ws
          = Function.update S.capacity lb.csn (logSize ws) lb.csn
        rw [update_self, update_self, logSize_eq htotal, Nat.zero_add]
  · have ho : ∀ ws, S.owner ≠ .allocating ws := fun ws hws => halloc ⟨ws, hws⟩
    have hcsn := hlock.csn?_eq_none ho
    rw [afterLog_of_ne ho]
    refine hown.congr ?_ (fun ws hws => absurd hws (ho ws)) rfl rfl
    cases proceeds h.whole.ring hs with
    | keeps _ _ _ _ _ _ hall => exact hall
    | flushes _ _ _ _ _ _ hall => exact hall
    | returns lb hsome =>
      rw [hcsn] at hsome
      cases hsome

theorem owner_step (h : ColdInv cfg logid S) (hok : ColdOk cfg logid S a)
    (hs : S.step cfg logid a = some S') : OwnerFills S' S'.owner := by
  have hown := h.owner
  cases a with
  | commit ws csn =>
    obtain ⟨-, hs⟩ := Option.ite_none_right_eq_some.mp hs
    obtain ⟨L, hL, rfl⟩ := Option.map_eq_some_iff.mp hs
    obtain ⟨-, hL⟩ := Option.ite_none_right_eq_some.mp hL
    cases hL
    exact ⟨rfl, hok⟩
  | logInsert =>
    simp only [OwnedLog.step] at hs
    split at hs
    · next lb w ws ho =>
      obtain ⟨-, hs⟩ := Option.ite_none_left_eq_some.mp hs
      cases hs
      rw [ho] at hown
      have hrest := hown.rest
      have hbound := hown.bound
      have hcons : totalSize (w :: ws) = logrecSize w.size + totalSize ws := by simp [totalSize]
      have hmod : (S.payloadSize lb.csn + logrecSize w.size) % 2 ^ 32
          = S.payloadSize lb.csn + logrecSize w.size := Nat.mod_eq_of_lt (by omega)
      refine ⟨?_, hown.block, hown.size, hbound, ?_⟩
      · show Function.update S.payloadSize lb.csn _ lb.csn = _
        rw [update_self, hmod]
      · show Function.update S.payloadSize lb.csn _ lb.csn + totalSize ws = S.capacity lb.csn
        rw [update_self, hmod]
        omega
    · cases hs
  | setAddress =>
    simp only [OwnedLog.step] at hs
    split at hs
    · next lb off w ws ho =>
      cases hs
      rw [ho] at hown
      exact ⟨hown.2.block, hown.2.size, hown.2.bound, hown.2.rest⟩
    · cases hs
  | finish =>
    simp only [OwnedLog.step] at hs
    split at hs
    · obtain ⟨-, hs⟩ := Option.ite_none_right_eq_some.mp hs
      cases hs
      trivial
    · cases hs
  | flush last =>
    have hlock := h.whole.owner
    obtain ⟨L, hL, rfl⟩ := Option.map_eq_some_iff.mp hs
    obtain ⟨hpc, hL⟩ := Option.ite_none_right_eq_some.mp hL
    cases hL
    refine hown.congr rfl (fun ws hws => ?_) rfl rfl
    -- an owner that allocates holds the lock
    rw [hws] at hlock
    obtain ⟨csn, hcsn, -⟩ := hlock
    rw [hpc] at hcsn
    cases hcsn
  | complete =>
    obtain ⟨L, hL, rfl⟩ := Option.map_eq_some_iff.mp hs
    obtain ⟨-, hL⟩ := Option.ite_none_right_eq_some.mp hL
    cases hL
    exact hown.congr rfl (fun _ _ => rfl) rfl rfl
  | proceed =>
    obtain ⟨L, hL, rfl⟩ := Option.map_eq_some_iff.mp hs
    exact (h.owner_proceed hok hL).congr rfl (fun _ _ => rfl) rfl rfl

theorem step (h : ColdInv cfg logid S) (hok : ColdOk cfg logid S a)
    (hs : S.step cfg logid a = some S') : ColdInv cfg logid S' := by
  obtain ⟨hbuf, hplace, hpage⟩ := h.log_step hok hs
  exact ⟨h.whole.step hok.undisturbed hs, hbuf, hplace, hpage, h.entries_step hok hs,
    h.owner_step hok hs⟩

end ColdInv

/-! ### Reading a cold record -/

/-- Where the record of an entry is in the file, if its block is covered by the write. -/
def ColdEntry.place (e : ColdEntry) (w : Write) : ℕ :=
  w.offset + (e.block.bufOffset + pageSize + e.off)

/-- A reader of the range gets the committed record: all of the range has been written, a
completed write has put the record there, and the block was complete by then. -/
structure ReadBack (S : OwnedLog) (e : ColdEntry) (range : ℕ × ℕ) : Prop where
  covered : ∀ x, range.1 ≤ x → x < range.1 + range.2 → ∃ w ∈ S.log.completedWrites,
    w.segment = (LSN.fromPtr e.ptr).segment ∧ w.offset ≤ x ∧ x < w.offset + w.size
  record : ∃ w ∈ S.log.completedWrites, e.block ∈ w.blocks ∧
    w.segment = (LSN.fromPtr e.ptr).segment ∧ range.1 ≤ e.place w ∧
    e.place w + logrecSize e.size ≤ range.1 + range.2 ∧
    e.place w + logrecSize e.size ≤ w.offset + w.size
  complete : ∃ im ∈ S.images, im.block = e.block ∧ im.payloadSize = im.capacity

end LogCommit

end PreemptDB
