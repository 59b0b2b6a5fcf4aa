/-
What the durable CSN of one log says about its blocks.

The CSNs of a log pass from its owner to the buffer, to the outstanding write
and to the completed writes; `csns` lists them in that order, and a step of the
log only moves the borders within that list (`logStep_csns`).  `WordInv` relates
the list to the word that the log publishes: its value is the last CSN of a
polled write, and without the dirty flag nothing is under way.

The second half needs that `poll_flush` is called with an empty active buffer
only, because it drops the dirty flag whatever the active buffer holds.
-/
import Mathlib.Data.Nat.Bitwise
import PreemptDB.LogPlacement
import PreemptDB.Pcommit

namespace PreemptDB

def Write.csns (w : Write) : List ℕ := w.blocks.map Block.csn

/-- The CSN for which a call allocates a block. -/
def LogAct.csn? : LogAct → Option ℕ
  | .allocate _ csn => some csn
  | _ => none

/-- The holder of the lock calls `poll_flush` next if a write is outstanding. -/
def LogPc.polls : LogPc → Bool
  | .allocateFlush .. | .flush _ | .lastPoll => true
  | _ => false

/-! ### The dirty flag -/

theorem dirtyFlag_eq : dirtyFlag = 2 ^ 63 := rfl

theorem or_dirtyFlag {w : ℕ} (h : w < 2 ^ 64) : w ||| dirtyFlag = 2 ^ 63 + w % 2 ^ 63 := by
  have hlow : w % 2 ^ 63 < 2 ^ 63 := Nat.mod_lt _ (by norm_num)
  have hadd : 2 ^ 63 * 1 + w % 2 ^ 63 = 2 ^ 63 * 1 ||| w % 2 ^ 63 :=
    Nat.two_pow_add_eq_or_of_lt hlow 1
  rw [Nat.mul_one] at hadd
  rcases Nat.lt_or_ge w (2 ^ 63) with hw | hw
  · rw [hadd, dirtyFlag_eq, Nat.mod_eq_of_lt hw, Nat.or_comm]
  · have hsplit : w = 2 ^ 63 + w % 2 ^ 63 := by omega
    rw [dirtyFlag_eq, Nat.or_comm]
    nth_rewrite 1 [hsplit]
    rw [hadd, ← Nat.or_assoc, Nat.or_self]

theorem and_dirtyFlag_ne_zero {w : ℕ} (h : w < 2 ^ 64) :
    w &&& dirtyFlag ≠ 0 ↔ 2 ^ 63 ≤ w := by
  have hbit : w &&& dirtyFlag ≠ 0 ↔ w / 2 ^ 63 % 2 = 1 := by
    rw [dirtyFlag_eq, Nat.and_two_pow, Nat.testBit_eq_decide_div_mod_eq]
    simp
  rw [hbit]
  omega

theorem and_dirtyFlag_sub_one (w : ℕ) : w &&& (dirtyFlag - 1) = w % 2 ^ 63 :=
  Nat.and_two_pow_sub_one_eq_mod w 63

namespace TlsLog

variable {cfg : LogConfig} {L L' : TlsLog} {word₀ : ℕ}

/-! ### The CSNs of a log -/

def writtenCsns (L : TlsLog) : List ℕ := L.written.flatMap Write.csns

def ringCsns (L : TlsLog) : List ℕ := L.ring.toList.flatMap Write.csns

/-- All CSNs for which blocks were asked for, in order. -/
def csns (L : TlsLog) : List ℕ :=
  L.writtenCsns ++ L.ringCsns ++ L.buffered.map Block.csn ++ L.pc.csn?.toList

/-- The writes that have completed, polled or not. -/
def completedWrites (L : TlsLog) : List Write :=
  L.written ++ if L.completed then L.ring.toList else []

def completedCsns (L : TlsLog) : List ℕ := L.completedWrites.flatMap Write.csns

theorem csns_pad (hb : BufInv L) (hp : L.pad cfg = some L') : L'.csns = L.csns ∧
    L'.completedCsns = L.completedCsns := by
  obtain ⟨n, rfl, -⟩ := pad_eq_some hb.bound hp
  exact ⟨rfl, rfl⟩

theorem csns_poll (hp : L.pollFlush = some L') : L'.csns = L.csns ∧
    L'.completedCsns = L.completedCsns := by
  obtain ⟨w, hw, hdone, rfl⟩ := pollFlush_eq_some hp
  simp [csns, writtenCsns, ringCsns, completedCsns, completedWrites, hw, hdone]

theorem csns_issue (hring : L.ring = none) : L.issueFlush.switchLogBuffers.csns = L.csns ∧
    L.issueFlush.switchLogBuffers.completedCsns = L.completedCsns := by
  simp [csns, writtenCsns, ringCsns, completedCsns, completedWrites, hring, issueFlush,
    switchLogBuffers, Write.csns]

theorem csns_finishAllocate {csn : ℕ} (payload : ℕ) (n : Bool) (hpc : L.pc.csn? = some csn) :
    (L.finishAllocate payload csn n).csns = L.csns ∧
      (L.finishAllocate payload csn n).completedCsns = L.completedCsns := by
  have hnone : LogPc.unlocked.csn? = none := rfl
  cases n <;>
    simp [csns, writtenCsns, ringCsns, completedCsns, completedWrites, finishAllocate, place,
      createSegment, hpc, hnone]

/-- A step moves the borders between written, submitted, buffered and awaited
CSNs; only a call of `allocate_log_block` adds one. -/
theorem logStep_csns (hb : BufInv L) {a : LogAct} (hs : logStep cfg L a = some L') :
    L'.csns = L.csns ++ a.csn?.toList ∧ L.completedCsns ⊆ L'.completedCsns := by
  have goto : ∀ {M : TlsLog} {pc : LogPc}, M.csns = L.csns ∧ M.completedCsns = L.completedCsns →
      pc.csn? = M.pc.csn? → ({ M with pc := pc } : TlsLog).csns = L.csns ++ [] ∧
        L.completedCsns ⊆ ({ M with pc := pc } : TlsLog).completedCsns := by
    intro M pc hM hpc
    refine ⟨?_, hM.2 ▸ List.Subset.refl _⟩
    rw [List.append_nil, ← hM.1, csns, hpc]
    rfl
  have same : ∀ {M : TlsLog}, M.csns = L.csns ∧ M.completedCsns = L.completedCsns →
      M.csns = L.csns ++ [] ∧ L.completedCsns ⊆ M.completedCsns := by
    intro M hM
    exact ⟨hM.1.trans (List.append_nil _).symm, hM.2 ▸ List.Subset.refl _⟩
  cases logStep_move hs with
  | allocate payload csn hpc =>
    refine ⟨?_, List.Subset.refl _⟩
    have hnone : L.pc.csn? = none := by rw [hpc]; rfl
    simp only [csns, hnone, Option.toList_none, List.append_nil]
    rfl
  | flush _ hpc | empty _ hpc _ _ => exact goto ⟨rfl, rfl⟩ (by rw [hpc]; rfl)
  | complete _ hdone =>
    refine ⟨(List.append_nil _).symm, ?_⟩
    simp [completedCsns, completedWrites, hdone]
  | pad payload csn M hpc _ _ hM =>
    refine goto (csns_pad hb hM) ?_
    obtain ⟨n, rfl, -⟩ := pad_eq_some hb.bound hM
    rw [hpc]
    rfl
  | place payload csn hpc _ _ => exact same (csns_finishAllocate payload _ (by rw [hpc]; rfl))
  | pollAllocate _ _ _ _ _ _ hM | poll _ _ _ _ hM => exact same (csns_poll hM)
  | switch payload csn n hpc hf =>
    obtain ⟨h1, h2⟩ := csns_issue (hb.ring_none hf)
    have hcsn : L.issueFlush.switchLogBuffers.pc.csn? = some csn := by
      show L.pc.csn? = _
      rw [hpc]
      rfl
    obtain ⟨k1, k2⟩ := csns_finishAllocate payload n hcsn
    exact same ⟨k1.trans h1, k2.trans h2⟩
  | issue last M hpc hf h0 hM =>
    obtain ⟨h1, h2⟩ := csns_pad hb hM
    obtain ⟨n, rfl, -⟩ := pad_eq_some hb.bound hM
    obtain ⟨k1, k2⟩ := csns_issue (hb.ring_none hf)
    refine goto ⟨k1.trans h1, k2.trans h2⟩ ?_
    show _ = L.pc.csn?
    rw [hpc]
    split <;> rfl
  | lastPoll M hpc hM =>
    refine goto (csns_poll hM) ?_
    obtain ⟨w, -, -, rfl⟩ := pollFlush_eq_some hM
    show _ = L.pc.csn?
    rw [hpc]
    rfl

/-- What has been polled, or has completed, stays so. -/
theorem logStep_done (hb : BufInv L) {a : LogAct} (hs : logStep cfg L a = some L') :
    L.written ⊆ L'.written ∧ L.completedWrites ⊆ L'.completedWrites := by
  have same : ∀ {M : TlsLog}, M.written = L.written → M.completedWrites = L.completedWrites →
      L.written ⊆ M.written ∧ L.completedWrites ⊆ M.completedWrites := by
    intro M hwritten hdone
    rw [hwritten, hdone]
    exact ⟨List.Subset.refl _, List.Subset.refl _⟩
  have polled : ∀ {M : TlsLog} (pc : LogPc), L.pollFlush = some M →
      L.written ⊆ M.written ∧
        L.completedWrites ⊆ ({ M with pc := pc } : TlsLog).completedWrites := by
    intro M pc hM
    obtain ⟨w, hw, hc, rfl⟩ := pollFlush_eq_some hM
    exact ⟨List.subset_append_left _ _, by simp [completedWrites, hw, hc]⟩
  have finished : ∀ {M : TlsLog} (payload csn : ℕ) (n : Bool), M.written = L.written →
      M.completedWrites = L.completedWrites →
      L.written ⊆ (M.finishAllocate payload csn n).written ∧
        L.completedWrites ⊆ (M.finishAllocate payload csn n).completedWrites := by
    intro M payload csn n hwritten hdone
    cases n <;> exact same hwritten hdone
  have issued : L.flushing = false → L.issueFlush.switchLogBuffers.completedWrites
      = L.completedWrites := by
    intro hf
    simp [completedWrites, issueFlush, switchLogBuffers, hb.ring_none hf]
  cases logStep_move hs with
  | allocate _ _ _ | flush _ _ | empty _ _ _ _ => exact same rfl rfl
  | complete _ hdone => exact ⟨List.Subset.refl _, by simp [completedWrites, hdone]⟩
  | pad _ _ _ _ _ _ hM =>
    obtain ⟨n, rfl, -⟩ := pad_eq_some hb.bound hM
    exact same rfl rfl
  | place _ _ _ _ _ => exact finished _ _ _ rfl rfl
  | pollAllocate _ _ _ _ _ _ hM | poll _ _ _ _ hM => exact polled _ hM
  | switch _ _ _ _ hf => exact finished _ _ _ rfl (issued hf)
  | issue _ _ _ hf _ hM =>
    obtain ⟨n, rfl, -⟩ := pad_eq_some hb.bound hM
    exact same rfl (issued hf)
  | lastPoll M _ hM => exact polled (M := M) _ hM

/-! ### The word of a log -/

/-- What the durable CSN of a log says, if it was `word₀` at first: its value is that of a
polled block, if there is one, and without the dirty flag no CSN is under way. -/
structure WordInv (word₀ : ℕ) (L : TlsLog) : Prop where
  nonempty : L.logbufOffset ≠ 0 → L.buffered ≠ []
  waiting : ∀ {payload csn n}, L.pc = .allocateFlush payload csn n → L.buffered ≠ []
  lastActive : L.buffered ≠ [] → L.lastCsns L.active ∈ L.buffered.map Block.csn
  lastRing : L.ring.isSome → L.lastCsns (!L.active) ∈ L.ringCsns
  word : L.durableCsn < 2 ^ 64
  base : L.written = [] ∧ L.durableCsn % 2 ^ 63 = word₀ % 2 ^ 63 ∨
    L.durableCsn % 2 ^ 63 ∈ L.writtenCsns
  quiet : L.durableCsn < 2 ^ 63 → L.ring = none ∧ L.buffered = [] ∧ L.pc.csn? = none

/-- Every call of `poll_flush` finds an empty active buffer, and no allocation
wraps around. -/
def FlushOk (L : TlsLog) (a : LogAct) : Prop :=
  a = .proceed → (∀ payload ∈ L.pc.allocating, L.NoWrap payload) ∧
    (L.flushing = true → L.pc.polls = true → L.logbufOffset = 0)

instance (L : TlsLog) (a : LogAct) : Decidable (FlushOk L a) :=
  inferInstanceAs (Decidable (_ → _))

theorem wordInv_init (h : word₀ < 2 ^ 64) : WordInv word₀ { init with durableCsn := word₀ } where
  nonempty h := absurd rfl h
  waiting h := by cases h
  lastActive h := absurd rfl h
  lastRing h := by cases h
  word := h
  base := .inl ⟨rfl, rfl⟩
  quiet _ := ⟨rfl, rfl, rfl⟩

namespace WordInv

theorem goto (h : WordInv word₀ L) {pc : LogPc}
    (hw : ∀ {payload csn n}, pc = .allocateFlush payload csn n → L.buffered ≠ [])
    (hq : L.durableCsn < 2 ^ 63 → pc.csn? = none) : WordInv word₀ { L with pc := pc } :=
  ⟨h.nonempty, hw, h.lastActive, h.lastRing, h.word, h.base,
    fun hlt => ⟨(h.quiet hlt).1, (h.quiet hlt).2.1, hq hlt⟩⟩

/-- During an allocation the word is dirty. -/
theorem dirty (h : WordInv word₀ L) {csn : ℕ} (hpc : L.pc.csn? = some csn) :
    ¬ L.durableCsn < 2 ^ 63 := by
  intro hlt
  rw [(h.quiet hlt).2.2] at hpc
  cases hpc

theorem setDirtyFlag (h : WordInv word₀ L) {payload csn : ℕ} :
    WordInv word₀ { L.setDirtyFlag with pc := .allocate payload csn } := by
  have hor := or_dirtyFlag h.word
  refine ⟨h.nonempty, nofun, h.lastActive, h.lastRing, ?_, ?_, fun hlt => ?_⟩
  · show L.durableCsn ||| dirtyFlag < 2 ^ 64
    omega
  · show _ ∧ (L.durableCsn ||| dirtyFlag) % 2 ^ 63 = _ ∨ (L.durableCsn ||| dirtyFlag) % 2 ^ 63 ∈ _
    have hmod : (L.durableCsn ||| dirtyFlag) % 2 ^ 63 = L.durableCsn % 2 ^ 63 := by omega
    rw [hmod]
    exact h.base
  · replace hlt : L.durableCsn ||| dirtyFlag < 2 ^ 63 := hlt
    omega

theorem pad (h : WordInv word₀ L) (hb : BufInv L) (h0 : L.logbufOffset ≠ 0)
    (hp : L.pad cfg = some L') : WordInv word₀ L' := by
  obtain ⟨n, rfl, -⟩ := pad_eq_some hb.bound hp
  exact ⟨fun _ => h.nonempty h0, h.waiting, h.lastActive, h.lastRing, h.word, h.base, h.quiet⟩

/-- Polling publishes the last CSN of the write, without the dirty flag. -/
theorem poll (h : WordInv word₀ L) (hb : BufInv L) (h0 : L.logbufOffset = 0)
    (hlt : ∀ k ∈ L.csns, k < 2 ^ 63) (hpc : L.pc.csn? = none ∨ L.buffered ≠ [])
    (hp : L.pollFlush = some L') : WordInv word₀ L' := by
  obtain ⟨w, hw, -, rfl⟩ := pollFlush_eq_some hp
  have hnone : L.buffered = [] := by
    refine List.eq_nil_iff_forall_not_mem.mpr fun b hin => ?_
    have := hb.inside b hin
    omega
  have hlast : L.lastCsns (!L.active) ∈ L.ringCsns := h.lastRing (by rw [hw]; rfl)
  have hsmall : L.lastCsns (!L.active) < 2 ^ 63 := hlt _ (by simp [csns, hlast])
  refine ⟨h.nonempty, h.waiting, h.lastActive, nofun, ?_, .inr ?_, fun _ => ?_⟩
  · show L.lastCsns (!L.active) < 2 ^ 64
    omega
  · show L.lastCsns (!L.active) % 2 ^ 63 ∈ _
    rw [Nat.mod_eq_of_lt hsmall]
    have hring : L.ringCsns = w.csns := by simp [ringCsns, hw]
    rw [hring] at hlast
    simp [writtenCsns, hlast]
  · exact ⟨rfl, hnone, hpc.resolve_right fun hne => hne hnone⟩

/-- A buffer that is not empty goes to the ring, while the word is dirty. -/
theorem issue (h : WordInv word₀ L) (hne : L.buffered ≠ []) {pc : LogPc}
    (hpc : ∀ {payload csn n}, pc ≠ .allocateFlush payload csn n) :
    WordInv word₀ { L.issueFlush.switchLogBuffers with pc := pc } := by
  have hlast := h.lastActive hne
  refine ⟨fun h0 => absurd rfl h0, fun h => absurd h hpc, fun hne => absurd rfl hne, fun _ => ?_,
    h.word, h.base, fun hlt => absurd (h.quiet hlt).2.1 hne⟩
  show L.lastCsns (!!L.active) ∈ _
  simpa [ringCsns, issueFlush, switchLogBuffers, Write.csns] using hlast

theorem createSegment (h : WordInv word₀ L) : WordInv word₀ L.createSegment :=
  ⟨h.nonempty, h.waiting, h.lastActive, h.lastRing, h.word, h.base, h.quiet⟩

theorem place (h : WordInv word₀ L) {payload csn : ℕ} (hpc : L.pc.csn? = some csn) :
    WordInv word₀ (L.place payload csn) := by
  refine ⟨fun _ => ?_, nofun, fun _ => ?_, fun hr => ?_, h.word, h.base,
    fun hlt => absurd hlt (h.dirty hpc)⟩
  · simp [TlsLog.place]
  · simp [TlsLog.place]
  · show Function.update L.lastCsns L.active csn (!L.active) ∈ _
    rw [Function.update_of_ne (by cases L.active <;> simp)]
    exact h.lastRing hr

theorem finishAllocate (h : WordInv word₀ L) {payload csn : ℕ} (n : Bool)
    (hpc : L.pc.csn? = some csn) : WordInv word₀ (L.finishAllocate payload csn n) := by
  rw [TlsLog.finishAllocate]
  split
  · exact h.createSegment.place hpc
  · exact h.place hpc

/-- A step keeps the meaning of the word. -/
theorem step (h : WordInv word₀ L) (hb : BufInv L) (hlt : ∀ k ∈ L.csns, k < 2 ^ 63) {a : LogAct}
    (hok : FlushOk L a) (hs : logStep cfg L a = some L') : WordInv word₀ L' := by
  cases logStep_move hs with
  | allocate _ _ _ => exact h.setDirtyFlag
  | flush _ _ | empty _ _ _ _ => exact h.goto nofun fun _ => rfl
  | complete _ _ =>
    exact ⟨h.nonempty, h.waiting, h.lastActive, h.lastRing, h.word, h.base, h.quiet⟩
  | pad payload csn M hpc _ hfull hM =>
    have hcsn : L.pc.csn? = some csn := by rw [hpc]; rfl
    have hdirty := h.dirty hcsn
    have hne := h.nonempty hfull.2
    have hM' := h.pad hb hfull.2 hM
    obtain ⟨n, rfl, -⟩ := pad_eq_some hb.bound hM
    exact hM'.goto (fun _ => hne) fun hlt => absurd hlt hdirty
  | place _ _ hpc _ _ => exact h.finishAllocate _ (by rw [hpc]; rfl)
  | pollAllocate _ _ _ _ hpc hf hM =>
    -- the buffer holds blocks, so `poll_flush` may not be called here
    exact h.poll hb ((hok rfl).2 hf (by rw [hpc]; rfl)) hlt (.inr (h.waiting hpc)) hM
  | switch payload csn n hpc hf =>
    have hissue : WordInv word₀
        { L.issueFlush.switchLogBuffers with pc := .allocate payload csn } :=
      h.issue (h.waiting hpc) nofun
    cases n with
    | false => exact hissue.place rfl
    | true => exact hissue.createSegment.place rfl
  | poll _ _ hpc hf hM =>
    exact h.poll hb ((hok rfl).2 hf (by rw [hpc]; rfl)) hlt (.inl (by rw [hpc]; rfl)) hM
  | issue last M hpc hf h0 hM =>
    have hM' := h.pad hb h0 hM
    have hne : M.buffered ≠ [] := by
      obtain ⟨n, rfl, -⟩ := pad_eq_some hb.bound hM
      exact h.nonempty h0
    refine hM'.issue hne ?_
    intro _ _ _
    split <;> simp
  | lastPoll M hpc hM =>
    have hf : L.flushing = true := by
      obtain ⟨w, hw, -⟩ := pollFlush_eq_some hM
      rw [← hb.ring, hw]
      rfl
    have hM' := h.poll hb ((hok rfl).2 hf (by rw [hpc]; rfl)) hlt (.inl (by rw [hpc]; rfl)) hM
    exact hM'.goto nofun fun _ => rfl

end WordInv

end TlsLog

end PreemptDB
