/-
The log round trip of a committed write.

`si_commit` logs the version at the head of each entry, with the number of bytes
that the write set recorded at the first write to the entry.  `LogInv` describes
the log block of a committing transaction record by record; it is kept by every
action (`logInv_step`).

A later update of the same record replaces the version but not the recorded
size, so the record is complete exactly if the last value is as long as the
first one: `log_roundtrip_iff`.  A shorter record is what `log_cut_short` shows.
-/
import PreemptDB.VersionChain

open ByteMem

namespace PreemptDB

/-! ### The layout of a log block -/

/-- The offset of the `i`-th record of a write set in the payload. -/
def recOffset (ws : List WriteRecord) (i : ℕ) : ℕ :=
  ((ws.take i).map fun w => logrecSize w.size).sum

theorem recOffset_succ {ws : List WriteRecord} {i : ℕ} {w : WriteRecord}
    (h : ws[i]? = some w) : recOffset ws (i + 1) = recOffset ws i + logrecSize w.size := by
  simp [recOffset, List.take_add_one, h]

theorem recOffset_mono (ws : List WriteRecord) {i j : ℕ} (h : i ≤ j) :
    recOffset ws i ≤ recOffset ws j := by
  obtain ⟨k, rfl⟩ := Nat.exists_eq_add_of_le h
  simp [recOffset, List.take_add]

/-- A record ends before the next one starts. -/
theorem recOffset_add_le {ws : List WriteRecord} {i j : ℕ} {w : WriteRecord}
    (h : ws[i]? = some w) (hij : i < j) :
    recOffset ws i + (sizeofLogRecord + w.size) ≤ recOffset ws j := by
  have hmono := recOffset_mono ws (Nat.succ_le_of_lt hij)
  rw [Nat.succ_eq_add_one, recOffset_succ h] at hmono
  have := le_logrecSize w.size
  omega

/-- The bytes of all log records of a transaction. -/
def Txn.logBytes (T : Txn) : ℕ := recOffset T.writeSet T.writeSet.length

/-- The record that the transaction logs for the entry `w` when its version has
the value `value` and is followed in memory by `beyond`. -/
def loggedRecord (T : Txn) (w : WriteRecord) (value : List UInt8) (beyond : ℕ → UInt8) :
    LogRecord where
  type := (if w.isInsert then LogrecType.insert else .update).code
  fid := w.entry.fid.toNat
  oid := w.entry.oid.toNat
  csn := T.endCsn % 2 ^ 64
  data := load (tupleImage value beyond) 0 w.size

/-- The log block `lb` of transaction `t` holds a record for every entry that its
loop has passed.  The offsets are 32-bit numbers, so the records stay apart only
if all of them fit. -/
structure LogInv (s : Db) (t : XID) (lb : LogBlock) : Prop where
  isSealed : (s.txn t).isSealed = true
  csn : lb.csn = (s.txn t).endCsn
  size : lb.payloadSize = recOffset (s.txn t).writeSet (s.txn t).idx % 2 ^ 32
  logged : (s.txn t).logBytes < 2 ^ 32 → ∀ {i w}, (s.txn t).writeSet[i]? = some w →
    i < (s.txn t).idx → ∃ p beyond, (s.txn t).written w.entry = some p ∧ s.Stamped p ∧
      (s.heap p).csn = .generate (s.txn t).endCsn ∧
      (s.heap p).pdest = persistentAddress (s.txn t) (recOffset (s.txn t).writeSet i) w.size ∧
      recordAt lb.payload (recOffset (s.txn t).writeSet i) w.size
        = loggedRecord (s.txn t) w (s.heap p).value beyond

/-- What a log block depends on is the same in both. -/
structure SameLog (T T' : Txn) : Prop where
  lb : T'.lb = T.lb
  lbLsn : T'.lbLsn = T.lbLsn
  idx : T'.idx = T.idx
  writeSet : T'.writeSet = T.writeSet
  written : T'.written = T.written
  endCsn : T'.endCsn = T.endCsn
  isSealed : T'.isSealed = T.isSealed

section

variable {s s' : Db} {ch : Entry → List Ptr} {t : XID} {lb : LogBlock}

/-- Stamped versions do not change, so other steps keep the block. -/
theorem LogInv.same (k : LogInv s t lb) (g : Grows s s') (h : SameLog (s.txn t) (s'.txn t)) :
    LogInv s' t lb := by
  have haddr : persistentAddress (s'.txn t) = persistentAddress (s.txn t) := by
    funext off size
    rw [persistentAddress, h.lbLsn, persistentAddress]
  have hrec : ∀ w, loggedRecord (s'.txn t) w = loggedRecord (s.txn t) w := by
    intro w
    funext value beyond
    simp only [loggedRecord, h.endCsn]
  refine ⟨h.isSealed.trans k.isSealed, k.csn.trans h.endCsn.symm, ?_, ?_⟩
  · rw [h.writeSet, h.idx, k.size]
  · rw [Txn.logBytes, h.writeSet, h.idx]
    intro hlt i w hw hi
    obtain ⟨p, beyond, hp, hst, hcsn, hd, hr⟩ := k.logged hlt hw hi
    rw [h.written, haddr, hrec, h.endCsn]
    rw [← g.stamped p hst] at hcsn hd hr
    exact ⟨p, beyond, hp, g.stamped_mono hst, hcsn, hd, hr⟩

/-- A fresh block holds no record. -/
theorem logInv_alloc (hwf : (s.txn t).Wf) {lsn : LSN} {stale : ℕ → UInt8}
    (hs : allocBlock s t lsn stale = some s') (hlb : (s'.txn t).lb = some lb) :
    LogInv s' t lb := by
  rw [allocBlock] at hs
  split_ifs at hs with hpc h0 <;> cases hs
  · simp at hlb
  · obtain ⟨-, hpre⟩ := hwf
    rw [hpc] at hpre
    simp only [Db.setTxn_txn, Function.update_self, Option.some_inj] at hlb
    subst hlb
    refine ⟨?_, ?_, ?_, fun _ i w _ hi => ?_⟩
    · simpa using hpre.2.2
    · simp
    · simp [hpre.2.1, recOffset]
    · simp [hpre.2.1] at hi

/-- `si_commit` adds the record of the next entry behind the others. -/
theorem logInv_stamp (h : ChainInv s ch)
    (hinv : ∀ lb, (s.txn t).lb = some lb → LogInv s t lb) {beyond : ℕ → UInt8}
    (hs : stamp s t beyond = some s') (g : Grows s s') (hlb : (s'.txn t).lb = some lb) :
    LogInv s' t lb := by
  revert hs
  fun_cases stamp s t beyond <;> rintro ⟨⟩
  case case3 T hpc w lb₀ hlb₀ hw p hp off lb' hpop hcap =>
    have k := hinv lb₀ hlb₀
    obtain ⟨l, hh⟩ := h.handling_stamp (persistentAddress T off w.size) (some lb') hpc hw hp
    obtain ⟨-, -, -, hwr⟩ := hh.head_dirty h
    obtain ⟨rfl, rfl⟩ := populateLogRecord_eq_some hpop
    simp only [Db.setTxn_txn, Function.update_self, Option.some_inj] at hlb
    subst hlb
    have hsucc := recOffset_succ hw
    refine ⟨?_, ?_, ?_, ?_⟩
    · simpa using k.isSealed
    · simpa using k.csn
    · simp only [Db.setTxn_txn, Function.update_self]
      rw [hsucc, k.size, Nat.mod_add_mod]
    · simp only [Db.setTxn_txn, Function.update_self, Txn.logBytes]
      intro hlt i v hv hi
      -- without a wrap-around the record starts behind all the others
      have hoff : lb₀.payloadSize = recOffset T.writeSet T.idx := by
        rw [k.size]
        exact Nat.mod_eq_of_lt ((recOffset_mono _ (h.wf t).1).trans_lt hlt)
      rcases Nat.lt_succ_iff_lt_or_eq.mp hi with hi | rfl
      · obtain ⟨q, b, hq, hst, hcsn, hd, hr⟩ := k.logged hlt hv hi
        have hkeep := g.stamped q hst
        refine ⟨q, b, hq, g.stamped_mono hst, hkeep ▸ hcsn, hkeep ▸ hd, ?_⟩
        rw [hkeep]
        refine Eq.trans (recordAt_congr fun j hj => writeRecord_frame ?_) hr
        have hle := recOffset_add_le hv hi
        omega
      · obtain rfl : v = w := Option.some_inj.mp (hv.symm.trans hw)
        refine ⟨p, beyond, hwr, ?_⟩
        rw [Db.Stamped, Db.setTxn_heap, Db.setCsn_heap_self, Db.setPersistentAddress_heap_self]
        refine ⟨⟨_, rfl⟩, rfl, ?_, ?_⟩
        · rw [hoff]
          rfl
        · rw [← hoff, recordAt_writeRecord, k.csn]
          have hfid := Nat.mod_eq_of_lt v.entry.fid.toNat_lt
          have hoid := Nat.mod_eq_of_lt v.entry.oid.toNat_lt
          simp only [loggedRecord, hfid, hoid]
          rfl

/-- The block and the loop variable are the same, or the transaction aborts. -/
def SameBlock (T T' : Txn) : Prop :=
  T'.lb = T.lb ∧ T'.lbLsn = T.lbLsn ∧ (T'.idx = T.idx ∨ T.pc = .aborting)

theorem SameBlock.addToWriteSet {T T' : Txn} {e : Entry} {size : ℕ} {isInsert : Bool}
    (h : T.addToWriteSet e size isInsert = some T') (p : Ptr) : SameBlock T (T'.wrote e p) := by
  rw [Txn.addToWriteSet] at h
  split_ifs at h
  cases h
  exact ⟨rfl, rfl, .inl rfl⟩

/-- Only the allocation of a block and the stamping of an entry change the log
block of a transaction that has one. -/
theorem step_block {a : Act} (hs : step s a = some s') (t : XID) :
    (∃ b, a = .stamp t b) ∨ (∃ l st, a = .allocBlock t l st) ∨
      ((s'.txn t).lb = none ∧ (s'.txn t).idx = 0) ∨ SameBlock (s.txn t) (s'.txn t) := by
  by_cases hact : a.actor s = t
  case neg =>
    obtain ⟨T, hT, -⟩ := step_txn hs
    rw [hT, Function.update_of_ne (Ne.symm hact)]
    exact .inr (.inr (.inr ⟨rfl, rfl, .inl rfl⟩))
  have same : ∀ {T}, s'.txn = Function.update s.txn t T → SameBlock (s.txn t) T →
      (∃ b, a = .stamp t b) ∨ (∃ l st, a = .allocBlock t l st) ∨
        ((s'.txn t).lb = none ∧ (s'.txn t).idx = 0) ∨ SameBlock (s.txn t) (s'.txn t) := by
    intro T hT hsame
    rw [hT, Function.update_self]
    exact .inr (.inr (.inr hsame))
  subst hact
  cases a with
  | begin =>
    cases hs
    refine .inr (.inr (.inl ?_))
    simp [Act.actor, Txn.start, Txn.unborn]
  | stamp u b => exact .inl ⟨b, rfl⟩
  | allocBlock u l st => exact .inr (.inl ⟨l, st, rfl⟩)
  | readStep u =>
    obtain ⟨pc, rfl, -⟩ := readStep_goto hs
    exact same rfl ⟨rfl, rfl, .inl rfl⟩
  | insert u e value =>
    simp only [step, insert] at hs
    split_ifs at hs
    obtain ⟨T, hT, rfl⟩ := Option.map_eq_some_iff.mp hs
    exact same rfl (.addToWriteSet hT _)
  | update u e value =>
    simp only [step, update] at hs
    split_ifs at hs
    split at hs
    · cases hs
    · cases hs
      exact same rfl ⟨rfl, rfl, .inl rfl⟩
    · cases hs
      exact same rfl ⟨rfl, rfl, .inl rfl⟩
    · obtain ⟨T, hT, rfl⟩ := Option.map_eq_some_iff.mp hs
      exact same rfl (.addToWriteSet hT _)
  | unlink u =>
    revert hs
    simp only [step]
    fun_cases unlink s u <;> rintro ⟨⟩
    case case3 T hpc w hw p hp => exact same rfl ⟨rfl, rfl, .inr hpc⟩
  | readCall | commit | phantom | drawCsn | publish | abort | finish =>
    simp only [step, drawCsn, publish] at hs
    split_ifs at hs <;> cases hs <;> exact same rfl ⟨rfl, rfl, .inl rfl⟩

/-- A sealed transaction does not abort. -/
theorem SameBlock.idx_eq {T T' : Txn} (hsame : SameBlock T T') (hwf : T.Wf)
    (hsealed : T.isSealed = true) : T'.idx = T.idx := by
  refine hsame.2.2.resolve_right fun hpc => ?_
  have hpre := hwf.2
  rw [hpc, hsealed] at hpre
  cases hpre.2

/-- A block belongs to a sealed transaction, whose writes are fixed. -/
theorem LogInv.same_of_block (k : LogInv s t lb) (h : ChainInv s ch) (g : Grows s s')
    (hsame : SameBlock (s.txn t) (s'.txn t)) : LogInv s' t lb := by
  obtain ⟨h1, h2, h3, h4⟩ := g.sealed t k.isSealed
  exact k.same g ⟨hsame.1, hsame.2.1, hsame.idx_eq (h.wf t) k.isSealed, h3, h4, h2,
    h1.trans k.isSealed.symm⟩

/-- Every action keeps the log blocks. -/
theorem logInv_step (h : ChainInv s ch) {a : Act} (hs : step s a = some s')
    (hinv : ∀ t lb, (s.txn t).lb = some lb → LogInv s t lb) :
    ∀ t lb, (s'.txn t).lb = some lb → LogInv s' t lb := by
  intro t lb hlb
  obtain ⟨ch', k⟩ := h.move (step_move hs)
  rcases step_block hs t with ⟨b, rfl⟩ | ⟨l, st, rfl⟩ | ⟨hnone, -⟩ | hsame
  · exact logInv_stamp h (hinv t) hs k.grows hlb
  · exact logInv_alloc (h.wf t) hs hlb
  · rw [hlb] at hnone
    cases hnone
  · exact (hinv t lb (hsame.1.symm.trans hlb)).same_of_block h k.grows hsame

end

theorem reached_logInv {acts : List Act} {s : Db} (hr : Reached acts s) :
    ∀ t lb, (s.txn t).lb = some lb → LogInv s t lb := by
  refine (StepRun.run_invariant (I := fun s => (∃ ch, ChainInv s ch) ∧
    ∀ t lb, (s.txn t).lb = some lb → LogInv s t lb) ?_ hr ⟨⟨_, chainInv_init⟩, ?_⟩).2
  · rintro s a s' hs ⟨⟨ch, h⟩, hinv⟩
    obtain ⟨ch', k⟩ := h.move (step_move hs)
    exact ⟨⟨ch', k.chainInv⟩, logInv_step h hs hinv⟩
  · intro t lb hlb
    cases hlb

/-! ### The head that is logged -/

/-- The run stamps the entry `w` of transaction `t`, whose head is then `p`; the
value of `p` is the same in the state `s`. -/
def StampsHead (acts : List Act) (s : Db) (t : XID) (w : WriteRecord) (p : Ptr) : Prop :=
  ∃ pre beyond post s₀, acts = pre ++ .stamp t beyond :: post ∧ Reached pre s₀ ∧
    (s₀.txn t).writeSet[(s₀.txn t).idx]? = some w ∧ s₀.entry w.entry = some p ∧
    (s.heap p).value = (s₀.heap p).value

section

variable {s s' : Db} {ch : Entry → List Ptr} {t : XID}

/-- A transaction is sealed before its loop begins. -/
theorem idx_of_newly_sealed (m : Move s s') (hwf : ∀ u, (s.txn u).Wf)
    (hns : (s.txn t).isSealed = false) (hs : (s'.txn t).isSealed = true) :
    (s'.txn t).idx = 0 := by
  have of_update : ∀ {u T}, s'.txn = Function.update s.txn u T →
      T.isSealed = (s.txn u).isSealed ∨ T.idx = 0 → (s'.txn t).idx = 0 := by
    intro u T hT hor
    by_cases hu : t = u
    · subst hu
      rw [hT, Function.update_self] at hs ⊢
      refine hor.resolve_left fun heq => ?_
      rw [heq, hns] at hs
      cases hs
    · rw [hT, Function.update_of_ne hu, hns] at hs
      cases hs
  cases m with
  | stay u T hpc hsame hw => exact of_update rfl (.inl hsame.isSealed)
  | begin => exact of_update rfl (.inr rfl)
  | drawReadOnly u hpc hw | draw u hpc hw =>
    have hpre := (hwf u).2
    rw [hpc] at hpre
    exact of_update rfl (.inr hpre.2.1)
  | insert | install | overwrite | stamp | unlink => exact of_update rfl (.inl rfl)

theorem StampsHead.snoc {acts : List Act} {w : WriteRecord} {p : Ptr}
    (k : StampsHead acts s t w p) (a : Act) (hv : (s'.heap p).value = (s.heap p).value) :
    StampsHead (acts ++ [a]) s' t w p := by
  obtain ⟨pre, beyond, post, s₀, rfl, hr, hw, hp, hvalue⟩ := k
  exact ⟨pre, beyond, post ++ [a], s₀, by simp, hr, hw, hp, hv.trans hvalue⟩

/-- Every entry that a loop has passed was stamped, with the transaction's
version at its head. -/
theorem reached_stampsHead {acts : List Act} (hr : Reached acts s) :
    ∀ t, (s.txn t).isSealed = true → ∀ {i w}, (s.txn t).writeSet[i]? = some w →
      i < (s.txn t).idx → (s.txn t).lb.isSome ∧
        ∃ p, (s.txn t).written w.entry = some p ∧ StampsHead acts s t w p := by
  refine StepRun.run_induction (P := fun acts s => ∀ t, (s.txn t).isSealed = true →
    ∀ {i w}, (s.txn t).writeSet[i]? = some w → i < (s.txn t).idx → (s.txn t).lb.isSome ∧
      ∃ p, (s.txn t).written w.entry = some p ∧ StampsHead acts s t w p) ?_ ?_ hr
  · intro t hs
    cases hs
  · intro acts m a m' hm hs ih t hsealed' i w hw hi
    obtain ⟨ch, h, -⟩ := reached_inv hm
    obtain ⟨ch', k⟩ := h.move (step_move hs)
    cases hsealed : (m.txn t).isSealed with
    | false =>
      rw [idx_of_newly_sealed (step_move hs) h.wf hsealed hsealed'] at hi
      cases hi
    | true =>
      obtain ⟨-, -, hws, hwr⟩ := k.grows.sealed t hsealed
      rw [hws] at hw
      rw [hwr]
      have value : ∀ {p}, (m.txn t).written w.entry = some p →
          (m'.heap p).value = (m.heap p).value :=
        fun hp => (k.grows.object _ (h.written hp).1).2.2.2
      have old : i < (m.txn t).idx → ∃ p, (m.txn t).written w.entry = some p ∧
          StampsHead (acts ++ [a]) m' t w p := by
        intro hlt
        obtain ⟨-, p, hp, hst⟩ := ih t hsealed hw hlt
        exact ⟨p, hp, hst.snoc a (value hp)⟩
      rcases step_block hs t with ⟨b, rfl⟩ | ⟨l, st, rfl⟩ | ⟨-, h0⟩ | hsame
      · revert hs
        simp only [step]
        fun_cases stamp m t b <;> rintro ⟨⟩
        case case3 T hpc v lb hlb hv p hp off lb' hpop hcap =>
          simp only [Db.setTxn_txn, Function.update_self] at hi
          refine ⟨by simp, ?_⟩
          rcases Nat.lt_succ_iff_lt_or_eq.mp hi with hlt | rfl
          · exact old hlt
          · obtain rfl : w = v := Option.some_inj.mp (hw.symm.trans hv)
            obtain ⟨l, hh⟩ := h.handling_stamp (persistentAddress T off w.size) (some lb') hpc hv hp
            have hwp := (hh.head_dirty h).2.2.2
            exact ⟨p, hwp, acts, b, [], m, rfl, hm, hv, hp, value hwp⟩
      · simp only [step, allocBlock] at hs
        split_ifs at hs with hpc
        all_goals
          cases hs
          have hpre := (h.wf t).2
          rw [hpc] at hpre
          simp [hpre.2.1] at hi
      · rw [h0] at hi
        cases hi
      · rw [hsame.idx_eq (h.wf t) hsealed] at hi
        exact ⟨hsame.1 ▸ (ih t hsealed hw hi).1, old hi⟩

end

/-! ### Reading a committed write back -/

/-- The log sequence number of the record at payload offset `off`. -/
def Txn.recordLsn (T : Txn) (off : ℕ) : LSN :=
  { T.lbLsn with loffset := T.lbLsn.loffset + pageSize + off }

/-- The payload of the block with address `lsn` is in its segment `seg`. -/
structure OnDisk (getSegment : ℕ → ℕ → LogSegment) (lsn : LSN) (lb : LogBlock)
    (seg : LogSegment) : Prop where
  segment : getSegment lsn.logid lsn.segment = seg
  start : seg.startOffset ≤ lsn.loffset
  bytes : ∀ j < lb.payloadSize,
    seg.bytes (lsn.loffset - seg.startOffset + pageSize + j) = lb.payload j

/-- The bytes that are read to load the version `o`. -/
def loadRange (directIo : Bool) (seg : LogSegment) (o : Object) : ℕ × ℕ :=
  readRange directIo pageSize (seg.offsetInSeg (LSN.fromPtr o.pdest).loffset)
    (decodeSizeAligned o.pdest.sizeCode)

/-- The version `o` of entry `w`, logged in block `lb`, can be recovered from the
segment: the record at its persistent address carries the entry's ids, the CSN
(a 64-bit word) and exactly the tuple, the address covers all of it, and loading
from the address gives the tuple again. -/
structure RoundTrip (directIo : Bool) (getSegment : ℕ → ℕ → LogSegment) (scratch : ℕ → UInt8)
    (seg : LogSegment) (lb : LogBlock) (w : WriteRecord) (o : Object) : Prop where
  record : recordAt seg.bytes (seg.offsetInSeg (LSN.fromPtr o.pdest).loffset) w.size =
    { type := (if w.isInsert then LogrecType.insert else .update).code
      fid := w.entry.fid.toNat
      oid := w.entry.oid.toNat
      csn := lb.csn % 2 ^ 64
      data := leBytes 4 o.value.length ++ o.value }
  covers : sizeofLogRecord + (sizeofDbtuple + o.value.length)
    ≤ decodeSizeAligned o.pdest.sizeCode
  loads : ∃ tuple, loadFromStorage directIo pageSize getSegment scratch o.pdest = some tuple ∧
    tuple.size = o.value.length ∧ tuple.value = o.value ∧ o.csn = .csn tuple.csn

theorem load_tupleImage (value : List UInt8) (beyond : ℕ → UInt8) :
    load (tupleImage value beyond) 0 (sizeofDbtuple + value.length)
      = leBytes 4 value.length ++ value := by
  have h := load_store beyond 0 (leBytes 4 value.length ++ value)
  rwa [List.length_append, length_leBytes] at h

/-- The CSN of a log record gives the stamp of the version. -/
theorem generate_eq_of_record (c : ℕ) :
    CsnPtr.generate c = .csn (CSN.make (c % 2 ^ 64)).offset := by
  rw [CsnPtr.generate, CSN.make_offset, CSN.make_offset, CSN.limit,
    Nat.mod_mod_of_dvd _ (by norm_num)]

section

variable {directIo : Bool} {getSegment : ℕ → ℕ → LogSegment} {scratch : ℕ → UInt8}
  {seg : LogSegment}

/-- **A logged version, read back.**  The record for entry `i` of a sealed
transaction, with the block's bytes on disk, gives the version back exactly if
the write set has the version's size and the file holds the bytes that are read. -/
theorem LogInv.roundTrip_iff {s : Db} {t : XID} {lb : LogBlock} (k : LogInv s t lb) {i : ℕ}
    {w : WriteRecord} (hw : (s.txn t).writeSet[i]? = some w) (hi : i < (s.txn t).idx)
    (hidx : (s.txn t).idx ≤ (s.txn t).writeSet.length)
    {p : Ptr} (hp : (s.txn t).written w.entry = some p) (hbytes : (s.txn t).logBytes < 2 ^ 32)
    (henc : ((s.txn t).recordLsn (recOffset (s.txn t).writeSet i)).Encodable)
    (hdisk : OnDisk getSegment (s.txn t).lbLsn lb seg) :
    RoundTrip directIo getSegment scratch seg lb w (s.heap p) ↔
      w.size = sizeofDbtuple + (s.heap p).value.length ∧
      (loadRange directIo seg (s.heap p)).1 + (loadRange directIo seg (s.heap p)).2
        ≤ seg.fileSize := by
  obtain ⟨q, beyond, hq, -, hcsn, hd, hr⟩ := k.logged hbytes hw hi
  obtain rfl : q = p := Option.some_inj.mp (hq.symm.trans hp)
  obtain ⟨hseg, hstart, hbytesAt⟩ := hdisk
  generalize hT : s.txn t = T at *
  generalize ho : s.heap q = o at *
  -- the record lies in the part of the block that has been filled
  have hend := recOffset_add_le hw hi
  have hfull : lb.payloadSize = recOffset T.writeSet T.idx := by
    rw [k.size, hT]
    exact Nat.mod_eq_of_lt ((recOffset_mono _ hidx).trans_lt hbytes)
  have hsize : logrecSize w.size < 2 ^ 32 := by
    have hle := recOffset_mono T.writeSet (Nat.succ_le_of_lt (hi.trans_le hidx))
    rw [Nat.succ_eq_add_one, recOffset_succ hw] at hle
    exact (Nat.le_add_left _ _).trans_lt (hle.trans_lt hbytes)
  obtain ⟨-, hcode⟩ := defaultSizeCode_spec (show logrecSize w.size < 2 ^ 64 - 16 by omega)
  have hdec := le_decode_encode (show logrecSize w.size < 2 ^ 64 - 16 by omega)
  have hrec := le_logrecSize w.size
  replace hd : o.pdest = (T.recordLsn (recOffset T.writeSet i)).toPtr
    (defaultSizeCode (logrecSize w.size)) := hd
  set lsn := T.recordLsn (recOffset T.writeSet i)
  have hoff : seg.offsetInSeg lsn.loffset
      = T.lbLsn.loffset - seg.startOffset + pageSize + recOffset T.writeSet i := by
    have hlt := henc.loffset
    have hl : lsn.loffset = T.lbLsn.loffset + pageSize + recOffset T.writeSet i := rfl
    rw [LogSegment.offsetInSeg_eq (by omega) (by omega)]
    omega
  have hfile : recordAt seg.bytes (seg.offsetInSeg lsn.loffset) w.size
      = loggedRecord T w o.value beyond := by
    rw [← hr, hoff]
    refine recordAt_congr fun j hj => ?_
    rw [Nat.add_assoc _ (recOffset _ _) j]
    exact hbytesAt _ (by omega)
  have hrange : loadRange directIo seg o = readRange directIo pageSize
      (seg.offsetInSeg lsn.loffset) (decodeSizeAligned (defaultSizeCode (logrecSize w.size))) := by
    rw [loadRange, hd, LSN.from_toPtr henc hcode, LSN.toPtr_sizeCode henc hcode]
  have hcsnAt : (recordAt seg.bytes (seg.offsetInSeg lsn.loffset) 0).csn = T.endCsn % 2 ^ 64 :=
    congrArg LogRecord.csn hfile
  -- with the whole tuple in the record, loading succeeds if the file is long enough
  have hload : w.size = sizeofDbtuple + o.value.length →
      loadFromStorage directIo pageSize getSegment scratch o.pdest =
        if (loadRange directIo seg o).1 + (loadRange directIo seg o).2 ≤ seg.fileSize then
          some ⟨o.value.length, o.value, (CSN.make (T.endCsn % 2 ^ 64)).offset⟩
        else none := by
    intro hlen
    have hvalue : o.value.length < 2 ^ 32 := by omega
    rw [hrange, hd, ← hcsnAt]
    refine loadFromStorage_record (by decide) henc hcode hseg hvalue (by omega) ?_
    rw [← hlen, hfile, loggedRecord, hlen, load_tupleImage]
  constructor
  · rintro ⟨hrecord, -, tuple, htuple, -⟩
    rw [hd, LSN.from_toPtr henc hcode] at hrecord
    have hlen : w.size = sizeofDbtuple + o.value.length := by
      have hlen := congrArg (fun r : LogRecord => r.data.length) hrecord
      simpa [recordAt, sizeofDbtuple] using hlen
    refine ⟨hlen, ?_⟩
    by_contra hlong
    rw [hload hlen, if_neg hlong] at htuple
    cases htuple
  · rintro ⟨hlen, hin⟩
    refine ⟨?_, ?_, ⟨_, (hload hlen).trans (if_pos hin), rfl, rfl, ?_⟩⟩
    · rw [hd, LSN.from_toPtr henc hcode, hfile, loggedRecord, hlen, load_tupleImage, k.csn, hT]
    · rw [hd, LSN.toPtr_sizeCode henc hcode]
      omega
    · rw [hcsn, generate_eq_of_record]

end

/-- **The log round trip of a committed write.**  For every entry of the write
set of a committed transaction whose log records stay below `2 ^ 32` bytes and
whose address is encodable, the version at the head of the entry when it was
stamped can be recovered from its log record, once the block is on disk, exactly
if the first write to the entry was as long as the last one and the file holds
the whole range that is read. -/
theorem log_roundtrip_iff {acts : List Act} {s : Db} {t : XID} (hr : Reached acts s)
    (hc : (s.txn t).state = .cmmtd) (hbytes : (s.txn t).logBytes < 2 ^ 32) {i : ℕ}
    {w : WriteRecord} (hw : (s.txn t).writeSet[i]? = some w)
    (henc : ((s.txn t).recordLsn (recOffset (s.txn t).writeSet i)).Encodable) :
    ∃ lb p, (s.txn t).lb = some lb ∧ (s.txn t).written w.entry = some p ∧
      StampsHead acts s t w p ∧ ∀ directIo getSegment scratch seg,
        OnDisk getSegment (s.txn t).lbLsn lb seg →
        (RoundTrip directIo getSegment scratch seg lb w (s.heap p) ↔
          w.size = sizeofDbtuple + (s.heap p).value.length ∧
          (loadRange directIo seg (s.heap p)).1 + (loadRange directIo seg (s.heap p)).2
            ≤ seg.fileSize) := by
  obtain ⟨ch, h, -⟩ := reached_inv hr
  have hidx := (h.wf t).1
  have hi : i < (s.txn t).idx := by
    have hlt := (List.getElem?_eq_some_iff.mp hw).1
    have htodo := (h.wf t).todo_of_cmmtd hc
    rw [Txn.todo, List.drop_eq_nil_iff, Txn.entries, List.length_map] at htodo
    exact hlt.trans_le htodo
  obtain ⟨hsome, p, hp, hst⟩ := reached_stampsHead hr t ((h.wf t).isSealed_of_cmmtd hc) hw hi
  obtain ⟨lb, hlb⟩ := Option.isSome_iff_exists.mp hsome
  refine ⟨lb, p, hlb, hp, hst, fun directIo getSegment scratch seg hdisk => ?_⟩
  exact (reached_logInv hr t lb hlb).roundTrip_iff hw hi hidx hp hbytes henc hdisk

/-- A record is inserted, overwritten by the same transaction, and committed. -/
def rewriteActs (first last : List UInt8) : List Act :=
  .begin :: .insert 0 roundEntry first :: .update 0 roundEntry last :: commitActs 0

/-- A segment file of four pages that starts with the given block. -/
def blockSegment (lb : LogBlock) : LogSegment where
  startOffset := 0
  bytes a := lb.payload (a - pageSize)
  fileSize := 4 * pageSize

theorem onDisk_blockSegment (lb : LogBlock) :
    OnDisk (fun _ _ => blockSegment lb) ⟨0, 0, 0⟩ lb (blockSegment lb) := by
  refine ⟨rfl, le_rfl, fun j _ => ?_⟩
  show lb.payload (0 - 0 + pageSize + j - pageSize) = lb.payload j
  rw [Nat.sub_self, Nat.zero_add, Nat.add_sub_cancel_left]

theorem log_roundtrip_same_length :
    ∃ s lb w p, Reached (rewriteActs [1, 2] [7, 8]) s ∧ (s.txn 0).writeSet = [w] ∧
      (s.txn 0).written w.entry = some p ∧ (s.heap p).value = [7, 8] ∧
      RoundTrip true (fun _ _ => blockSegment lb) (fun _ => 0) (blockSegment lb) lb w
        (s.heap p) := by
  obtain ⟨lb, p, -, hp, -, h⟩ := log_roundtrip_iff (t := 0) (i := 0)
    (show Reached (rewriteActs [1, 2] [7, 8]) _ from rfl) rfl (by decide) rfl
    ⟨by decide, by decide, by decide⟩
  obtain rfl : 1 = p := Option.some_inj.mp (show some 1 = some p from hp)
  refine ⟨_, lb, _, 1, rfl, rfl, rfl, rfl, (h _ _ _ _ (onDisk_blockSegment lb)).mpr ⟨rfl, ?_⟩⟩
  -- the range depends on where the segment starts, not on what it holds
  show (loadRange true ⟨0, fun _ => 0, 0⟩ (Db.heap _ 1)).1
    + (loadRange true ⟨0, fun _ => 0, 0⟩ (Db.heap _ 1)).2 ≤ 4 * pageSize
  decide +kernel

/-- Two bytes longer than the first value, the last value is logged without its
last two bytes, and what is loaded for them is whatever follows in the file. -/
theorem log_cut_short :
    ∃ s lb w p, Reached (rewriteActs [1] [8, 8, 8]) s ∧ (s.txn 0).state = .cmmtd ∧
      (s.txn 0).writeSet = [w] ∧ (s.txn 0).lb = some lb ∧
      StampsHead (rewriteActs [1] [8, 8, 8]) s 0 w p ∧ (s.heap p).value = [8, 8, 8] ∧
      OnDisk (fun _ _ => blockSegment lb) (s.txn 0).lbLsn lb (blockSegment lb) ∧
      loadFromStorage false pageSize (fun _ _ => blockSegment lb) (fun _ => 0) (s.heap p).pdest
        = some ⟨3, [8, 0, 0], 0⟩ := by
  refine ⟨_, _, _, 1, rfl, rfl, rfl, rfl, ?_, rfl, onDisk_blockSegment _, ?_⟩
  · exact ⟨[.begin, .insert 0 roundEntry [1], .update 0 roundEntry [8, 8, 8], .commit 0,
      .drawCsn 0, .allocBlock 0 ⟨0, 0, 0⟩ fun _ => 0], fun _ => 0, [.publish 0], _, rfl, rfl, rfl,
      rfl, rfl⟩
  · decide +kernel

end PreemptDB
