/-
The layout of a log block.

`add_to_write_set` adds up the sizes of the log records while a transaction
writes, and `si_commit` asks for a block of that size and fills it record by
record.  Both computations agree, up to the 32 bits of `log_size`: `Sized`.

* `block_layout` — below `2 ^ 32` bytes, and only there, every record has its
  place in the block and no check of the loop can fail;
* `wrapped_log_size` — two records of two gigabytes and a block of 64 bytes.
-/
import PreemptDB.LogRoundTrip

namespace PreemptDB

variable {s s' : Db} {t : XID}

theorem dvd_logrecSize (size : ℕ) : defaultAlignment ∣ logrecSize size :=
  Dvd.intro_left _ rfl

/-- A size that is cut to 32 bits loses whole multiples of the alignment. -/
theorem logrecSize_mod (size : ℕ) :
    logrecSize size % 2 ^ 32 = logrecSize (size % 2 ^ 32) % 2 ^ 32 := by
  simp only [logrecSize, alignUp, alignDown, defaultAlignment, sizeofLogRecord]
  omega

theorem dvd_recOffset (ws : List WriteRecord) (i : ℕ) : defaultAlignment ∣ recOffset ws i := by
  refine List.dvd_sum fun n hn => ?_
  obtain ⟨w, -, rfl⟩ := List.mem_map.mp hn
  exact dvd_logrecSize w.size

theorem recOffset_append (ws : List WriteRecord) (w : WriteRecord) :
    recOffset (ws ++ [w]) (ws ++ [w]).length = recOffset ws ws.length + logrecSize w.size := by
  simp [recOffset]

/-- What is known about the size of the write set and of the log block. -/
structure Txn.Sized (T : Txn) : Prop where
  length : T.writeSet.length ≤ kMaxEntries
  logSize : T.logSize = T.logBytes % 2 ^ 32
  capacity : ∀ lb, T.lb = some lb → lb.capacity = T.logSize
  block : T.pc = .postcommit → T.logSize ≠ 0 → T.lb.isSome

namespace Txn.Sized

theorem unborn : Txn.unborn.Sized :=
  ⟨Nat.zero_le _, rfl, nofun, nofun⟩

/-- The sizes are the same, and a block is kept. -/
theorem congr {T T' : Txn} (h : T.Sized) (hsize : T'.logSize = T.logSize)
    (hws : T'.writeSet = T.writeSet) (hlb : T'.lb = T.lb)
    (hpc : T'.pc = .postcommit → T.pc = .postcommit ∨ T.logSize = 0) : T'.Sized := by
  refine ⟨hws ▸ h.length, ?_, ?_, fun hp hne => ?_⟩
  · rw [hsize, Txn.logBytes, hws]
    exact h.logSize
  · rw [hsize, hlb]
    exact h.capacity
  · rw [hsize] at hne
    rw [hlb]
    exact h.block ((hpc hp).resolve_right hne) hne

theorem addToWriteSet {T T' : Txn} (h : T.Sized) (hlb : T.lb = none) {e : Entry} {size : ℕ}
    {isInsert : Bool} (hadd : T.addToWriteSet e size isInsert = some T') (p : Ptr) :
    (T'.wrote e p).Sized := by
  obtain ⟨hlen, hadd⟩ := Option.ite_none_right_eq_some.mp hadd
  cases hadd
  refine ⟨?_, ?_, fun lb hsome => ?_, nofun⟩
  · change (T.writeSet ++ [_]).length ≤ _
    rw [List.length_append]
    exact hlen
  · change (T.logSize + logrecSize (size + sizeofDbtuple)) % 2 ^ 32 =
      recOffset (T.writeSet ++ [_]) (T.writeSet ++ [_]).length % 2 ^ 32
    rw [recOffset_append, h.logSize, Nat.mod_add_mod, Nat.add_mod, logrecSize_mod, ← Nat.add_mod]
    rfl
  · exact absurd (hsome.symm.trans hlb) (Option.some_ne_none lb)

end Txn.Sized

/-- A transaction that may still write has no log block. -/
def NoBlockYet (s : Db) : Prop := ∀ t, (s.txn t).pc.canCall → (s.txn t).lb = none

theorem noBlockYet {acts : List Act} (hr : Reached acts s) : NoBlockYet s := by
  intro t hcall
  obtain ⟨ch, h, -⟩ := reached_inv hr
  rw [Option.eq_none_iff_forall_ne_some]
  intro lb hlb
  have hsealed := (reached_logInv hr t lb hlb).isSealed
  rw [((h.wf t).of_canCall hcall).2.2] at hsealed
  cases hsealed

theorem sized_insert {e : Entry} {value : List UInt8} (hno : NoBlockYet s)
    (h : (s.txn t).Sized) (hs : insert s t e value = some s') : (s'.txn t).Sized := by
  obtain ⟨hcall, hs⟩ := Option.ite_none_right_eq_some.mp hs
  obtain ⟨T, hT, rfl⟩ := Option.map_eq_some_iff.mp hs
  rw [Db.setTxn_txn, Function.update_self]
  exact h.addToWriteSet (hno t hcall.1) hT _

theorem sized_update {e : Entry} {value : List UInt8} (hno : NoBlockYet s)
    (h : (s.txn t).Sized) (hs : update s t e value = some s') : (s'.txn t).Sized := by
  obtain ⟨hcall, hs⟩ := Option.ite_none_right_eq_some.mp hs
  split at hs
  · cases hs
  · cases hs
    rw [Db.setTxn_txn, Function.update_self]
    exact h.congr rfl rfl rfl nofun
  · cases hs
    rw [Db.setTxn_txn, Function.update_self]
    exact h.congr rfl rfl rfl nofun
  · obtain ⟨T, hT, rfl⟩ := Option.map_eq_some_iff.mp hs
    rw [Db.setTxn_txn, Function.update_self]
    exact h.addToWriteSet (hno t hcall) hT _

theorem sized_drawCsn (h : (s.txn t).Sized) (hs : drawCsn s t = some s') : (s'.txn t).Sized := by
  rw [drawCsn] at hs
  split_ifs at hs with hpc hws <;> cases hs <;> rw [Db.setTxn_txn, Function.update_self]
  · -- a read-only transaction needs no block
    have hzero : (s.txn t).logSize = 0 := by
      rw [h.logSize, Txn.logBytes, hws]
      rfl
    exact h.congr rfl rfl rfl fun _ => .inr hzero
  · exact h.congr rfl rfl rfl fun h => by cases h

theorem sized_allocBlock {lsn : LSN} {stale : ℕ → UInt8} (h : (s.txn t).Sized)
    (hs : allocBlock s t lsn stale = some s') : (s'.txn t).Sized := by
  obtain ⟨-, hs⟩ := Option.ite_none_right_eq_some.mp hs
  cases hs
  rw [Db.setTxn_txn, Function.update_self]
  refine ⟨h.length, h.logSize, fun lb hlb => ?_, fun _ hne => ?_⟩
  · obtain ⟨-, hlb⟩ := Option.ite_none_left_eq_some.mp hlb
    cases hlb
    rfl
  · change (ite _ _ _ : Option LogBlock).isSome
    rw [if_neg hne]
    rfl

theorem sized_stamp {beyond : ℕ → UInt8} (h : (s.txn t).Sized)
    (hs : stamp s t beyond = some s') : (s'.txn t).Sized := by
  revert hs
  fun_cases stamp s t beyond <;> rintro ⟨⟩
  case case3 T hpc w lb hlb hw p hp off lb' hpop hcap =>
    obtain ⟨-, rfl⟩ := populateLogRecord_eq_some hpop
    rw [Db.setTxn_txn, Function.update_self]
    refine ⟨h.length, h.logSize, fun lb' hlb' => ?_, fun _ _ => rfl⟩
    cases hlb'
    exact h.capacity lb hlb

/-- Every action keeps the sizes. -/
theorem sized_step {a : Act} (hno : NoBlockYet s) (h : ∀ t, (s.txn t).Sized)
    (hs : step s a = some s') (t : XID) : (s'.txn t).Sized := by
  by_cases hact : a.actor s = t
  case neg =>
    obtain ⟨T, hT, -⟩ := step_txn hs
    rw [hT, Function.update_of_ne (Ne.symm hact)]
    exact h t
  subst hact
  cases a with
  | begin =>
    cases hs
    change (Function.update s.txn s.nextXid (Txn.start s.currentCsn) s.nextXid).Sized
    rw [Function.update_self]
    exact Txn.Sized.unborn.congr rfl rfl rfl fun h => by cases h
  | insert u e value => exact sized_insert hno (h u) hs
  | update u e value => exact sized_update hno (h u) hs
  | readStep u =>
    obtain ⟨pc, rfl, -, hrun⟩ := readStep_goto hs
    rw [Act.actor, Db.setTxn_txn, Function.update_self]
    refine (h u).congr rfl rfl rfl fun hpc => ?_
    rw [show pc = .postcommit from hpc] at hrun
    cases hrun
  | drawCsn u => exact sized_drawCsn (h u) hs
  | allocBlock u lsn stale => exact sized_allocBlock (h u) hs
  | stamp u beyond => exact sized_stamp (h u) hs
  | unlink u =>
    revert hs
    simp only [step]
    fun_cases unlink s u <;> rintro ⟨⟩
    case case3 T hpc w hw p hp =>
      rw [Act.actor, Db.setTxn_txn, Function.update_self]
      exact (h u).congr rfl rfl rfl .inl
  | readCall u _ | commit u | phantom u | publish u | abort u | finish u =>
    simp only [step, publish] at hs
    split_ifs at hs
    cases hs
    rw [Act.actor, Db.setTxn_txn, Function.update_self]
    exact (h u).congr rfl rfl rfl fun h => by cases h

theorem reached_sized {acts : List Act} (hr : Reached acts s) (t : XID) : (s.txn t).Sized := by
  refine StepRun.run_induction (P := fun acts s => ∀ t, (s.txn t).Sized) ?_ ?_ hr t
  · exact fun _ => Txn.Sized.unborn
  · intro acts s a s' hr hs h
    exact sized_step (noBlockYet hr) h hs

/-- The log block of a transaction in the loop of `si_commit`: it has the size of all
records, the next one comes behind those before, all of them are inside, those before are
written, and no check of the loop fails. -/
structure ExactLayout (s : Db) (t : XID) (lb : LogBlock) : Prop where
  capacity : lb.capacity = (s.txn t).logBytes
  next : lb.payloadSize = recOffset (s.txn t).writeSet (s.txn t).idx
  inside : ∀ {i w}, (s.txn t).writeSet[i]? = some w →
    recOffset (s.txn t).writeSet i + logrecSize w.size ≤ lb.capacity
  placed : ∀ {i w}, (s.txn t).writeSet[i]? = some w → i < (s.txn t).idx →
    ∃ p beyond, (s.txn t).written w.entry = some p ∧
      (s.heap p).pdest = persistentAddress (s.txn t) (recOffset (s.txn t).writeSet i) w.size ∧
      recordAt lb.payload (recOffset (s.txn t).writeSet i) w.size
        = loggedRecord (s.txn t) w (s.heap p).value beyond
  checks : (s.txn t).idx < (s.txn t).writeSet.length → ∀ beyond, (stamp s t beyond).isSome
  full : (s.txn t).idx = (s.txn t).writeSet.length → lb.payloadSize = lb.capacity

/-- The checks of one iteration, for a block that is large enough. -/
theorem stamp_isSome {ch : Entry → List Ptr} (h : ChainInv s ch) {lb : LogBlock}
    {w : WriteRecord} (hpc : (s.txn t).pc = .postcommit)
    (hw : (s.txn t).writeSet[(s.txn t).idx]? = some w) (hlb : (s.txn t).lb = some lb)
    (hfit : lb.payloadSize + logrecSize w.size ≤ lb.capacity) (hcap : lb.capacity < 2 ^ 32)
    (beyond : ℕ → UInt8) : (stamp s t beyond).isSome := by
  have hle := le_logrecSize w.size
  obtain ⟨p, hp, -⟩ := h.dirty (t := t) (e := w.entry)
    (Txn.todo_eq_cons hw ▸ List.mem_cons_self)
  have hmod : (lb.payloadSize + w.size) % 2 ^ 32 = lb.payloadSize + w.size :=
    Nat.mod_eq_of_lt (by omega)
  have hmod' : (lb.payloadSize + logrecSize w.size) % 2 ^ 32
      = lb.payloadSize + logrecSize w.size := Nat.mod_eq_of_lt (by omega)
  rw [stamp]
  simp only [hpc, if_true, hw, hlb, hp, populateLogRecord, hmod, hmod']
  rw [if_neg (by omega)]
  simp only [if_pos hfit, Option.isSome_some]

/-- The check of `populate_log_record` fails. -/
theorem stamp_eq_none {lb : LogBlock} {w : WriteRecord} {p : Ptr}
    (hpc : (s.txn t).pc = .postcommit) (hw : (s.txn t).writeSet[(s.txn t).idx]? = some w)
    (hlb : (s.txn t).lb = some lb) (hp : s.entry w.entry = some p)
    (hfull : lb.capacity < (lb.payloadSize + w.size) % 2 ^ 32) (beyond : ℕ → UInt8) :
    stamp s t beyond = none := by
  rw [stamp]
  simp only [hpc, if_true, hw, hlb, hp, populateLogRecord, if_pos hfull]

theorem ExactLayout.of_lt {acts : List Act} (hr : Reached acts s)
    (hpc : (s.txn t).pc = .postcommit) {lb : LogBlock} (hlb : (s.txn t).lb = some lb)
    (hlt : (s.txn t).logBytes < 2 ^ 32) : ExactLayout s t lb := by
  obtain ⟨ch, h, -⟩ := reached_inv hr
  have hinv := reached_logInv hr t lb hlb
  have hsized := reached_sized hr t
  have hidx := (h.wf t).1
  have hcap : lb.capacity = (s.txn t).logBytes := by
    rw [hsized.capacity lb hlb, hsized.logSize, Nat.mod_eq_of_lt hlt]
  have hnext : lb.payloadSize = recOffset (s.txn t).writeSet (s.txn t).idx := by
    rw [hinv.size, Nat.mod_eq_of_lt ((recOffset_mono _ hidx).trans_lt hlt)]
  have hinside : ∀ {i w}, (s.txn t).writeSet[i]? = some w →
      recOffset (s.txn t).writeSet i + logrecSize w.size ≤ lb.capacity := fun {i w} hw => by
    rw [hcap, ← recOffset_succ hw]
    exact recOffset_mono _ (List.getElem?_eq_some_iff.mp hw).1
  refine ⟨hcap, hnext, hinside, fun hw hi => ?_, fun hidx beyond => ?_, fun hidx => ?_⟩
  · obtain ⟨p, beyond, hp, -, -, hd, hrec⟩ := hinv.logged hlt hw hi
    exact ⟨p, beyond, hp, hd, hrec⟩
  · have hw := List.getElem?_eq_getElem hidx
    exact stamp_isSome h hpc hw hlb (hnext ▸ hinside hw) (hcap ▸ hlt) beyond
  · rw [hnext, hcap, hidx]
    rfl

/-- **Block layout.**  In every run, for a transaction in the loop of `si_commit`: the offsets
of the records are aligned sums of the sizes before, the records are disjoint, and the block
is laid out by them without a failed check if and only if they have less than `2 ^ 32` bytes. -/
theorem block_layout {acts : List Act} (hr : Reached acts s) (hpc : (s.txn t).pc = .postcommit)
    (hne : (s.txn t).writeSet ≠ []) :
    (s.txn t).writeSet.length ≤ kMaxEntries ∧
    (∀ i, defaultAlignment ∣ recOffset (s.txn t).writeSet i) ∧
    (∀ {i j w}, (s.txn t).writeSet[i]? = some w → i < j →
      recOffset (s.txn t).writeSet i + logrecSize w.size ≤ recOffset (s.txn t).writeSet j) ∧
    ((∃ lb, (s.txn t).lb = some lb ∧ ExactLayout s t lb) ↔ (s.txn t).logBytes < 2 ^ 32) := by
  have hsized := reached_sized hr t
  refine ⟨hsized.length, dvd_recOffset _, fun {i j w} hw hij => ?_, ⟨?_, fun hlt => ?_⟩⟩
  · rw [← recOffset_succ hw]
    exact recOffset_mono _ hij
  · rintro ⟨lb, hlb, hexact⟩
    rw [← hexact.capacity, hsized.capacity lb hlb, hsized.logSize]
    exact Nat.mod_lt _ (by norm_num)
  · -- some record is not empty, so that a block was asked for
    have hsize : (s.txn t).logSize ≠ 0 := by
      obtain ⟨w, ws, hws⟩ := List.exists_cons_of_ne_nil hne
      have hget : (s.txn t).writeSet[0]? = some w := by rw [hws]; rfl
      have hpos := recOffset_add_le hget (List.length_pos_of_ne_nil hne)
      rw [hsized.logSize, Nat.mod_eq_of_lt hlt, Txn.logBytes]
      rw [sizeofLogRecord] at hpos
      omega
    obtain ⟨lb, hlb⟩ := Option.isSome_iff_exists.mp (hsized.block hpc hsize)
    exact ⟨lb, hlb, .of_lt hr hpc hlb hlt⟩

/-- A transaction inserts two records with the same value, and its commit comes to the loop. -/
def insertTwice (value : List UInt8) : List Act :=
  [.begin, .insert 0 ⟨1, 1⟩ value, .insert 0 ⟨1, 2⟩ value, .commit 0, .drawCsn 0,
    .allocBlock 0 ⟨0, 0, 0⟩ fun _ => 0]

theorem block_layout_insertTwice :
    ∃ s lb, Reached (insertTwice [7, 7]) s ∧ (s.txn 0).lb = some lb ∧ lb.capacity = 64 ∧
      ExactLayout s 0 lb := by
  obtain ⟨lb, hlb, hexact⟩ := (block_layout (t := 0)
    (show Reached (insertTwice [7, 7]) _ from rfl) rfl (by simp [Txn.wrote])).2.2.2.mpr (by decide)
  exact ⟨_, lb, rfl, hlb, hexact.capacity, hexact⟩

/-- Two records of two gigabytes, which fit a log buffer of eight: the block has 64 bytes, and
the check of the first record stops the process. -/
theorem wrapped_log_size :
    ∃ s lb, Reached (insertTwice (List.replicate (2 ^ 31) 7)) s ∧
      (s.txn 0).logBytes + pageSize ≤ 8 * 2 ^ 30 ∧ (s.txn 0).lb = some lb ∧ lb.capacity = 64 ∧
      stamp s 0 (fun _ => 0) = none := by
  have hlen : (List.replicate (2 ^ 31) (7 : UInt8)).length = 2 ^ 31 := List.length_replicate
  -- the value is not evaluated
  generalize List.replicate (2 ^ 31) (7 : UInt8) = value at hlen
  have hdata : dataSz value = 2 ^ 31 := by rw [dataSz, hlen]; norm_num
  obtain ⟨s, hs⟩ : ∃ s, Reached (insertTwice value) s := ⟨_, rfl⟩
  obtain ⟨hpc, hidx, hentry⟩ : (s.txn 0).pc = .postcommit ∧ (s.txn 0).idx = 0 ∧
      s.entry ⟨1, 1⟩ = some 0 := by
    cases hs
    exact ⟨rfl, rfl, rfl⟩
  have hws : (s.txn 0).writeSet = [⟨⟨1, 1⟩, 2 ^ 31 + 4, true⟩, ⟨⟨1, 2⟩, 2 ^ 31 + 4, true⟩] := by
    cases hs
    change [(⟨_, (dataSz value + sizeofDbtuple) % 2 ^ 32, _⟩ : WriteRecord),
      ⟨_, (dataSz value + sizeofDbtuple) % 2 ^ 32, _⟩] = _
    rw [hdata]
    rfl
  have hbytes : (s.txn 0).logBytes = 2 ^ 32 + 64 := by
    rw [Txn.logBytes, hws]
    decide
  have hsized := reached_sized hs 0
  have hsize : (s.txn 0).logSize = 64 := by
    rw [hsized.logSize, hbytes]
    norm_num
  obtain ⟨lb, hlb⟩ := Option.isSome_iff_exists.mp (hsized.block hpc (by rw [hsize]; norm_num))
  have hcap : lb.capacity = 64 := (hsized.capacity lb hlb).trans hsize
  have hnext : lb.payloadSize = 0 := by
    rw [(reached_logInv hs 0 lb hlb).size, hidx]
    rfl
  refine ⟨s, lb, hs, ?_, hlb, hcap, ?_⟩
  · rw [hbytes]
    decide
  · have hw : (s.txn 0).writeSet[(s.txn 0).idx]? = some ⟨⟨1, 1⟩, 2 ^ 31 + 4, true⟩ := by
      rw [hws, hidx]
      rfl
    refine stamp_eq_none hpc hw hlb hentry ?_ _
    rw [hcap, hnext]
    norm_num

end PreemptDB
