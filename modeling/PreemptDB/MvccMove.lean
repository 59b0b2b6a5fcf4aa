/-
What one action can do to the chains.

The actions of `Mvcc.lean` change the version chains and the write sets in
eight ways.  `Move` lists them with the guards the proofs need, and `step_move`
says that every action is one of them; the invariants are proved over moves and
never unfold `step`.  `Txn.Wf` is what the program counter of a transaction
says about its other fields; every action keeps it (`Move.wf`).
-/
import PreemptDB.Mvcc

namespace PreemptDB

namespace Db

variable (s : Db) (t : XID) (T : Txn) (e : Entry) (o : Object)

@[simp] theorem setTxn_txn : (s.setTxn t T).txn = Function.update s.txn t T := rfl
@[simp] theorem setTxn_entry : (s.setTxn t T).entry = s.entry := rfl
@[simp] theorem setTxn_heap : (s.setTxn t T).heap = s.heap := rfl
@[simp] theorem setTxn_nextPtr : (s.setTxn t T).nextPtr = s.nextPtr := rfl
@[simp] theorem setTxn_nextXid : (s.setTxn t T).nextXid = s.nextXid := rfl
@[simp] theorem setTxn_currentCsn : (s.setTxn t T).currentCsn = s.currentCsn := rfl
@[simp] theorem setTxn_allocated : (s.setTxn t T).allocated = s.allocated := rfl
@[simp] theorem setTxn_next : (s.setTxn t T).next = s.next := rfl

@[simp] theorem link_txn : (s.link e o).txn = s.txn := rfl
@[simp] theorem link_entry : (s.link e o).entry = Function.update s.entry e (some s.nextPtr) := rfl
@[simp] theorem link_heap : (s.link e o).heap = Function.update s.heap s.nextPtr o := rfl
@[simp] theorem link_nextPtr : (s.link e o).nextPtr = s.nextPtr + 1 := rfl
@[simp] theorem link_nextXid : (s.link e o).nextXid = s.nextXid := rfl
@[simp] theorem link_currentCsn : (s.link e o).currentCsn = s.currentCsn := rfl
@[simp] theorem link_allocated :
    (s.link e o).allocated = Function.update s.allocated e true := rfl

/-! Marking an object changes neither its links nor anything outside the heap. -/

variable (p q : Ptr) (c : CsnPtr) (d : FatPtr)

/-- Apart from its CSN and its persistent address, an object is the same. -/
def SameObject (o o' : Object) : Prop :=
  o'.nextVolatile = o.nextVolatile ∧ o'.creator = o.creator ∧ o'.home = o.home ∧
    o'.value = o.value

theorem setCsn_heap_of_ne {q : Ptr} (h : q ≠ p) : (s.setCsn p c).heap q = s.heap q :=
  Function.update_of_ne h _ _

theorem setPersistentAddress_heap_of_ne {q : Ptr} (h : q ≠ p) :
    (s.setPersistentAddress p d).heap q = s.heap q :=
  Function.update_of_ne h _ _

theorem setCsn_heap_self : (s.setCsn p c).heap p = { s.heap p with csn := c } :=
  Function.update_self ..

theorem setPersistentAddress_heap_self :
    (s.setPersistentAddress p d).heap p = { s.heap p with pdest := d } :=
  Function.update_self ..

theorem setCsn_same : SameObject (s.heap q) ((s.setCsn p c).heap q) := by
  by_cases hq : q = p
  · rw [hq, setCsn_heap_self]
    exact ⟨rfl, rfl, rfl, rfl⟩
  · rw [setCsn_heap_of_ne s p c hq]
    exact ⟨rfl, rfl, rfl, rfl⟩

theorem setPersistentAddress_same :
    SameObject (s.heap q) ((s.setPersistentAddress p d).heap q) := by
  by_cases hq : q = p
  · rw [hq, setPersistentAddress_heap_self]
    exact ⟨rfl, rfl, rfl, rfl⟩
  · rw [setPersistentAddress_heap_of_ne s p d hq]
    exact ⟨rfl, rfl, rfl, rfl⟩

end Db

/-! ### Transactions on their own -/

/-- The transaction has neither started to commit nor to abort. -/
def Pc.running : Pc → Bool
  | idle | readEntry .. | readNext .. | readCsn .. | readHolder .. | returned .. => true
  | _ => false

theorem Pc.ne_finished {pc : Pc} (h : pc.running) : pc ≠ .finished := by
  rintro rfl
  cases h

theorem Pc.running_of_canCall {pc : Pc} (h : pc.canCall) : pc.running := by
  cases pc <;> first | rfl | cases h

namespace Txn

/-- What the chains depend on is the same in both. -/
structure SameWrites (T T' : Txn) : Prop where
  beginCsn : T'.beginCsn = T.beginCsn
  endCsn : T'.endCsn = T.endCsn
  writeSet : T'.writeSet = T.writeSet
  idx : T'.idx = T.idx
  isSealed : T'.isSealed = T.isSealed
  written : T'.written = T.written

theorem SameWrites.entries {T T' : Txn} (h : T.SameWrites T') : T'.entries = T.entries := by
  rw [Txn.entries, h.writeSet, Txn.entries]

theorem SameWrites.todo {T T' : Txn} (h : T.SameWrites T') : T'.todo = T.todo := by
  rw [Txn.todo, h.entries, h.idx, Txn.todo]

/-- The transaction after its first write to an entry: the entry has joined the
write set as `w`, with version `p`. -/
def firstWrite (T : Txn) (w : WriteRecord) (logSize : ℕ) (p : Ptr) : Txn :=
  { T with
    logSize := logSize
    writeSet := T.writeSet ++ [w]
    pc := .idle
    written := Function.update T.written w.entry (some p) }

/-- What the program counter says about the other fields. -/
def Wf (T : Txn) : Prop :=
  T.idx ≤ T.writeSet.length ∧
    match T.pc with
    | .precommit | .commitFailed => T.state = .committing ∧ T.idx = 0 ∧ T.isSealed = false
    | .drawn => T.state = .committing ∧ T.idx = 0 ∧ T.isSealed = true
    | .postcommit => T.state = .committing ∧ T.isSealed = true
    | .committed => T.state = .cmmtd ∧ T.isSealed = true ∧ T.idx = T.writeSet.length
    | .aborting => T.state = .abrtd ∧ T.isSealed = false
    | .finished => T.idx = T.writeSet.length ∧
        (T.state = .cmmtd ∧ T.isSealed = true ∨ T.state = .abrtd ∧ T.isSealed = false)
    | _ => T.state = .active ∧ T.idx = 0 ∧ T.isSealed = false

theorem Wf.of_running {T : Txn} (h : T.Wf) (hr : T.pc.running) :
    T.state = .active ∧ T.idx = 0 ∧ T.isSealed = false := by
  obtain ⟨-, hpc⟩ := h
  revert hr hpc
  cases T.pc <;> simp [Pc.running]

theorem Wf.of_canCall {T : Txn} (h : T.Wf) (hc : T.pc.canCall) :
    T.state = .active ∧ T.idx = 0 ∧ T.isSealed = false :=
  h.of_running (Pc.running_of_canCall hc)

/-- A running transaction stays well formed wherever it runs to. -/
theorem Wf.goto {T : Txn} (h : T.Wf) (hr : T.pc.running) {pc : Pc} (hpc : pc.running) :
    ({ T with pc := pc } : Txn).Wf := by
  refine ⟨h.1, ?_⟩
  have hrun := h.of_running hr
  cases pc <;> first | exact hrun | cases hpc

/-- A committed transaction is past its loop. -/
theorem Wf.todo_of_cmmtd {T : Txn} (h : T.Wf) (hs : T.state = .cmmtd) : T.todo = [] := by
  have hidx : T.idx = T.writeSet.length := by
    obtain ⟨-, hpc⟩ := h
    revert hpc
    cases T.pc <;> simp +contextual [hs]
  rw [todo, List.drop_eq_nil_iff, entries, List.length_map, hidx]

theorem Wf.isSealed_of_cmmtd {T : Txn} (h : T.Wf) (hs : T.state = .cmmtd) :
    T.isSealed = true := by
  obtain ⟨-, hpc⟩ := h
  revert hpc
  cases T.pc <;> simp +contextual [hs]

/-- A sealed transaction is committing or committed. -/
theorem Wf.state_of_sealed {T : Txn} (h : T.Wf) (hs : T.isSealed = true) :
    T.state = .committing ∨ T.state = .cmmtd := by
  obtain ⟨-, hpc⟩ := h
  revert hpc
  cases T.pc <;> simp +contextual [hs]

theorem Wf.todo_eq_entries {T : Txn} (h : T.Wf) (hc : T.pc.canCall) : T.todo = T.entries := by
  rw [todo, (h.of_canCall hc).2.1, List.drop_zero]

theorem mem_entries_of_mem_todo {T : Txn} {e : Entry} (h : e ∈ T.todo) : e ∈ T.entries :=
  List.mem_of_mem_drop h

/-- The loop handles the head of the to-do list. -/
theorem todo_eq_cons {T : Txn} {w : WriteRecord} (h : T.writeSet[T.idx]? = some w) :
    T.todo = w.entry :: T.entries.drop (T.idx + 1) := by
  have hget : T.entries[T.idx]? = some w.entry := by
    rw [entries, List.getElem?_map, h, Option.map_some]
  obtain ⟨hlt, hw⟩ := List.getElem?_eq_some_iff.mp hget
  rw [todo, List.drop_eq_getElem_cons hlt, hw]

end Txn

/-! ### Moves -/

/-- What one action can do to the state. -/
inductive Move (s : Db) : Db → Prop
  /-- a step of one transaction that its chains do not depend on -/
  | stay (t : XID) (T : Txn) (hpc : (s.txn t).pc ≠ .finished) (h : (s.txn t).SameWrites T)
      (hwf : (s.txn t).Wf → T.Wf) : Move s (s.setTxn t T)
  | begin : Move s
      { s with
        nextXid := s.nextXid + 1
        txn := Function.update s.txn s.nextXid (Txn.start s.currentCsn) }
  /-- the first version of a new OID -/
  | insert (t : XID) (w : WriteRecord) (n : ℕ) (o : Object) (hcall : (s.txn t).pc.canCall)
      (hfree : s.allocated w.entry = false)
      (ho : o.creator = t ∧ o.home = w.entry ∧ o.csn = .xid t ∧ o.nextVolatile = none) :
      Move s ((s.link w.entry o).setTxn t ((s.txn t).firstWrite w n s.nextPtr))
  /-- a version on top of the head `q` of another transaction -/
  | install (t : XID) (w : WriteRecord) (n : ℕ) (o : Object) (q : Ptr)
      (hcall : (s.txn t).pc.canCall) (hq : s.entry w.entry = some q)
      (hcsn : (∃ c, (s.heap q).csn = .csn c ∧ c < (s.txn t).beginCsn) ∨
        ∃ x, (s.heap q).csn = .xid x ∧ (s.txn x).state = .cmmtd)
      (ho : o.creator = t ∧ o.home = w.entry ∧ o.csn = .xid t ∧ o.nextVolatile = some q) :
      Move s ((s.link w.entry o).setTxn t ((s.txn t).firstWrite w n s.nextPtr))
  /-- a version in the place of the transaction's own head `q` -/
  | overwrite (t : XID) (e : Entry) (o : Object) (q : Ptr) (hcall : (s.txn t).pc.canCall)
      (hq : s.entry e = some q) (hcsn : (s.heap q).csn = .xid t)
      (ho : o.creator = t ∧ o.home = e ∧ o.csn = .xid t ∧ o.nextVolatile = s.next q) :
      Move s ((s.link e o).setTxn t ((s.txn t).wrote e s.nextPtr))
  | drawReadOnly (t : XID) (hpc : (s.txn t).pc = .precommit) (hw : (s.txn t).writeSet = []) :
      Move s (s.setTxn t { s.txn t with
        endCsn := (s.txn t).beginCsn, isSealed := true, pc := .postcommit })
  | draw (t : XID) (hpc : (s.txn t).pc = .precommit) (hw : (s.txn t).writeSet ≠ []) :
      Move s (({ s with currentCsn := s.currentCsn + 1 } : Db).setTxn t { s.txn t with
        endCsn := s.currentCsn, isSealed := true, pc := .drawn })
  | stamp (t : XID) (w : WriteRecord) (p : Ptr) (d : FatPtr) (lb : Option LogBlock)
      (hpc : (s.txn t).pc = .postcommit) (hw : (s.txn t).writeSet[(s.txn t).idx]? = some w)
      (hp : s.entry w.entry = some p) :
      Move s (((s.setPersistentAddress p d).setCsn p
        (CsnPtr.generate (s.txn t).endCsn)).setTxn t
          { s.txn t with idx := (s.txn t).idx + 1, lb := lb })
  | unlink (t : XID) (w : WriteRecord) (p : Ptr)
      (hpc : (s.txn t).pc = .aborting) (hw : (s.txn t).writeSet[(s.txn t).idx]? = some w)
      (hp : s.entry w.entry = some p) :
      Move s (((s.setCsn p .null).setEntry w.entry (s.next p)).setTxn t
        { s.txn t with idx := (s.txn t).idx + 1 })

variable {s s' : Db} {t : XID}

/-- What `UpdateTuple` has seen at the head when it decides to install. -/
def UpdateDecision.Sound (s : Db) (t : XID) (e : Entry) : UpdateDecision → Prop
  | .overwrite q => s.entry e = some q ∧ (s.heap q).csn = .xid t
  | .install q => s.entry e = some q ∧
      ((∃ c, (s.heap q).csn = .csn c ∧ c < (s.txn t).beginCsn) ∨
        ∃ x, (s.heap q).csn = .xid x ∧ (s.txn x).state = .cmmtd)
  | _ => True

theorem installOver_sound {e : Entry} {q : Ptr} (h : (UpdateDecision.install q).Sound s t e) :
    (installOver s q).Sound s t e := by
  rw [installOver]
  split
  · trivial
  · exact h

theorem updateDecision_sound {e : Entry} : (updateDecision s t e).Sound s t e := by
  fun_cases updateDecision s t e
  case case3 q hq hx => exact ⟨hq, hx⟩
  case case6 q hq x hx _ _ hst _ => exact installOver_sound ⟨hq, .inr ⟨x, hx, hst⟩⟩
  case case10 q hq c hc hlt => exact installOver_sound ⟨hq, .inl ⟨c, hc, by omega⟩⟩
  all_goals trivial

theorem skipVersion_running {e : Entry} {next : Option Ptr} : (skipVersion e next).running := by
  cases next <;> rfl

theorem testCsn_running {e : Entry} {p : Ptr} {next : Option Ptr} :
    (testCsn s t e p next).running := by
  fun_cases testCsn s t e p next <;> first | rfl | exact skipVersion_running

theorem testHolder_running {e : Entry} {p : Ptr} {next : Option Ptr} {x : XID} {pc : Pc}
    (h : testHolder s t e p next x = some pc) : pc.running := by
  revert h
  fun_cases testHolder s t e p next x <;> rintro ⟨⟩ <;> first | rfl | exact skipVersion_running

/-- A step of `oid_get_version` only moves its own program counter. -/
theorem readStep_goto (h : readStep s t = some s') :
    ∃ pc : Pc, s' = s.setTxn t { s.txn t with pc := pc } ∧ (s.txn t).pc.running ∧ pc.running := by
  revert h
  fun_cases readStep s t
  case case1 e hpc _ => rintro ⟨⟩; exact ⟨_, rfl, by rw [hpc]; rfl, rfl⟩
  case case2 e hpc p _ => rintro ⟨⟩; exact ⟨_, rfl, by rw [hpc]; rfl, rfl⟩
  case case3 e p hpc => rintro ⟨⟩; exact ⟨_, rfl, by rw [hpc]; rfl, rfl⟩
  case case4 e p next hpc => rintro ⟨⟩; exact ⟨_, rfl, by rw [hpc]; rfl, testCsn_running⟩
  case case5 e p next x hpc =>
    intro h
    obtain ⟨pc, hpc', rfl⟩ := Option.map_eq_some_iff.mp h
    exact ⟨pc, rfl, by rw [hpc]; rfl, testHolder_running hpc'⟩
  case case6 => rintro ⟨⟩

theorem insert_move {e : Entry} {value : List UInt8} (h : insert s t e value = some s') :
    Move s s' := by
  rw [insert] at h
  split_ifs at h with hg
  obtain ⟨T, hT, rfl⟩ := Option.map_eq_some_iff.mp h
  rw [Txn.addToWriteSet] at hT
  split_ifs at hT
  cases hT
  exact .insert t ⟨e, _, true⟩ _ _ hg.1 hg.2.1 ⟨rfl, rfl, rfl, rfl⟩

theorem update_move {e : Entry} {value : List UInt8} (h : update s t e value = some s') :
    Move s s' := by
  rw [update] at h
  split_ifs at h with hcall
  have hs := updateDecision_sound (s := s) (t := t) (e := e)
  split at h
  · cases h
  · cases h
    exact .stay t _ (Pc.ne_finished (Pc.running_of_canCall hcall))
      ⟨rfl, rfl, rfl, rfl, rfl, rfl⟩ fun hw => hw.goto (Pc.running_of_canCall hcall) rfl
  · rename_i q hd
    rw [hd] at hs
    cases h
    exact .overwrite t e _ q hcall hs.1 hs.2 ⟨rfl, rfl, rfl, rfl⟩
  · rename_i q hd
    rw [hd] at hs
    obtain ⟨T, hT, rfl⟩ := Option.map_eq_some_iff.mp h
    rw [Txn.addToWriteSet] at hT
    split_ifs at hT
    cases hT
    exact .install t ⟨e, _, false⟩ _ _ q hcall hs.1 hs.2 ⟨rfl, rfl, rfl, rfl⟩

theorem drawCsn_move (h : drawCsn s t = some s') : Move s s' := by
  rw [drawCsn] at h
  split_ifs at h with hpc hw <;> cases h
  · exact .drawReadOnly t hpc hw
  · exact .draw t hpc hw

theorem stamp_move {beyond : ℕ → UInt8} (h : stamp s t beyond = some s') : Move s s' := by
  revert h
  fun_cases stamp s t beyond <;> rintro ⟨⟩
  case case3 T hpc w lb hlb hw p hp off lb' hpop hcap =>
    exact .stamp t w p _ _ hpc hw hp

theorem unlink_move (h : unlink s t = some s') : Move s s' := by
  revert h
  fun_cases unlink s t <;> rintro ⟨⟩
  case case3 hpc w hw p hp => exact .unlink t w p hpc hw hp

/-- Every action is a move. -/
theorem step_move {a : Act} (h : step s a = some s') : Move s s' := by
  -- the steps of a running transaction that only move its program counter
  have goto : ∀ (u : XID) (pc : Pc), (s.txn u).pc.running → pc.running →
      Move s (s.setTxn u { s.txn u with pc := pc }) :=
    fun u pc hr hr' => .stay u _ (Pc.ne_finished hr) ⟨rfl, rfl, rfl, rfl, rfl, rfl⟩
      fun hw => hw.goto hr hr'
  cases a with
  | begin => cases h; exact .begin
  | insert u e value => exact insert_move h
  | update u e value => exact update_move h
  | readStep u =>
    obtain ⟨pc, rfl, hr, hr'⟩ := readStep_goto h
    exact goto u pc hr hr'
  | drawCsn u => exact drawCsn_move h
  | stamp u beyond => exact stamp_move h
  | unlink u => exact unlink_move h
  | readCall u e =>
    simp only [step] at h
    split_ifs at h with hcall
    cases h
    exact goto u _ (Pc.running_of_canCall hcall) rfl
  | phantom u =>
    simp only [step] at h
    split_ifs at h with hpc
    cases h
    refine .stay u _ (by simp [hpc]) ⟨rfl, rfl, rfl, rfl, rfl, rfl⟩ fun hw => ?_
    simpa [Txn.Wf, hpc] using hw
  | commit u =>
    simp only [step] at h
    split_ifs at h with hcall
    cases h
    exact .stay u _ (Pc.ne_finished (Pc.running_of_canCall hcall))
      ⟨rfl, rfl, rfl, rfl, rfl, rfl⟩ fun hw => ⟨hw.1, rfl, (hw.of_canCall hcall).2⟩
  | allocBlock u lsn stale =>
    simp only [step, allocBlock] at h
    split_ifs at h with hpc <;> cases h <;>
      refine .stay u _ (by simp [hpc]) ⟨rfl, rfl, rfl, rfl, rfl, rfl⟩ fun hw => ?_ <;>
      simp_all [Txn.Wf]
  | publish u =>
    simp only [step, publish] at h
    split_ifs at h with hg
    cases h
    refine .stay u _ (by simp [hg.1]) ⟨rfl, rfl, rfl, rfl, rfl, rfl⟩ fun hw => ?_
    simp_all [Txn.Wf]
  | abort u =>
    simp only [step] at h
    split_ifs at h with hg
    cases h
    rcases hg with hcall | hfail
    · exact .stay u _ (Pc.ne_finished (Pc.running_of_canCall hcall))
        ⟨rfl, rfl, rfl, rfl, rfl, rfl⟩ fun hw => ⟨hw.1, rfl, (hw.of_canCall hcall).2.2⟩
    · refine .stay u _ (by simp [hfail]) ⟨rfl, rfl, rfl, rfl, rfl, rfl⟩
        fun hw => ⟨hw.1, rfl, ?_⟩
      have := hw.2
      rw [hfail] at this
      exact this.2.2
  | finish u =>
    simp only [step] at h
    split_ifs at h with hg
    cases h
    have hpc : (s.txn u).pc ≠ .finished := by
      rcases hg with hpc | ⟨hpc, -⟩ <;> simp [hpc]
    refine .stay u _ hpc ⟨rfl, rfl, rfl, rfl, rfl, rfl⟩ fun hw => ?_
    rcases hg with hpc | ⟨hpc, hidx⟩ <;> simp_all [Txn.Wf]

/-- The program counter is not inside `oid_get_version` and not at its end. -/
def Pc.quiet : Pc → Bool
  | readNext .. | readCsn .. | readHolder .. | returned .. => false
  | _ => true

/-- The transaction that performs an action; a constructor makes a new one. -/
def Act.actor (s : Db) : Act → XID
  | begin => s.nextXid
  | insert t .. | update t .. | readCall t .. | readStep t | commit t | phantom t | drawCsn t
  | allocBlock t .. | stamp t .. | publish t | abort t | unlink t | finish t => t

/-- An action changes one transaction, and only a read step leads it on through
`oid_get_version`. -/
theorem step_txn {a : Act} (h : step s a = some s') :
    ∃ T, s'.txn = Function.update s.txn (a.actor s) T ∧
      (a = .readStep (a.actor s) ∨ T.pc.quiet) := by
  cases a with
  | begin => cases h; exact ⟨_, rfl, .inr rfl⟩
  | readStep u =>
    obtain ⟨pc, rfl, -⟩ := readStep_goto h
    exact ⟨_, rfl, .inl rfl⟩
  | insert u e value =>
    simp only [step, insert] at h
    split_ifs at h
    obtain ⟨T, -, rfl⟩ := Option.map_eq_some_iff.mp h
    exact ⟨_, rfl, .inr rfl⟩
  | update u e value =>
    simp only [step, update] at h
    split_ifs at h
    split at h
    · cases h
    · cases h; exact ⟨_, rfl, .inr rfl⟩
    · cases h; exact ⟨_, rfl, .inr rfl⟩
    · obtain ⟨T, -, rfl⟩ := Option.map_eq_some_iff.mp h
      exact ⟨_, rfl, .inr rfl⟩
  | stamp u beyond =>
    revert h
    simp only [step]
    fun_cases stamp s u beyond <;> rintro ⟨⟩
    case case3 T hpc _ _ _ _ _ _ _ _ _ _ =>
      refine ⟨_, rfl, .inr ?_⟩
      show T.pc.quiet
      rw [hpc]
      rfl
  | unlink u =>
    revert h
    simp only [step]
    fun_cases unlink s u <;> rintro ⟨⟩
    case case3 T hpc _ _ _ _ =>
      refine ⟨_, rfl, .inr ?_⟩
      show T.pc.quiet
      rw [hpc]
      rfl
  | readCall | commit | phantom | abort | finish | drawCsn | allocBlock | publish =>
    simp only [step, drawCsn, allocBlock, publish] at h
    split_ifs at h <;> cases h <;> exact ⟨_, rfl, .inr rfl⟩

/-- Every move keeps the transactions well formed. -/
theorem Move.wf (h : Move s s') (hw : ∀ t, (s.txn t).Wf) : ∀ t, (s'.txn t).Wf := by
  have upd : ∀ {u : XID} {T : Txn}, T.Wf → ∀ t, (Function.update s.txn u T t).Wf := by
    intro u T hT t
    rw [Function.update_apply]
    split
    · exact hT
    · exact hw t
  cases h with
  | stay t T hpc h hwf => exact upd (hwf (hw t))
  | begin => exact upd ⟨le_rfl, rfl, rfl, rfl⟩
  | insert t _ _ _ hcall _ _ | install t _ _ _ _ hcall _ _ _ =>
    obtain ⟨h1, h2, h3⟩ := (hw t).of_canCall hcall
    exact upd ⟨by simp [Txn.firstWrite, h2], h1, h2, h3⟩
  | overwrite t e o q hcall hq hcsn ho =>
    exact upd ⟨(hw t).1, (hw t).of_canCall hcall⟩
  | drawReadOnly t hpc hws =>
    have := (hw t).2
    rw [hpc] at this
    exact upd ⟨(hw t).1, this.1, rfl⟩
  | draw t hpc hws =>
    have := (hw t).2
    rw [hpc] at this
    exact upd ⟨(hw t).1, this.1, this.2.1, rfl⟩
  | stamp t _ _ _ _ hpc hws _ | unlink t _ _ hpc hws _ =>
    have hlt := (List.getElem?_eq_some_iff.mp hws).1
    have := (hw t).2
    rw [hpc] at this
    refine upd ⟨hlt, ?_⟩
    simpa [hpc] using this

end PreemptDB
