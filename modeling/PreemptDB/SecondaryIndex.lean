/-
Secondary indexes after aborted attempts (`engine.cc`, `masstree/masstree_btree.h`).

A transaction inserts a record through the primary index and registers its OID in a
secondary one.  When it aborts, both index entries stay.  `insert_if_absent` replaces the
entry of a primary index whose chain is empty, but never one of a secondary index.

* `Registers` — the histories: nobody updates, and what is registered is one's own;
* `NotStale` — no attempt that was taken back has left its entry under the key;
* `secondary_agrees` — when `InsertOID` succeeds, and that both indexes lead to the record;
* `retry_not_registered` — the second attempt of an aborted insert.
-/
import PreemptDB.CommitRound
import PreemptDB.EmptyChain
import PreemptDB.GetRecord

open LinkedChain
open Function (update_apply update_of_ne update_self)

namespace PreemptDB

section

variable {s s' : Db} {ch : Entry → List Ptr} {a : Act}

/-- What a step that updates nothing leaves as it is. -/
structure Untouched (s s' : Db) : Prop where
  next : (∀ p, s.next p = none) → ∀ p, s'.next p = none
  none : ∀ {e}, s.allocated e = true → s.entry e = none → s'.entry e = none
  head : ∀ {e p}, s.entry e = some p → s.Stamped p → s'.entry e = some p
  written : ∀ {t e p}, s.allocated e = true → (s.txn t).written e = some p →
    (s'.txn t).written e = some p

theorem ChainInv.allocated_of_entry (hc : ChainInv s ch) {e : Entry} {p : Ptr}
    (hp : s.entry e = some p) : s.allocated e = true := by
  by_contra hn
  rw [hc.free e (Bool.eq_false_iff.mpr hn)] at hp
  cases hp

/-- One transaction changes, and not in what it has written. -/
theorem Untouched.of_txn {t : XID} {T : Txn} (hentry : s'.entry = s.entry)
    (hnext : s'.next = s.next) (htxn : s'.txn = Function.update s.txn t T)
    (hwr : T.written = (s.txn t).written) : Untouched s s' where
  next h p := by rw [hnext, h]
  none _ h := by rw [hentry, h]
  head h _ := by rw [hentry, h]
  written {u e p} _ h := by
    rw [htxn, update_apply]
    split
    · next hu =>
      subst hu
      rw [hwr, h]
    · exact h

theorem untouched_insert (hc : ChainInv s ch) {t : XID} {e : Entry} {value : List UInt8}
    (hs : insert s t e value = some s') : Untouched s s' := by
  rw [insert] at hs
  split_ifs at hs with hg
  obtain ⟨T, hT, rfl⟩ := Option.map_eq_some_iff.mp hs
  have hwr : T.written = (s.txn t).written := by
    rw [Txn.addToWriteSet] at hT
    split_ifs at hT
    cases hT
    rfl
  have hne : ∀ {e'}, s.allocated e' = true → e' ≠ e := by
    rintro e' ha rfl
    rw [hg.2.1] at ha
    cases ha
  refine ⟨fun h p => ?_, fun ha h => ?_, fun h _ => ?_, fun {u e' p} ha h => ?_⟩
  · by_cases hp : p = s.nextPtr
    · subst hp
      exact Linking.next_new
    · show (Function.update s.heap s.nextPtr _ p).nextVolatile = none
      rw [update_of_ne hp]
      exact h p
  · exact (update_of_ne (hne ha) ..).trans h
  · exact (update_of_ne (hne (hc.allocated_of_entry h)) ..).trans h
  · rw [Db.setTxn_txn, update_apply]
    split
    · next hu =>
      subst hu
      show Function.update T.written e _ e' = some p
      rw [update_of_ne (hne ha), hwr, h]
    · exact h

/-- The loop of `Abort` takes back versions of its own, and those carry no CSN. -/
theorem untouched_unlink (hc : ChainInv s ch) {t : XID} (hs : unlink s t = some s') :
    Untouched s s' := by
  revert hs
  fun_cases unlink s t <;> rintro ⟨⟩
  case case3 hpc w hw p hp =>
    obtain ⟨l, k⟩ := hc.handling_unlink hpc hw hp
    obtain ⟨hx, -⟩ := k.head_dirty hc
    refine ⟨fun h q => ?_, fun {e} _ h => ?_, fun {e q} h hq => ?_, fun {u e q} _ h => ?_⟩
    · rw [k.next, h]
    · have hne : e ≠ w.entry := by
        rintro rfl
        rw [hp] at h
        cases h
      exact (update_of_ne hne ..).trans h
    · have hne : e ≠ w.entry := by
        rintro rfl
        obtain rfl := Option.some_inj.mp (hp.symm.trans h)
        obtain ⟨c, hcsn⟩ := hq
        rw [hx] at hcsn
        cases hcsn
      exact (update_of_ne hne ..).trans h
    · rw [Db.setTxn_txn, update_apply]
      split
      · next hu =>
        subst hu
        exact h
      · exact h

theorem untouched_step (hc : ChainInv s ch) (hs : step s a = some s')
    (ha : ∀ t e value, a ≠ .update t e value) : Untouched s s' := by
  cases a with
  | begin =>
    cases hs
    refine .of_txn rfl rfl rfl ?_
    rw [hc.unborn s.nextXid le_rfl]
    rfl
  | insert t e value => exact untouched_insert hc hs
  | update t e value => exact absurd rfl (ha t e value)
  | readStep t =>
    obtain ⟨pc, rfl, -⟩ := readStep_goto hs
    exact .of_txn rfl rfl rfl rfl
  | stamp t beyond =>
    revert hs
    simp only [step]
    fun_cases stamp s t beyond <;> rintro ⟨⟩
    case case3 T hpc w lb hlb hw p hp off lb' hpop hcap =>
      obtain ⟨l, k⟩ := hc.handling_stamp (persistentAddress T off w.size) (some lb') hpc hw hp
      exact .of_txn rfl k.next rfl rfl
  | unlink t => exact untouched_unlink hc hs
  | readCall | commit | phantom | abort | finish | drawCsn | allocBlock | publish =>
    simp only [step, drawCsn, allocBlock, publish] at hs
    split_ifs at hs <;> cases hs <;> exact .of_txn rfl rfl rfl rfl

end

namespace Engine

open StepRun

variable {ι κ : Type} {isPrimary : ι → Bool} {s s' : State ι κ} {a : EngineAct ι κ}

/-- The histories of inserting transactions: nobody updates or removes a record, and what is
registered in a secondary index is an OID of one's own. -/
def Registers (s : State ι κ) : EngineAct ι κ → Prop
  | .getOid _ _ _ _ => False
  | .registerOid t _ _ e => s.inserter e = some t
  | _ => True

/-- No OID whose chain is empty is registered under the key. -/
def NotStale (s : State ι κ) : EngineAct ι κ → Prop
  | .registerOid _ i k _ => ∀ e, s.index i k = some e → s.db.entry e ≠ none
  | _ => True

/-- What the calls so far say about the indexes: an OID stays under the key it was inserted
with until its chain is empty, and under the key it was registered with for ever. -/
structure IndexInv (isPrimary : ι → Bool) (log : List (Event ι κ)) (s : State ι κ) : Prop where
  inserted : InsertedInv isPrimary s
  single : ∀ p, s.db.next p = none
  noModify : ∀ {t i k m e}, s.call t ≠ .modify i k m e
  calls : ∀ {t i k value e}, s.call t = .insertOid i k value e → isPrimary i = true ∧
    s.inserter e = some t ∧
    ∃ p, (s.db.txn t).written e = some p ∧ (s.db.heap p).value = value.take (dataSz value)
  primary : ∀ {t i k value e}, .inserted t i k value e .rcTrue ∈ log →
    s.inserter e = some t ∧ (s.index i k = some e ∨ s.db.entry e = none) ∧
    ∃ p, (s.db.txn t).written e = some p ∧ (s.db.heap p).value = value.take (dataSz value)
  secondary : ∀ {t i k e}, .registered t i k e true ∈ log →
    isPrimary i = false ∧ s.index i k = some e
  registered : ∀ {i k e}, isPrimary i = false → s.index i k = some e →
    ∃ t, .registered t i k e true ∈ log

theorem indexInv_init : IndexInv isPrimary [] (State.init : State ι κ) where
  inserted := insertedInv_init
  single _ := rfl
  noModify h := by cases h
  calls h := by cases h
  primary h := by cases h
  secondary h := by cases h
  registered _ h := by cases h

namespace IndexInv

variable {log : List (Event ι κ)}

/-- A version stays what it is. -/
theorem version_kept {d d' : Db} {ch : Entry → List Ptr} (hc : ChainInv d ch) (g : Grows d d')
    (hun : Untouched d d') {t : XID} {e : Entry} {v : List UInt8} (ha : d.allocated e = true)
    (h : ∃ p, (d.txn t).written e = some p ∧ (d.heap p).value = v) :
    ∃ p, (d'.txn t).written e = some p ∧ (d'.heap p).value = v := by
  obtain ⟨p, hw, hv⟩ := h
  obtain ⟨-, -, -, hval⟩ := g.object p (hc.written hw).1
  exact ⟨p, hun.written ha hw, hval.trans hv⟩

/-- A step of the database that inserts and updates nothing. -/
theorem db (h : IndexInv isPrimary log s) {b : Act} {d : Db}
    (hb : PreemptDB.step s.db b = some d) (hupd : ∀ t e value, b ≠ .update t e value)
    (hinv : InsertedInv isPrimary s') (hdb : s'.db = d) (hindex : s'.index = s.index)
    (hins : s'.inserter = s.inserter)
    (hcall : ∀ u, s'.call u = s.call u ∨ (∃ i k e, s'.call u = .read i k e)) :
    IndexInv isPrimary log s' := by
  obtain ⟨ch, hc⟩ := h.inserted.chain
  obtain ⟨ch', k⟩ := hc.move (step_move hb)
  have hun := untouched_step hc hb hupd
  subst hdb
  refine ⟨hinv, hun.next h.single, ?_, ?_, ?_, ?_, ?_⟩
  · intro t i k m e hm
    rcases hcall t with hsame | ⟨i', k', e', hread⟩
    · exact h.noModify (hsame.symm.trans hm)
    · rw [hread] at hm
      cases hm
  · intro t i k value e hm
    rcases hcall t with hsame | ⟨i', k', e', hread⟩
    · obtain ⟨hi, hinserter, hver⟩ := h.calls (hsame.symm.trans hm)
      exact ⟨hi, by rw [hins, hinserter],
        version_kept hc ‹Kept _ _ _ _›.grows hun (h.inserted.inserted hinserter).allocated hver⟩
    · rw [hread] at hm
      cases hm
  · intro t i k value e hm
    obtain ⟨hinserter, hor, hver⟩ := h.primary hm
    have ha := (h.inserted.inserted hinserter).allocated
    refine ⟨by rw [hins, hinserter], ?_, version_kept hc ‹Kept _ _ _ _›.grows hun ha hver⟩
    rw [hindex]
    exact hor.imp id (hun.none ha)
  · intro t i k e hm
    rw [hindex]
    exact h.secondary hm
  · intro i k e hi hm
    rw [hindex] at hm
    exact h.registered hi hm

theorem call_setCall (s : State ι κ) (t : XID) (c : Call ι κ) (u : XID) :
    (s.setCall t c).call u = s.call u ∨ (s.setCall t c).call u = c := by
  by_cases hu : u = t
  · subst hu
    exact .inr (update_self ..)
  · exact .inl (update_of_ne hu ..)

/-- Events that are about no insert say nothing about the indexes. -/
theorem log_append (h : IndexInv isPrimary log s) {evs : List (Event ι κ)}
    (hins : ∀ {t i k value e rc}, .inserted t i k value e rc ∉ evs)
    (hreg : ∀ {t i k e ok}, .registered t i k e ok ∉ evs) :
    IndexInv isPrimary (log ++ evs) s where
  inserted := h.inserted
  single := h.single
  noModify := h.noModify
  calls := h.calls
  primary hm := by
    rcases List.mem_append.mp hm with hm | hm
    · exact h.primary hm
    · exact absurd hm hins
  secondary hm := by
    rcases List.mem_append.mp hm with hm | hm
    · exact h.secondary hm
    · exact absurd hm hreg
  registered hi hm := by
    obtain ⟨t, ht⟩ := h.registered hi hm
    exact ⟨t, List.mem_append_left _ ht⟩

/-- `InsertRecord` up to the insertion into the table: the OID is new. -/
theorem insertRecord (h : IndexInv isPrimary log s) {t : XID} {i : ι} {k : κ}
    {value : List UInt8} {e : Entry} {d : Db} (hi : isPrimary i = true)
    (hd : insert s.db t e value = some d)
    (hinv : InsertedInv isPrimary ({ s with
      db := d
      call := Function.update s.call t (.insertOid i k value e)
      inserter := Function.update s.inserter e (some t) } : State ι κ)) :
    IndexInv isPrimary log ({ s with
      db := d
      call := Function.update s.call t (.insertOid i k value e)
      inserter := Function.update s.inserter e (some t) } : State ι κ) := by
  obtain ⟨ch, hc⟩ := h.inserted.chain
  obtain ⟨ch', kept⟩ := hc.move (insert_move hd)
  have hun := untouched_insert hc hd
  obtain ⟨hfree, hnew⟩ : s.db.allocated e = false ∧
      ∃ p, (d.txn t).written e = some p ∧ (d.heap p).value = value.take (dataSz value) := by
    rw [insert] at hd
    split_ifs at hd with hg
    obtain ⟨T, -, rfl⟩ := Option.map_eq_some_iff.mp hd
    refine ⟨hg.2.1, s.db.nextPtr, ?_, ?_⟩
    · simp [Txn.wrote]
    · simp [Object.create]
  -- whatever has been inserted before is another OID
  have old : ∀ {e' u}, s.inserter e' = some u →
      s.db.allocated e' = true ∧ Function.update s.inserter e (some t) e' = some u := by
    intro e' u hu
    have ha := (h.inserted.inserted hu).allocated
    refine ⟨ha, (update_of_ne ?_ ..).trans hu⟩
    rintro rfl
    rw [hfree] at ha
    cases ha
  refine ⟨hinv, hun.next h.single, fun {u i' k' m e'} hm => ?_, fun {u i' k' v e'} hm => ?_,
    fun {u i' k' v e'} hm => ?_, h.secondary, h.registered⟩
  · change Function.update s.call t _ u = _ at hm
    rw [update_apply] at hm
    split at hm
    · cases hm
    · exact h.noModify hm
  · change Function.update s.call t _ u = _ at hm
    rw [update_apply] at hm
    split at hm
    · next hu =>
      subst hu
      cases hm
      exact ⟨hi, update_self .., hnew⟩
    · obtain ⟨hi', hinserter, hver⟩ := h.calls hm
      obtain ⟨ha, hins⟩ := old hinserter
      exact ⟨hi', hins, version_kept hc kept.grows hun ha hver⟩
  · obtain ⟨hinserter, hor, hver⟩ := h.primary hm
    obtain ⟨ha, hins⟩ := old hinserter
    exact ⟨hins, hor.imp id (hun.none ha), version_kept hc kept.grows hun ha hver⟩

/-- A call ends. -/
theorem endCall (h : IndexInv isPrimary log s) (t : XID)
    (hinv : InsertedInv isPrimary (s.setCall t .none)) :
    IndexInv isPrimary log (s.setCall t .none) where
  inserted := hinv
  single := h.single
  noModify {u i k m e} hm := by
    rcases call_setCall s t .none u with hsame | hnone
    · exact h.noModify (hsame.symm.trans hm)
    · rw [hnone] at hm
      cases hm
  calls {u i k v e} hm := by
    rcases call_setCall s t .none u with hsame | hnone
    · exact h.calls (hsame.symm.trans hm)
    · rw [hnone] at hm
      cases hm
  primary := h.primary
  secondary := h.secondary
  registered := h.registered

variable [DecidableEq ι] [DecidableEq κ]

theorem index_insertIfAbsent (s : State ι κ) (i : ι) (k : κ) (e : Entry) (i' : ι) (k' : κ) :
    (s.insertIfAbsent isPrimary i k e).index i' k' =
      if i' = i ∧ k' = k ∧ s.inserts isPrimary i k then some e else s.index i' k' := by
  rw [State.insertIfAbsent]
  by_cases hins : s.inserts isPrimary i k
  · rw [if_pos hins]
    show Function.update s.index i (Function.update (s.index i) k (some e)) i' k' = _
    by_cases hi : i' = i
    · subst hi
      by_cases hk : k' = k
      · subst hk
        simp [hins]
      · simp [hk]
    · simp [hi]
  · simp [hins]

/-- `insert_if_absent` with the call that it ends: an OID is replaced only in a primary index,
where its chain is empty. -/
theorem insertIfAbsent (h : IndexInv isPrimary log s) {i : ι} {k : κ} {e : Entry}
    {ev : Event ι κ} (hinv : InsertedInv isPrimary s') (hdb : s'.db = s.db)
    (hins : s'.inserter = s.inserter)
    (hindex : s'.index = (s.insertIfAbsent isPrimary i k e).index)
    (hcall : ∀ u, s'.call u = s.call u ∨ s'.call u = .none)
    (hprim : ∀ {t i' k' value e'}, ev = .inserted t i' k' value e' .rcTrue →
      i' = i ∧ k' = k ∧ e' = e ∧ s.inserts isPrimary i k = true ∧ s.inserter e = some t ∧
      ∃ p, (s.db.txn t).written e = some p ∧ (s.db.heap p).value = value.take (dataSz value))
    (hsec : ∀ {t i' k' e'}, ev = .registered t i' k' e' true →
      i' = i ∧ k' = k ∧ e' = e ∧ s.inserts isPrimary i k = true ∧ isPrimary i = false)
    (hreg : isPrimary i = false → s.inserts isPrimary i k = true →
      ∃ t, ev = .registered t i k e true) :
    IndexInv isPrimary (log ++ [ev]) s' := by
  have hidx : ∀ i' k', s'.index i' k' =
      if i' = i ∧ k' = k ∧ s.inserts isPrimary i k then some e else s.index i' k' := by
    intro i' k'
    rw [hindex, index_insertIfAbsent]
  refine ⟨hinv, by rw [hdb]; exact h.single, fun {t i' k' m e'} hm => ?_,
    fun {t i' k' v e'} hm => ?_, fun {t i' k' v e'} hm => ?_, fun {t i' k' e'} hm => ?_,
    fun {i' k' e'} hi' hm => ?_⟩
  · rcases hcall t with hsame | hnone
    · exact h.noModify (hsame.symm.trans hm)
    · rw [hnone] at hm
      cases hm
  · rcases hcall t with hsame | hnone
    · rw [hdb, hins]
      exact h.calls (hsame.symm.trans hm)
    · rw [hnone] at hm
      cases hm
  · rw [hdb, hins, hidx]
    rcases List.mem_append.mp hm with hm | hm
    · obtain ⟨hinserter, hor, hver⟩ := h.primary hm
      refine ⟨hinserter, ?_, hver⟩
      split
      · next hk =>
        obtain ⟨rfl, rfl, habsent⟩ := hk
        rcases hor with hold | hnone
        · -- the OID that is replaced has an empty chain
          right
          rw [State.inserts, hold, Bool.and_eq_true, State.hasLatestVersion] at habsent
          simpa using habsent.2
        · exact .inr hnone
      · exact hor
    · obtain ⟨rfl, rfl, rfl, habsent, hinserter, hver⟩ := hprim (List.mem_singleton.mp hm).symm
      exact ⟨hinserter, .inl (if_pos ⟨rfl, rfl, habsent⟩), hver⟩
  · rw [hidx]
    rcases List.mem_append.mp hm with hm | hm
    · obtain ⟨hi', hold⟩ := h.secondary hm
      refine ⟨hi', ?_⟩
      split
      · next hk =>
        obtain ⟨rfl, rfl, habsent⟩ := hk
        rw [State.inserts, hold, hi'] at habsent
        cases habsent
      · exact hold
    · obtain ⟨rfl, rfl, rfl, habsent, hi⟩ := hsec (List.mem_singleton.mp hm).symm
      exact ⟨hi, if_pos ⟨rfl, rfl, habsent⟩⟩
  · rw [hidx] at hm
    split at hm
    · next hk =>
      obtain ⟨rfl, rfl, habsent⟩ := hk
      obtain ⟨t, rfl⟩ := hreg hi' habsent
      obtain rfl := Option.some_inj.mp hm
      exact ⟨t, List.mem_append_right _ (List.mem_singleton_self _)⟩
    · obtain ⟨t, ht⟩ := h.registered hi' hm
      exact ⟨t, List.mem_append_left _ ht⟩

theorem fields_insertIfAbsent (isPrimary : ι → Bool) (s : State ι κ) (i : ι) (k : κ) (e : Entry) :
    (s.insertIfAbsent isPrimary i k e).call = s.call ∧
      (s.insertIfAbsent isPrimary i k e).inserter = s.inserter := by
  rw [State.insertIfAbsent]
  split <;> exact ⟨rfl, rfl⟩

/-- Every step of the histories keeps what the calls say about the indexes. -/
theorem step (h : IndexInv isPrimary log s) (hok : Registers s a)
    (hs : Engine.step isPrimary s a = some s') :
    IndexInv isPrimary (log ++ emit isPrimary s a) s' := by
  have hinv := h.inserted.step hs
  cases a with
  | mvcc b =>
    obtain ⟨hadm, hs⟩ := Option.ite_none_right_eq_some.mp hs
    obtain ⟨d, hd, rfl⟩ := Option.map_eq_some_iff.mp hs
    -- an update comes from a call that was looked up, and there is none
    have hupd : ∀ t e value, b ≠ .update t e value := by
      rintro t e value rfl
      cases hc : s.call (Act.actor s.db (.update t e value)) <;> simp [hc, Call.admits] at hadm
    refine (h.db hd hupd hinv rfl rfl rfl fun u => .inl rfl).log_append ?_ ?_
    · intro t i k value e rc
      cases b <;> simp [emit]
    · intro t i k e ok
      cases b <;> simp [emit]
  | insertRecord t i k value e =>
    obtain ⟨hready, hs⟩ := Option.ite_none_right_eq_some.mp hs
    obtain ⟨d, hd, rfl⟩ := Option.map_eq_some_iff.mp hs
    rw [emit, List.append_nil]
    exact h.insertRecord hready.2 hd hinv
  | insertOid t =>
    simp only [Engine.step] at hs
    split at hs
    · next i k value e hcall =>
      cases hs
      obtain ⟨hi, hinserter, hver⟩ := h.calls hcall
      obtain ⟨hcalls, hins⟩ := fields_insertIfAbsent isPrimary s i k e
      simp only [emit, hcall]
      refine h.insertIfAbsent (i := i) (k := k) (e := e) hinv
        (insertIfAbsent_db s i k e) hins rfl ?_ ?_ ?_ ?_
      · intro u
        rw [← hcalls]
        exact call_setCall _ t .none u
      · intro t' i' k' v e' hev
        simp only [Event.inserted.injEq] at hev
        obtain ⟨rfl, rfl, rfl, rfl, rfl, hrc⟩ := hev
        refine ⟨rfl, rfl, rfl, ?_, hinserter, hver⟩
        by_contra hn
        rw [if_neg hn] at hrc
        cases hrc
      · intro t' i' k' e' hev
        cases hev
      · -- `InsertRecord` is for primary indexes
        intro hi'
        rw [hi] at hi'
        cases hi'
    · cases hs
  | registerOid t i k e =>
    obtain ⟨hready, hs⟩ := Option.ite_none_right_eq_some.mp hs
    cases hs
    obtain ⟨hcalls, hins⟩ := fields_insertIfAbsent isPrimary s i k e
    refine h.insertIfAbsent (i := i) (k := k) (e := e) hinv
      (insertIfAbsent_db s i k e) hins rfl ?_ ?_ ?_ ?_
    · intro u
      rw [hcalls]
      exact .inl rfl
    · intro t' i' k' v e' hev
      cases hev
    · intro t' i' k' e' hev
      simp only [Event.registered.injEq] at hev
      obtain ⟨rfl, rfl, rfl, rfl, habsent⟩ := hev
      exact ⟨rfl, rfl, rfl, habsent, hready.2⟩
    · intro _ habsent
      rw [habsent]
      exact ⟨t, rfl⟩
  | getOid t i k m => exact absurd hok id
  | update t =>
    simp only [Engine.step] at hs
    split at hs
    · next hcall => exact absurd hcall h.noModify
    · cases hs
  | getRecord t i k =>
    obtain ⟨-, hs⟩ := Option.ite_none_right_eq_some.mp hs
    split at hs
    · next hk =>
      cases hs
      simp only [emit, hk]
      exact h.log_append (by simp) (by simp)
    · next e hk =>
      obtain ⟨d, hd, rfl⟩ := Option.map_eq_some_iff.mp hs
      simp only [emit, hk, List.append_nil]
      refine h.db hd (fun _ _ _ hb => by cases hb) hinv rfl rfl rfl fun u => ?_
      exact (call_setCall s t (.read i k e) u).imp id fun hu => ⟨i, k, e, hu⟩
  | readReturn t =>
    simp only [Engine.step] at hs
    split at hs
    · next i k e r e' hcall hpc =>
      cases hs
      simp only [emit, hcall, hpc]
      exact (h.endCall t hinv).log_append (by simp) (by simp)
    · cases hs

end IndexInv

/-- Transaction `t` is in `GetRecord` for an OID whose only version `p` is in its snapshot. -/
structure Reading (t : XID) (i : ι) (k : κ) (e : Entry) (p : Ptr) (o : Object)
    (s : State ι κ) : Prop where
  chain : ∃ ch, ChainInv s.db ch
  noModify : ∀ {u i k m e}, s.call u ≠ .modify i k m e
  entry : s.db.entry e = some p
  heap : s.db.heap p = o
  last : o.nextVolatile = none
  visible : ∃ c, o.csn = .csn c ∧ c ≤ (s.db.txn t).beginCsn
  call : s.call t = .read i k e
  pc : (s.db.txn t).pc = .readEntry e ∨ (s.db.txn t).pc = .readNext e p ∨
    (s.db.txn t).pc = .readCsn e p none ∨ (s.db.txn t).pc = .returned e (some p)

namespace Reading

variable {t : XID} {i : ι} {k : κ} {e : Entry} {p : Ptr} {o : Object}

/-- A step of the database that is not the reader's and updates nothing. -/
theorem db (h : Reading t i k e p o s) {b : Act} (hb : PreemptDB.step s.db b = some s'.db)
    (hupd : ∀ u e value, b ≠ .update u e value) (hactor : b.actor s.db ≠ t)
    (hno : ∀ {u i k m e}, s'.call u ≠ .modify i k m e) (hcall : s'.call t = s.call t) :
    Reading t i k e p o s' := by
  obtain ⟨ch, hc⟩ := h.chain
  obtain ⟨ch', kept⟩ := hc.move (step_move hb)
  have hun := untouched_step hc hb hupd
  obtain ⟨c, hcsn, hle⟩ := h.visible
  have hst : s.db.Stamped p := ⟨c, by rw [h.heap, hcsn]⟩
  have htxn : s'.db.txn t = s.db.txn t := by
    obtain ⟨T, hT, -⟩ := step_txn hb
    rw [hT, update_of_ne hactor.symm]
  refine ⟨⟨ch', kept.chainInv⟩, hno, hun.head h.entry hst, ?_, h.last, ⟨c, hcsn, ?_⟩,
    hcall.trans h.call, ?_⟩
  · rw [kept.grows.stamped p hst, h.heap]
  · rw [htxn]
    exact hle
  · rw [htxn]
    exact h.pc

/-- One load of `oid_get_version`: the only version is found. -/
theorem readStep (h : Reading t i k e p o s) {d : Db} (hd : PreemptDB.readStep s.db t = some d) :
    Reading t i k e p o { s with db := d } := by
  obtain ⟨c, hcsn, hle⟩ := h.visible
  obtain ⟨ch, hc⟩ := h.chain
  obtain ⟨ch', kept⟩ := hc.move (step_move (a := .readStep t) hd)
  have key : ∃ pc : Pc, d = s.db.setTxn t { s.db.txn t with pc := pc } ∧
      (pc = .readNext e p ∨ pc = .readCsn e p none ∨ pc = .returned e (some p)) := by
    rcases h.pc with hpc | hpc | hpc | hpc
    · simp only [PreemptDB.readStep, hpc, h.entry, Option.some_inj] at hd
      exact ⟨_, hd.symm, .inl rfl⟩
    · have hnext : s.db.next p = none := by rw [Db.next, h.heap, h.last]
      simp only [PreemptDB.readStep, hpc, hnext, Option.some_inj] at hd
      exact ⟨_, hd.symm, .inr (.inl rfl)⟩
    · simp only [PreemptDB.readStep, hpc, testCsn, h.heap, hcsn, hle, if_true,
        Option.some_inj] at hd
      exact ⟨_, hd.symm, .inr (.inr rfl)⟩
    · simp [PreemptDB.readStep, hpc] at hd
  obtain ⟨pc, rfl, hpc⟩ := key
  refine ⟨⟨ch', kept.chainInv⟩, h.noModify, h.entry, h.heap, h.last, ⟨c, hcsn, ?_⟩, h.call, ?_⟩
  · simpa using hle
  · simpa using .inr hpc

/-- A step that leaves the database alone. -/
theorem congr (h : Reading t i k e p o s) (hdb : s'.db = s.db)
    (hno : ∀ {u i k m e}, s'.call u ≠ .modify i k m e) (hcall : s'.call t = s.call t) :
    Reading t i k e p o s' := by
  refine ⟨?_, hno, ?_, ?_, h.last, ?_, hcall.trans h.call, ?_⟩ <;> rw [hdb]
  · exact h.chain
  · exact h.entry
  · exact h.heap
  · exact h.visible
  · exact h.pc

/-- Another transaction ends its call. -/
theorem endCall (h : Reading t i k e p o s) {u : XID} (hu : u ≠ t) :
    Reading t i k e p o (s.setCall u .none) := by
  refine h.congr rfl (fun {v i k m e} hm => ?_) (update_of_ne hu.symm ..)
  rcases IndexInv.call_setCall s u .none v with hsame | hnone
  · exact h.noModify (hsame.symm.trans hm)
  · rw [hnone] at hm
    cases hm

variable [DecidableEq ι] [DecidableEq κ]

theorem insertIfAbsent (h : Reading t i k e p o s) (i' : ι) (k' : κ) (e' : Entry) :
    Reading t i k e p o (s.insertIfAbsent isPrimary i' k' e') := by
  obtain ⟨hcalls, -⟩ := IndexInv.fields_insertIfAbsent isPrimary s i' k' e'
  refine h.congr (insertIfAbsent_db s i' k' e') ?_ (by rw [hcalls])
  rw [hcalls]
  exact h.noModify

/-- The reader finds the version, whatever the others do but update. -/
theorem step (h : Reading t i k e p o s) (hs : Engine.step isPrimary s a = some s')
    (hok : ∀ u i k m, a ≠ .getOid u i k m) (hret : a ≠ .readReturn t) :
    Reading t i k e p o s' := by
  have hready : ∀ {u}, s.ready u = true → u ≠ t := by
    rintro u hu rfl
    simp [State.ready, h.call] at hu
  cases a with
  | mvcc b =>
    obtain ⟨hadm, hs⟩ := Option.ite_none_right_eq_some.mp hs
    obtain ⟨d, hd, rfl⟩ := Option.map_eq_some_iff.mp hs
    -- the reader itself only goes on reading
    by_cases hactor : b.actor s.db = t
    · rw [hactor, h.call] at hadm
      cases b <;> simp [Call.admits] at hadm
      obtain rfl := hactor
      exact h.readStep hd
    · refine h.db hd ?_ hactor h.noModify rfl
      rintro u e' value rfl
      cases hc : s.call (Act.actor s.db (.update u e' value)) <;> simp [hc, Call.admits] at hadm
  | insertRecord u i' k' value e' =>
    obtain ⟨hpre, hs⟩ := Option.ite_none_right_eq_some.mp hs
    obtain ⟨d, hd, rfl⟩ := Option.map_eq_some_iff.mp hs
    have hu := hready hpre.1
    refine h.db (b := .insert u e' value) hd (fun _ _ _ hb => by cases hb) hu ?_
      (update_of_ne hu.symm ..)
    intro v i'' k'' m e'' hm
    change Function.update s.call u _ v = _ at hm
    rw [update_apply] at hm
    split at hm
    · cases hm
    · exact h.noModify hm
  | insertOid u =>
    simp only [Engine.step] at hs
    split at hs
    · next i' k' value e' hcall =>
      cases hs
      have hu : u ≠ t := by
        rintro rfl
        rw [h.call] at hcall
        cases hcall
      exact (h.insertIfAbsent i' k' e').endCall hu
    · cases hs
  | registerOid u i' k' e' =>
    obtain ⟨-, hs⟩ := Option.ite_none_right_eq_some.mp hs
    cases hs
    exact h.insertIfAbsent i' k' e'
  | getOid u i' k' m => exact absurd rfl (hok u i' k' m)
  | update u =>
    simp only [Engine.step] at hs
    split at hs
    · next hcall => exact absurd hcall h.noModify
    · cases hs
  | getRecord u i' k' =>
    obtain ⟨hpre, hs⟩ := Option.ite_none_right_eq_some.mp hs
    have hu := hready hpre
    split at hs
    · cases hs
      exact h
    · next e' hk =>
      obtain ⟨d, hd, rfl⟩ := Option.map_eq_some_iff.mp hs
      refine h.db (b := .readCall u e') hd (fun _ _ _ hb => by cases hb) hu ?_
        (update_of_ne hu.symm ..)
      intro v i'' k'' m e'' hm
      rcases IndexInv.call_setCall s u (.read i' k' e') v with hsame | hread
      · exact h.noModify (hsame.symm.trans hm)
      · exact absurd (hread.symm.trans hm) (by simp)
  | readReturn u =>
    simp only [Engine.step] at hs
    split at hs
    · cases hs
      exact h.endCall fun hu => hret (by rw [hu])
    · cases hs

end Reading

/-- The version of a committed insert: it is alone in its chain and has its CSN. -/
theorem IndexInv.committed {log : List (Event ι κ)} (h : IndexInv isPrimary log s) {t : XID}
    {i : ι} {k : κ} {value : List UInt8} {e : Entry}
    (hins : .inserted t i k value e .rcTrue ∈ log) (hstate : (s.db.txn t).state = .cmmtd) :
    s.index i k = some e ∧ ∃ p, s.db.entry e = some p ∧ s.db.next p = none ∧
      (s.db.heap p).csn = .generate (s.db.txn t).endCsn ∧
      (s.db.heap p).value = value.take (dataSz value) := by
  obtain ⟨ch, hc⟩ := h.inserted.chain
  obtain ⟨-, hor, p, hw, hv⟩ := h.primary hins
  have hmem := hc.kept ((hc.wf t).isSealed_of_cmmtd hstate) hw
  have hentry : s.db.entry e = some p := by
    have hchain := hc.chain e
    cases he : s.db.entry e with
    | none =>
      rw [he, isChain_none] at hchain
      rw [hchain] at hmem
      cases hmem
    | some q =>
      rw [he] at hchain
      obtain ⟨l, hl, hrest⟩ := isChain_some.mp hchain
      rw [h.single q, isChain_none] at hrest
      rw [hl, hrest, List.mem_singleton] at hmem
      rw [hmem]
  have hcreator : (s.db.heap p).creator = t := (hc.written hw).2.1
  refine ⟨hor.resolve_right (by simp [hentry]), p, hentry, h.single p, ?_, hv⟩
  obtain ⟨-, ⟨-, htodo⟩ | ⟨hcsn, -⟩⟩ := hc.version hmem
  · rw [hcreator, (hc.wf t).todo_of_cmmtd hstate] at htodo
    cases htodo
  · rw [hcsn, hcreator]

section

variable [DecidableEq ι] [DecidableEq κ] {acts : List (EngineAct ι κ)}

theorem indexInv_run (hr : run (step isPrimary) State.init acts = some s)
    (hok : Along (step isPrimary) Registers State.init acts) :
    IndexInv isPrimary (trace (step isPrimary) (emit isPrimary) State.init acts) s := by
  refine run_induction_along (P := fun as m =>
    IndexInv isPrimary (trace (step isPrimary) (emit isPrimary) State.init as) m)
    indexInv_init ?_ hok hr
  intro as m a m' hm hreg hstep h
  rw [trace_snoc hm]
  exact h.step hreg hstep

/-- A later snapshot gets the record, whatever is done but updates while it reads; and if
nobody else runs, four steps are enough. -/
def LaterReads (isPrimary : ι → Bool) (s : State ι κ) (c : ℕ) (i : ι) (k : κ)
    (value : List UInt8) : Prop :=
  ∀ u, c < (s.db.txn u).beginCsn →
    (∀ later s' e r, run (step isPrimary) s (.getRecord u i k :: later) = some s' →
      (∀ a ∈ later, a ≠ .readReturn u ∧ ∀ v i k m, a ≠ .getOid v i k m) →
      (s'.db.txn u).pc = .returned e r →
      s'.readResult r = (if 0 < (value.take (dataSz value)).length then .rcTrue else .rcFalse,
        value.take (dataSz value))) ∧
    (s.ready u → ∃ s' e r, run (step isPrimary) s
      (.getRecord u i k :: List.replicate 3 (.mvcc (.readStep u))) = some s' ∧
        (s'.db.txn u).pc = .returned e r)

/-- Through an index that has the OID, the record is read. -/
theorem laterReads (h : InsertedInv isPrimary s) (hno : ∀ {u i k m e}, s.call u ≠ .modify i k m e)
    {i : ι} {k : κ} {e : Entry} {p : Ptr} {c : ℕ} {value : List UInt8}
    (hk : s.index i k = some e) (hp : s.db.entry e = some p) (hnext : s.db.next p = none)
    (hcsn : (s.db.heap p).csn = .generate c)
    (hv : (s.db.heap p).value = value.take (dataSz value)) :
    LaterReads isPrimary s c i k value := by
  intro u hlt
  have hle : (CSN.make c).offset ≤ (s.db.txn u).beginCsn := by
    rw [CSN.make_offset]
    exact (Nat.mod_le _ _).trans hlt.le
  -- the state after the search of the index
  have start : ∀ {s₁}, step isPrimary s (.getRecord u i k) = some s₁ →
      Reading u i k e p (s.db.heap p) s₁ := by
    intro s₁ hs
    obtain ⟨-, hs⟩ := Option.ite_none_right_eq_some.mp hs
    simp only [hk] at hs
    obtain ⟨d, hd, rfl⟩ := Option.map_eq_some_iff.mp hs
    obtain ⟨ch, hc⟩ := h.chain
    obtain ⟨ch', kept⟩ := hc.move (step_move hd)
    obtain ⟨-, hd⟩ := Option.ite_none_right_eq_some.mp hd
    cases hd
    refine ⟨⟨ch', kept.chainInv⟩, fun {v i' k' m e'} hm => ?_, hp, rfl, hnext, ⟨_, hcsn, ?_⟩,
      update_self .., .inl ?_⟩
    · rcases IndexInv.call_setCall s u (.read i k e) v with hsame | hread
      · exact hno (hsame.symm.trans hm)
      · exact absurd (hread.symm.trans hm) (by simp)
    · simpa using hle
    · simp
  refine ⟨fun later s' e' r hrun hlater hpc => ?_, fun hready => ?_⟩
  · obtain ⟨s₁, hs₁, hrun⟩ := run_cons_eq_some.mp hrun
    have hread : Reading u i k e p (s.db.heap p) s' :=
      run_invariant_along (I := Reading u i k e p (s.db.heap p))
        (fun hok hs h => h.step hs hok.2 hok.1) (along_of_forall hlater s₁) hrun (start hs₁)
    obtain rfl : r = some p := by
      rcases hread.pc with hpc' | hpc' | hpc' | hpc' <;> rw [hpc'] at hpc <;> cases hpc
      rfl
    rw [State.readResult, doTupleRead, hread.heap, hv]
  · have hcall : s.call u = .none ∧ (s.db.txn u).pc.canCall = true := by
      simpa [State.ready] using hready
    have hnext' : (s.db.heap p).nextVolatile = none := hnext
    simp [run, step, hready, hk, PreemptDB.step, hcall.2, PreemptDB.readStep, Db.setTxn, Act.actor,
      Call.admits, hp, Db.next, hnext', testCsn, hcsn, CsnPtr.generate, hle]

/-- **The secondary index.**  In every history: a call of `InsertOID` returns true whenever
every OID registered under the key before has an empty chain, if and only if there is no such
OID; and after a transaction that has inserted a record and registered its OID has committed,
both indexes have the OID, and later snapshots read the record through either. -/
theorem secondary_agrees (hr : run (step isPrimary) State.init acts = some s)
    (hok : Along (step isPrimary) Registers State.init acts) :
    (∀ as bs t i k e m, acts = as ++ .registerOid t i k e :: bs →
      run (step isPrimary) State.init as = some m →
      (((∀ t' e', .registered t' i k e' true ∈
          trace (step isPrimary) (emit isPrimary) State.init as → m.db.entry e' = none) →
        emit isPrimary m (.registerOid t i k e) = [.registered t i k e true]) ↔
      NotStale m (.registerOid t i k e))) ∧
    ∀ t i₁ k₁ value i₂ k₂ e,
      .inserted t i₁ k₁ value e .rcTrue ∈
        trace (step isPrimary) (emit isPrimary) State.init acts →
      .registered t i₂ k₂ e true ∈ trace (step isPrimary) (emit isPrimary) State.init acts →
      (s.db.txn t).state = .cmmtd →
      s.index i₁ k₁ = some e ∧ s.index i₂ k₂ = some e ∧
        LaterReads isPrimary s (s.db.txn t).endCsn i₁ k₁ value ∧
        LaterReads isPrimary s (s.db.txn t).endCsn i₂ k₂ value := by
  constructor
  · rintro as bs t i k e m rfl hm
    have h := indexInv_run hm (hok.append hm).1
    obtain ⟨m₁, hm₁, hrest⟩ := run_append.mp hr
    obtain rfl := Option.some_inj.mp (hm.symm.trans hm₁)
    obtain ⟨m', hm', -⟩ := run_cons_eq_some.mp hrest
    obtain ⟨⟨-, hi⟩, -⟩ := Option.ite_none_right_eq_some.mp hm'
    constructor
    · -- an OID with an empty chain is the only one under the key, and it stays there
      intro hclaim e' he' hempty
      have htrue := hclaim fun t'' e'' hev => by
        obtain ⟨-, he''⟩ := h.secondary hev
        rw [he', Option.some_inj] at he''
        exact he'' ▸ hempty
      simp [emit, State.inserts, he', hi] at htrue
    · -- an OID under the key would have been registered, with a chain that is not empty
      intro hstale hempty
      have hnone : m.index i k = none := by
        rw [Option.eq_none_iff_forall_ne_some]
        intro e' he'
        obtain ⟨t', ht'⟩ := h.registered hi he'
        exact hstale e' he' (hempty t' e' ht')
      rw [emit, State.inserts, hnone]
  · intro t i₁ k₁ value i₂ k₂ e hins hsec hstate
    have h := indexInv_run hr hok
    obtain ⟨hprim, p, hp, hnext, hcsn, hv⟩ := h.committed hins hstate
    obtain ⟨-, hk₂⟩ := h.secondary hsec
    exact ⟨hprim, hk₂, laterReads h.inserted h.noModify hprim hp hnext hcsn hv,
      laterReads h.inserted h.noModify hk₂ hp hnext hcsn hv⟩

end

/-- A transaction inserts a record under 5 and registers it under 7. -/
def registerActs (t : XID) (e : Entry) : List (EngineAct Bool ℕ) :=
  [.mvcc .begin, .insertRecord t true 5 [1] e, .insertOid t, .registerOid t false 7 e]

theorem secondary_agrees_committed :
    ∃ s : State Bool ℕ, run (step id) State.init
        (registerActs 0 roundEntry ++ (commitActs 0).map .mvcc) = some s ∧
      LaterReads id s (s.db.txn 0).endCsn false 7 [1] := by
  have hrun : ((run (step id) State.init
      (registerActs 0 roundEntry ++ (commitActs 0).map .mvcc)).map
        fun s => (s.db.txn 0).state) = some .cmmtd := rfl
  obtain ⟨s, hs, hstate⟩ := Option.map_eq_some_iff.mp hrun
  have hok : Along (step id) Registers (State.init : State Bool ℕ)
      (registerActs 0 roundEntry ++ (commitActs 0).map .mvcc) := by
    refine .cons trivial rfl (.cons trivial rfl (.cons trivial rfl (.cons rfl rfl ?_)))
    refine along_of_forall_mem (fun a ha m => ?_) _
    obtain ⟨b, -, rfl⟩ := List.mem_map.mp ha
    trivial
  have htrace : trace (step id) (emit id) (State.init : State Bool ℕ)
      (registerActs 0 roundEntry ++ (commitActs 0).map .mvcc) =
      [.begun 0, .inserted 0 true 5 [1] roundEntry .rcTrue, .registered 0 false 7 roundEntry true,
        .committed 0] := rfl
  refine ⟨s, hs, ((secondary_agrees hs hok).2 0 true 5 [1] false 7 roundEntry ?_ ?_ hstate).2.2.2⟩
  · rw [htrace]
    simp
  · rw [htrace]
    simp

/-- The first attempt is aborted, and the second one is not registered: the lookup goes on to
find the OID that was taken back. -/
theorem retry_not_registered :
    ∃ m s : State Bool ℕ, run (step id) State.init (registerActs 0 roundEntry ++
        [.mvcc (.abort 0), .mvcc (.unlink 0), .mvcc (.finish 0), .mvcc .begin,
          .insertRecord 1 true 5 [1] ⟨1, 2⟩, .insertOid 1]) = some m ∧
      m.index false 7 = some roundEntry ∧ m.db.entry roundEntry = none ∧
      emit id m (.registerOid 1 false 7 ⟨1, 2⟩) = [.registered 1 false 7 ⟨1, 2⟩ false] ∧
      run (step id) m (.registerOid 1 false 7 ⟨1, 2⟩ :: (commitActs 1).map .mvcc) = some s ∧
      (s.db.txn 1).state = .cmmtd ∧ s.index true 5 = some ⟨1, 2⟩ ∧
      s.index false 7 = some roundEntry ∧ s.db.entry roundEntry = none :=
  ⟨_, _, rfl, rfl, rfl, rfl, rfl, rfl, rfl, rfl, rfl⟩

end Engine

end PreemptDB
