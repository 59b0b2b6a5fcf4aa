/-
Entries without a version.

The entry that `InsertRecord` has made in an index stays when the inserter aborts, and the
array entry is null from then on.  `UpdateRecord` and `RemoveRecord` find the OID all the
same, and `UpdateTuple` dereferences the head.

* `InsertOk` — what became of the first version of an entry;
* `update_finds_head` — `UpdateTuple` finds a version exactly when the inserter has not
  taken it back;
* `empty_head` — an update after an aborted insert.
-/
import PreemptDB.Engine

open LinkedChain
open Function (update_apply update_of_ne update_self)

namespace PreemptDB

section

variable {s s' : Db} {ch : Entry → List Ptr} {e : Entry} {t u : XID}

/-- What became of the first version of `e`, which `u` has inserted: before `u` has its CSN
it is alone, until the loop of `Abort` takes it back. -/
structure InsertOk (s : Db) (e : Entry) (u : XID) : Prop where
  entries : e ∈ (s.txn u).entries
  allocated : s.allocated e = true
  alone : (s.txn u).isSealed = false → e ∈ (s.txn u).todo →
    ∃ p, s.entry e = some p ∧ s.next p = none
  gone : (s.txn u).isSealed = false → e ∉ (s.txn u).todo → s.entry e = none

namespace InsertOk

/-- The head is a later one, or the inserter's. -/
theorem head (h : InsertOk s e u) (hc : ChainInv s ch) {p : Ptr} (hp : s.entry e = some p) :
    (s.txn u).isSealed = true ∨
      (s.heap p).csn = .xid u ∧ s.next p = none ∧ e ∈ (s.txn u).todo := by
  cases hs : (s.txn u).isSealed with
  | true => exact .inl rfl
  | false =>
    right
    by_cases htodo : e ∈ (s.txn u).todo
    · obtain ⟨q, hq, hnext⟩ := h.alone hs htodo
      obtain ⟨q', hq', hcsn⟩ := hc.dirty htodo
      rw [hp, Option.some_inj] at hq hq'
      subst hq hq'
      exact ⟨hcsn, hnext, htodo⟩
    · rw [h.gone hs htodo] at hp
      cases hp

theorem congr (h : InsertOk s e u) (hentries : (s'.txn u).entries = (s.txn u).entries)
    (htodo : e ∈ (s'.txn u).todo ↔ e ∈ (s.txn u).todo)
    (hsealed : (s'.txn u).isSealed = false → (s.txn u).isSealed = false)
    (halloc : s'.allocated e = s.allocated e) (hentry : s'.entry e = s.entry e)
    (hnext : ∀ p, s.entry e = some p → s'.next p = s.next p) : InsertOk s' e u where
  entries := hentries ▸ h.entries
  allocated := halloc.trans h.allocated
  alone hs ht := by
    obtain ⟨p, hp, hn⟩ := h.alone (hsealed hs) (htodo.mp ht)
    exact ⟨p, hentry.trans hp, (hnext p hp).trans hn⟩
  gone hs ht := hentry.trans (h.gone (hsealed hs) fun hin => ht (htodo.mpr hin))

/-- A step of one transaction that leaves the chains alone. -/
theorem retxn (h : InsertOk s e u) {T : Txn} (htxn : s'.txn = Function.update s.txn t T)
    (halloc : s'.allocated = s.allocated) (hentry : s'.entry = s.entry) (hnext : s'.next = s.next)
    (hentries : T.entries = (s.txn t).entries) (hidx : T.idx = (s.txn t).idx)
    (hsealed : T.isSealed = false → (s.txn t).isSealed = false) : InsertOk s' e u := by
  have hall : (s'.txn u).entries = (s.txn u).entries ∧ (s'.txn u).todo = (s.txn u).todo ∧
      ((s'.txn u).isSealed = false → (s.txn u).isSealed = false) := by
    rw [htxn, update_apply]
    split
    · next hu =>
      subst hu
      exact ⟨hentries, by rw [Txn.todo, hentries, hidx, Txn.todo], hsealed⟩
    · exact ⟨rfl, rfl, id⟩
  exact h.congr hall.1 (by rw [hall.2.1]) hall.2.2 (by rw [halloc]) (by rw [hentry])
    fun p _ => by rw [hnext]

/-- A new head of another entry. -/
theorem link_ne (h : InsertOk s e u) (hc : ChainInv s ch) {e' : Entry} {T : Txn} {o : Object}
    {l : List Ptr} (k : Linking s ch t e' T o l) (hne : e ≠ e') :
    InsertOk ((s.link e' o).setTxn t T) e u := by
  have hnext : ∀ p, s.entry e = some p → ((s.link e' o).setTxn t T).next p = s.next p := by
    intro p hp
    obtain ⟨l', hl, -⟩ := hc.mem_of_entry hp
    exact Linking.next_old (hc.member (hl ▸ List.mem_cons_self)).1
  have hentry : ((s.link e' o).setTxn t T).entry e = s.entry e := by
    simp [update_of_ne hne]
  have halloc : ((s.link e' o).setTxn t T).allocated e = s.allocated e := by
    simp [update_of_ne hne]
  by_cases hu : u = t
  · subst hu
    have hmem : e ∈ T.entries ↔ e ∈ (s.txn u).entries := by
      rw [k.mem]
      exact or_iff_left hne
    have htodo : e ∈ T.todo ↔ e ∈ (s.txn u).todo := by
      rw [k.todo_new hc, k.todo_old hc, hmem]
    have htxn : ((s.link e' o).setTxn u T).txn u = T := update_self ..
    refine ⟨?_, halloc.trans h.allocated, fun hs ht => ?_, fun hs ht => ?_⟩
    · rw [htxn]
      exact hmem.mpr h.entries
    · rw [htxn] at hs ht
      obtain ⟨p, hp, hn⟩ := h.alone (k.isSealed ▸ hs) (htodo.mp ht)
      exact ⟨p, hentry.trans hp, (hnext p hp).trans hn⟩
    · rw [htxn] at hs ht
      exact hentry.trans (h.gone (k.isSealed ▸ hs) fun hin => ht (htodo.mpr hin))
  · have htxn : ((s.link e' o).setTxn t T).txn u = s.txn u := update_of_ne hu ..
    exact h.congr (by rw [htxn]) (by rw [htxn]) (by rw [htxn]; exact id) halloc hentry hnext

/-- A new head of the entry, by somebody else than an inserter that has not committed. -/
theorem link_sealed (h : InsertOk s e u) (hc : ChainInv s ch) {T : Txn} {o : Object}
    {l : List Ptr} (k : Linking s ch t e T o l) (hs : (s.txn u).isSealed = true) :
    InsertOk ((s.link e o).setTxn t T) e u := by
  have htxn : ((s.link e o).setTxn t T).txn u = s.txn u :=
    update_of_ne (k.ne_of_sealed hc hs) ..
  refine ⟨by rw [htxn]; exact h.entries, by simp, fun hn => ?_, fun hn => ?_⟩
  all_goals
    rw [htxn, hs] at hn
    cases hn

/-- Every move but an insert keeps what became of the first version. -/
theorem move (h : InsertOk s e u) (hc : ChainInv s ch) (m : Move s s')
    (halloc : s'.allocated = s.allocated) : InsertOk s' e u := by
  cases m with
  | stay t T hpc hsame hwf =>
    exact h.retxn rfl rfl rfl rfl hsame.entries hsame.idx fun hs => hsame.isSealed ▸ hs
  | begin =>
    have hun := hc.unborn s.nextXid le_rfl
    exact h.retxn rfl rfl rfl rfl (by rw [hun]; rfl) (by rw [hun]; rfl) fun _ => by rw [hun]; rfl
  | insert t w n o hcall hfree ho =>
    have htrue : s.allocated w.entry = true := by
      rw [← halloc]
      simp
    rw [hfree] at htrue
    cases htrue
  | install t w n o q hcall hq hcsn ho =>
    have hst := (hc.stamped_of_install hq hcsn).2
    have k := hc.linking_first (n := n) hcall hst ⟨ho.1, ho.2.1, ho.2.2.1, by rw [hq, ho.2.2.2]⟩
    by_cases hee : e = w.entry
    · subst hee
      rcases h.head hc hq with hs | ⟨hx, -⟩
      · exact h.link_sealed hc k hs
      · -- the inserter's own version is not stamped
        obtain ⟨l, hl, -⟩ := hc.mem_of_entry hq
        obtain ⟨c, hcs⟩ := hst q (hl ▸ List.mem_cons_self)
        rw [hx] at hcs
        cases hcs
    · exact h.link_ne hc k hee
  | overwrite t e' o q hcall hq hcsn ho =>
    obtain ⟨l, hl, k⟩ := hc.linking_overwrite hcall hq hcsn ho
    by_cases hee : e = e'
    · subst hee
      rcases h.head hc hq with hs | ⟨hx, hnext, htodo⟩
      · exact h.link_sealed hc k hs
      · obtain rfl : t = u := by
          rw [hcsn, CsnPtr.xid.injEq] at hx
          exact hx
        have htxn : ((s.link e o).setTxn t ((s.txn t).wrote e s.nextPtr)).txn t
            = (s.txn t).wrote e s.nextPtr := update_self ..
        refine ⟨by rw [htxn]; exact h.entries, by simp, fun _ _ => ?_, fun _ ht => ?_⟩
        · refine ⟨s.nextPtr, by simp, ?_⟩
          rw [Linking.next_new, ho.2.2.2, hnext]
        · rw [htxn] at ht
          exact absurd htodo ht
    · exact h.link_ne hc k hee
  | drawReadOnly _ _ _ | draw _ _ _ => exact h.retxn rfl rfl rfl rfl rfl rfl fun hs => by cases hs
  | stamp t w p d lb hpc hw hp =>
    obtain ⟨l, k⟩ := hc.handling_stamp d lb hpc hw hp
    have hsealed := (hc.wf t).2
    rw [hpc] at hsealed
    obtain ⟨hent, -, hs, -⟩ := k.txn_fields u
    by_cases hu : u = t
    · subst hu
      -- the inserter has its CSN
      refine ⟨hent ▸ h.entries, h.allocated, fun hn => ?_, fun hn => ?_⟩
      all_goals
        rw [hs, hsealed.2] at hn
        cases hn
    · exact h.congr hent (by rw [k.todo_of_ne hu]) (fun hn => hs ▸ hn) rfl rfl
        fun q _ => by rw [k.next]
  | unlink t w p hpc hw hp =>
    obtain ⟨l, k⟩ := hc.handling_unlink hpc hw hp
    obtain ⟨hent, -, hs, -⟩ := k.txn_fields u
    by_cases hee : e = w.entry
    · subst hee
      rcases h.head hc hp with hsealed | ⟨hx, hnext, -⟩
      · refine ⟨hent ▸ h.entries, h.allocated, fun hn => ?_, fun hn => ?_⟩
        all_goals
          rw [hs, hsealed] at hn
          cases hn
      · obtain rfl : t = u := by
          have hx' := (k.head_dirty hc).1
          rw [hx, CsnPtr.xid.injEq] at hx'
          exact hx'.symm
        refine ⟨hent ▸ h.entries, h.allocated, fun _ ht => ?_, fun _ _ => ?_⟩
        · exact absurd ht (k.not_mem_todo hc)
        · show Function.update s.entry w.entry (s.next p) w.entry = none
          rw [update_self, hnext]
    · refine h.congr hent ?_ (fun hn => hs ▸ hn) rfl ?_ fun q _ => by rw [k.next]
      · by_cases hu : u = t
        · subst hu
          rw [k.todo_self, List.mem_cons]
          exact (or_iff_right hee).symm
        · rw [k.todo_of_ne hu]
      · exact update_of_ne hee ..

/-- The entry has no version exactly after the inserter's abort has unlinked it. -/
theorem entry_eq_none (h : InsertOk s e u) (hc : ChainInv s ch) :
    s.entry e = none ↔ (s.txn u).state = .abrtd ∧ e ∉ (s.txn u).todo := by
  constructor
  · intro hnone
    have htodo : e ∉ (s.txn u).todo := by
      intro htodo
      obtain ⟨p, hp, -⟩ := hc.dirty htodo
      rw [hnone] at hp
      cases hp
    have hns : (s.txn u).isSealed = false := by
      by_contra hs
      obtain ⟨p, hw⟩ := hc.entries.mpr h.entries
      have hmem := hc.kept (Bool.eq_true_of_not_eq_false hs) hw
      have hchain := hc.chain e
      rw [hnone, isChain_none] at hchain
      rw [hchain] at hmem
      cases hmem
    refine ⟨?_, htodo⟩
    -- what has been handled without a CSN has been handled by an abort
    by_contra hstate
    have hidx : (s.txn u).idx = 0 := by
      have hwf := (hc.wf u).2
      revert hwf
      cases (s.txn u).pc <;> simp +contextual [hns, hstate]
    rw [Txn.todo, hidx, List.drop_zero] at htodo
    exact htodo h.entries
  · rintro ⟨hstate, htodo⟩
    refine h.gone ?_ htodo
    by_contra hs
    rcases (hc.wf u).state_of_sealed (Bool.eq_true_of_not_eq_false hs) with h | h
    all_goals
      rw [hstate] at h
      cases h

end InsertOk

/-- Only an insert hands out an OID. -/
theorem step_allocated {a : Act} (hc : ChainInv s ch) (hs : step s a = some s')
    (ha : ∀ t e value, a ≠ .insert t e value) : s'.allocated = s.allocated := by
  have link : ∀ {e' : Entry} {q : Ptr}, s.entry e' = some q →
      Function.update s.allocated e' true = s.allocated := by
    intro e' q hq
    refine Function.update_eq_self_iff.mpr ?_
    by_contra hne
    rw [hc.free e' (Bool.eq_false_iff.mpr fun h => hne h.symm)] at hq
    cases hq
  cases a with
  | insert t e value => exact absurd rfl (ha t e value)
  | update t e value =>
    have hsound := updateDecision_sound (s := s) (t := t) (e := e)
    simp only [step, update] at hs
    split_ifs at hs
    split at hs
    · cases hs
    · cases hs
      rfl
    · next q hd =>
      rw [hd] at hsound
      cases hs
      exact link hsound.1
    · next q hd =>
      rw [hd] at hsound
      obtain ⟨T, -, rfl⟩ := Option.map_eq_some_iff.mp hs
      exact link hsound.1
  | readStep t =>
    obtain ⟨pc, rfl, -⟩ := readStep_goto hs
    rfl
  | stamp t beyond =>
    revert hs
    simp only [step]
    fun_cases stamp s t beyond <;> rintro ⟨⟩
    rfl
  | unlink t =>
    revert hs
    simp only [step]
    fun_cases unlink s t <;> rintro ⟨⟩
    rfl
  | begin | readCall | commit | phantom | abort | finish | drawCsn | allocBlock | publish =>
    simp only [step, drawCsn, allocBlock, publish] at hs
    first
      | cases hs; rfl
      | split_ifs at hs <;> cases hs <;> rfl

theorem insertOk_insert {value : List UInt8} (hc : ChainInv s ch)
    (hs : insert s t e value = some s') :
    InsertOk s' e t ∧ ∀ {e' u}, e' ≠ e → InsertOk s e' u → InsertOk s' e' u := by
  rw [insert] at hs
  split_ifs at hs with hg
  obtain ⟨T, hT, rfl⟩ := Option.map_eq_some_iff.mp hs
  rw [Txn.addToWriteSet] at hT
  split_ifs at hT
  cases hT
  obtain ⟨w, hw⟩ : ∃ w : WriteRecord,
      w = ⟨e, (dataSz value + sizeofDbtuple) % 2 ^ 32, true⟩ := ⟨_, rfl⟩
  have hwe : w.entry = e := by rw [hw]
  have k := hc.linking_first (w := w) (o := Object.create t e value none FatPtr.null)
    (n := ((s.txn t).logSize + logrecSize (dataSz value + sizeofDbtuple)) % 2 ^ 32) hg.1
    (hc.stamped_of_free (hwe ▸ hg.2.1))
    ⟨rfl, hwe.symm, rfl, (hc.free _ (hwe ▸ hg.2.1)).symm⟩
  rw [hw] at k
  refine ⟨?_, fun hne h => h.link_ne hc k hne⟩
  have htodo := k.todo_new hc
  refine ⟨?_, by simp, fun _ _ => ⟨s.nextPtr, by simp, Linking.next_new⟩, fun _ ht => absurd ?_ ht⟩
  · rw [Db.setTxn_txn, update_self]
    exact (k.mem e).mpr (.inr rfl)
  · rw [Db.setTxn_txn, update_self]
    exact htodo ▸ (k.mem e).mpr (.inr rfl)

end

namespace Engine

open StepRun

variable {ι κ : Type} {isPrimary : ι → Bool} {s s' : State ι κ} {a : EngineAct ι κ}

/-- The OID that a call has in hand. -/
def Call.oid? : Call ι κ → Option Entry
  | .insertOid _ _ _ e | .modify _ _ _ e => some e
  | .none | .read _ _ _ => Option.none

/-- Every OID in a primary index, and every OID on its way, has been inserted by somebody. -/
structure InsertedInv (isPrimary : ι → Bool) (s : State ι κ) : Prop where
  chain : ∃ ch, ChainInv s.db ch
  inserted : ∀ {e u}, s.inserter e = some u → InsertOk s.db e u
  index : ∀ {i k e}, isPrimary i = true → s.index i k = some e → ∃ u, s.inserter e = some u
  call : ∀ {t e}, (s.call t).oid? = some e → ∃ u, s.inserter e = some u

theorem insertedInv_init : InsertedInv isPrimary (State.init : State ι κ) where
  chain := ⟨_, chainInv_init⟩
  inserted h := by cases h
  index _ h := by cases h
  call h := by cases h

namespace InsertedInv

/-- A step of the database that is not an insert. -/
theorem db (h : InsertedInv isPrimary s) {b : Act} {d : Db} (hb : PreemptDB.step s.db b = some d)
    (hins : ∀ t e value, b ≠ .insert t e value) :
    (∃ ch, ChainInv d ch) ∧ ∀ {e u}, s.inserter e = some u → InsertOk d e u := by
  obtain ⟨ch, hc⟩ := h.chain
  obtain ⟨ch', k⟩ := hc.move (step_move hb)
  exact ⟨⟨ch', k.chainInv⟩, fun hu =>
    (h.inserted hu).move hc (step_move hb) (step_allocated hc hb hins)⟩

/-- A call that ends, or one for an OID that somebody has inserted. -/
theorem setCall (h : InsertedInv isPrimary s) (t : XID) {c : Call ι κ}
    (hc : ∀ e, c.oid? = some e → ∃ u, s.inserter e = some u) :
    ∀ {t' e}, (Function.update s.call t c t').oid? = some e → ∃ u, s.inserter e = some u := by
  intro t' e he
  rw [update_apply] at he
  split at he
  · exact hc e he
  · exact h.call he

variable [DecidableEq ι] [DecidableEq κ]

theorem insertIfAbsent (h : InsertedInv isPrimary s) (i : ι) (k : κ) {e : Entry}
    (he : isPrimary i = true → ∃ u, s.inserter e = some u) :
    InsertedInv isPrimary (s.insertIfAbsent isPrimary i k e) := by
  rw [State.insertIfAbsent]
  split
  · refine ⟨h.chain, h.inserted, ?_, h.call⟩
    intro i' k' e' hi' he'
    change Function.update s.index i (Function.update (s.index i) k (some e)) i' k' = some e' at he'
    by_cases hi : i' = i
    · subst hi
      rw [update_self, update_apply] at he'
      split at he'
      · cases he'
        exact he hi'
      · exact h.index hi' he'
    · rw [update_of_ne hi] at he'
      exact h.index hi' he'
  · exact h

theorem step (h : InsertedInv isPrimary s) (hs : Engine.step isPrimary s a = some s') :
    InsertedInv isPrimary s' := by
  cases a with
  | mvcc a =>
    obtain ⟨hadm, hs⟩ := Option.ite_none_right_eq_some.mp hs
    obtain ⟨d, hd, rfl⟩ := Option.map_eq_some_iff.mp hs
    obtain ⟨hchain, hins⟩ := h.db hd fun t e value ha => by
      subst ha
      cases hc : s.call (Act.actor s.db (.insert t e value)) <;>
        simp [hc, Call.admits] at hadm
    exact ⟨hchain, hins, h.index, h.call⟩
  | insertRecord t i k value e =>
    obtain ⟨-, hs⟩ := Option.ite_none_right_eq_some.mp hs
    obtain ⟨d, hd, rfl⟩ := Option.map_eq_some_iff.mp hs
    obtain ⟨ch, hc⟩ := h.chain
    obtain ⟨ch', k'⟩ := hc.move (insert_move hd)
    obtain ⟨hnew, hold⟩ := insertOk_insert hc hd
    -- OIDs with a transaction that inserted them keep one
    have known : ∀ {e'}, (∃ u, s.inserter e' = some u) →
        ∃ u, Function.update s.inserter e (some t) e' = some u := by
      rintro e' ⟨u, hu⟩
      rw [update_apply]
      split
      · exact ⟨t, rfl⟩
      · exact ⟨u, hu⟩
    refine ⟨⟨ch', k'.chainInv⟩, ?_, fun hi he => known (h.index hi he), ?_⟩
    · intro e' u hu
      change Function.update s.inserter e (some t) e' = some u at hu
      rw [update_apply] at hu
      split at hu
      · next he =>
        cases hu
        exact he ▸ hnew
      · next he => exact hold he (h.inserted hu)
    · intro t' e' he'
      change (Function.update s.call t (.insertOid i k value e) t').oid? = some e' at he'
      rw [update_apply] at he'
      split at he'
      · cases he'
        exact ⟨t, update_self ..⟩
      · exact known (h.call he')
  | insertOid t =>
    simp only [Engine.step] at hs
    split at hs
    · next i k value e hcall =>
      cases hs
      have h' := h.insertIfAbsent i k fun _ => h.call (t := t) (by rw [hcall]; rfl)
      exact ⟨h'.chain, h'.inserted, h'.index, h'.setCall t fun e he => by cases he⟩
    · cases hs
  | registerOid t i k e =>
    obtain ⟨⟨-, hi⟩, hs⟩ := Option.ite_none_right_eq_some.mp hs
    cases hs
    exact h.insertIfAbsent i k fun hi' => by rw [hi] at hi'; cases hi'
  | getOid t i k m =>
    obtain ⟨⟨-, hi⟩, hs⟩ := Option.ite_none_right_eq_some.mp hs
    split at hs
    · cases hs
      exact h
    · next e he =>
      cases hs
      refine ⟨h.chain, h.inserted, h.index, h.setCall t fun e' he' => ?_⟩
      cases he'
      exact h.index hi he
  | update t =>
    simp only [Engine.step] at hs
    split at hs
    · next i k m e hcall =>
      obtain ⟨d, hd, rfl⟩ := Option.map_eq_some_iff.mp hs
      obtain ⟨hchain, hins⟩ := h.db (b := .update t e m.value) hd fun _ _ _ ha => by cases ha
      exact ⟨hchain, hins, h.index, h.setCall t fun e he => by cases he⟩
    · cases hs
  | getRecord t i k =>
    obtain ⟨-, hs⟩ := Option.ite_none_right_eq_some.mp hs
    split at hs
    · cases hs
      exact h
    · obtain ⟨d, hd, rfl⟩ := Option.map_eq_some_iff.mp hs
      obtain ⟨hchain, hins⟩ := h.db hd fun _ _ _ ha => by cases ha
      exact ⟨hchain, hins, h.index, h.setCall t fun e he => by cases he⟩
  | readReturn t =>
    simp only [Engine.step] at hs
    split at hs
    · cases hs
      exact ⟨h.chain, h.inserted, h.index, h.setCall t fun e he => by cases he⟩
    · cases hs

end InsertedInv

variable [DecidableEq ι] [DecidableEq κ]

/-- The abort of the inserter has unlinked the first version of the entry. -/
def State.TakenBack (s : State ι κ) (e : Entry) : Prop :=
  ∃ u, s.inserter e = some u ∧ (s.db.txn u).state = .abrtd ∧ e ∉ (s.db.txn u).todo

/-- **Heads of chains.**  Whenever `UpdateRecord` or `RemoveRecord` has found an OID,
`UpdateTuple` finds a version at its head exactly if the insert has not been taken back. -/
theorem update_finds_head {acts : List (EngineAct ι κ)} {t : XID} {i : ι} {k : κ}
    {m : Modification} {e : Entry} (hr : run (step isPrimary) State.init acts = some s)
    (hcall : s.call t = .modify i k m e) :
    (∃ p, s.db.entry e = some p) ↔ ¬ s.TakenBack e := by
  have h : InsertedInv isPrimary s :=
    run_invariant (I := InsertedInv isPrimary) (fun hs h => h.step hs) hr insertedInv_init
  obtain ⟨ch, hc⟩ := h.chain
  obtain ⟨u, hu⟩ := h.call (t := t) (e := e) (by rw [hcall]; rfl)
  have hnone := (h.inserted hu).entry_eq_none hc
  have htaken : s.TakenBack e ↔ s.db.entry e = none := by
    constructor
    · rintro ⟨u', hu', hstate, htodo⟩
      rw [hu, Option.some_inj] at hu'
      subst hu'
      exact hnone.mpr ⟨hstate, htodo⟩
    · intro he
      exact ⟨u, hu, hnone.mp he⟩
  rw [htaken, ← Option.ne_none_iff_exists']

/-- A transaction updates the record that it has just inserted. -/
def updateOwnActs : List (EngineAct Unit ℕ) :=
  [.mvcc .begin, .insertRecord 0 () 5 [1] roundEntry, .insertOid 0, .getOid 0 () 5 (.update [2])]

theorem update_finds_head_own :
    ∃ s, run (step fun _ => true) State.init updateOwnActs = some s ∧
      s.call 0 = .modify () 5 (.update [2]) roundEntry ∧
      ((∃ p, s.db.entry roundEntry = some p) ↔ ¬ s.TakenBack roundEntry) := by
  have hrun : (run (step fun _ => true) State.init updateOwnActs).map (fun s => s.call 0)
      = some (.modify () 5 (.update [2]) roundEntry) := rfl
  obtain ⟨s, hr, hcall⟩ := Option.map_eq_some_iff.mp hrun
  exact ⟨s, hr, hcall, update_finds_head hr hcall⟩

/-- The only insert of a key is aborted; a later update finds the OID, but no version, and
does not return. -/
theorem empty_head :
    ∃ s : State Unit ℕ, run (step fun _ => true) State.init
        [.mvcc .begin, .insertRecord 0 () 5 [1] roundEntry, .insertOid 0, .mvcc (.abort 0),
          .mvcc (.unlink 0), .mvcc (.finish 0), .mvcc .begin, .getOid 1 () 5 (.update [2])]
        = some s ∧
      s.call 1 = .modify () 5 (.update [2]) roundEntry ∧ s.db.entry roundEntry = none ∧
      (step (fun _ => true) s (.update 1)).isNone :=
  ⟨_, rfl, rfl, rfl, rfl⟩

end Engine

end PreemptDB
