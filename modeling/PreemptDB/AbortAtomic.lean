/-
Abort atomicity.

`Abort` pops whatever is at the head of each entry of the write set.  That this
restores the head from before the transaction's first write follows from what
happens to a dirty head between the two: it can only be replaced by its own
transaction, and the replacement keeps the next pointer (`dirty_next_step`).

* `firstWrite_of_dirty` — below a dirty head is the head of the first write;
* `unlinked_of_aborting` — the loop unlinks the write set in order;
* `abort_atomic` — what an abort does, from its call to its return.
-/
import PreemptDB.VersionChain

open LinkedChain StepRun
open Function (update_of_ne update_self)

namespace PreemptDB

section

variable {s s' : Db} {ch : Entry → List Ptr} {t : XID} {e : Entry}

/-- While an entry is still to be handled, the version below its head stays. -/
theorem dirty_next_step (h : ChainInv s ch) (m : Move s s') (he : e ∈ (s.txn t).todo)
    (he' : e ∈ (s'.txn t).todo) :
    ∃ p p', s.entry e = some p ∧ s'.entry e = some p' ∧ s'.next p' = s.next p := by
  obtain ⟨p, l, hp, hl, -, hx, -⟩ := h.dirty_head he
  have hmem : p ∈ ch e := hl ▸ List.mem_cons_self
  refine ⟨p, ?_⟩
  -- a new version in another entry changes nothing here
  have hother : ∀ {e₁ : Entry} {o : Object} {T : Txn} {u : XID}, e ≠ e₁ →
      ∃ p', s.entry e = some p ∧ ((s.link e₁ o).setTxn u T).entry e = some p' ∧
        ((s.link e₁ o).setTxn u T).next p' = s.next p := by
    intro e₁ o T u hne
    refine ⟨p, hp, ?_, Linking.next_old (h.member hmem).1⟩
    rw [Db.setTxn_entry, Db.link_entry, update_of_ne hne, hp]
  cases m with
  | stay | begin | drawReadOnly | draw => exact ⟨p, hp, hp, rfl⟩
  | insert u w n o hcall hfree ho =>
    refine hother ?_
    rintro rfl
    rw [h.free _ hfree] at hp
    cases hp
  | install u w n o q hcall hq hcsn ho =>
    refine hother ?_
    rintro rfl
    obtain ⟨c, hc⟩ := (h.stamped_of_install hq hcsn).2 p hmem
    rw [hx] at hc
    cases hc
  | overwrite u e₁ o q hcall hq hcsn ho =>
    by_cases hee : e = e₁
    · subst hee
      rw [hp, Option.some_inj] at hq
      subst hq
      exact ⟨s.nextPtr, hp, update_self .., Linking.next_new.trans ho.2.2.2⟩
    · exact hother hee
  | stamp u w q d lb hpc hw hq =>
    obtain ⟨l', k⟩ := h.handling_stamp d lb hpc hw hq
    exact ⟨p, hp, hp, congrFun k.next p⟩
  | unlink u w q hpc hw hq =>
    obtain ⟨l', k⟩ := h.handling_unlink hpc hw hq
    have hee : e ≠ w.entry := by
      rintro rfl
      rw [hp, Option.some_inj] at hq
      subst hq
      have hut := (k.head_dirty h).1
      rw [hx, CsnPtr.xid.injEq] at hut
      subst hut
      exact k.not_mem_todo h he'
    exact ⟨p, hp, (update_of_ne hee _ _).trans hp, congrFun k.next p⟩

/-- An entry joins the to-do list with the transaction's first write to it, on
top of stamped versions. -/
theorem first_write_step (h : ChainInv s ch) (m : Move s s') (he : e ∉ (s.txn t).todo)
    (he' : e ∈ (s'.txn t).todo) :
    e ∉ (s.txn t).entries ∧ e ∈ (s'.txn t).entries ∧
      (∃ p', s'.entry e = some p' ∧ s'.next p' = s.entry e) ∧ ∀ q ∈ ch e, s.Stamped q := by
  have hold : ∀ {u : XID} {T : Txn}, s'.txn = Function.update s.txn u T →
      (∀ e', e' ∈ T.todo → e' ∈ (s.txn u).todo) → False := by
    intro u T htxn hsub
    rw [htxn, Function.update_apply] at he'
    split at he'
    · rename_i hu
      subst hu
      exact he (hsub e he')
    · exact he he'
  have hlink : ∀ {w : WriteRecord} {n : ℕ} {o : Object} {u : XID},
      (s.txn u).pc.canCall → o.nextVolatile = s.entry w.entry →
      s' = (s.link w.entry o).setTxn u ((s.txn u).firstWrite w n s.nextPtr) →
      (∀ q ∈ ch w.entry, s.Stamped q) →
      e ∉ (s.txn t).entries ∧ e ∈ (s'.txn t).entries ∧
        (∃ p', s'.entry e = some p' ∧ s'.next p' = s.entry e) ∧ ∀ q ∈ ch e, s.Stamped q := by
    rintro w n o u hcall hn rfl hst
    have htodo := (h.wf u).todo_eq_entries hcall
    have hut : t = u := by
      by_contra hne
      rw [Db.setTxn_txn, update_of_ne hne] at he'
      exact he he'
    subst hut
    have hent := Txn.mem_entries_of_mem_todo he'
    have hwe : e = w.entry := by
      rw [Db.setTxn_txn, update_self, Txn.entries, Txn.firstWrite, List.map_append,
        List.mem_append] at hent
      rcases hent with hin | hin
      · rw [htodo] at he
        exact absurd hin he
      · simpa using hin
    subst hwe
    refine ⟨htodo ▸ he, hent, ⟨s.nextPtr, update_self .., ?_⟩, hst⟩
    rw [Linking.next_new, hn]
  cases m with
  | stay u T hpc hT hwf => exact (hold rfl fun e' => by rw [hT.todo]; exact id).elim
  | begin => exact (hold rfl fun e' hin => by cases hin).elim
  | insert u w n o hcall hfree ho =>
    exact hlink hcall (by rw [ho.2.2.2, h.free _ hfree]) rfl (h.stamped_of_free hfree)
  | install u w n o q hcall hq hcsn ho =>
    exact hlink hcall (by rw [ho.2.2.2, hq]) rfl (h.stamped_of_install hq hcsn).2
  | overwrite _ _ _ _ _ _ _ _ | drawReadOnly _ _ _ | draw _ _ _ =>
    exact (hold rfl fun e' hin => hin).elim
  | stamp _ _ _ _ _ _ hw _ | unlink _ _ _ _ hw _ =>
    refine (hold rfl fun e' hin => ?_).elim
    rw [Txn.todo_eq_cons hw]
    exact List.mem_cons_of_mem _ hin

end

/-- The state `s₀` and the action `a₀` of transaction `t`'s first write to `e` in
a run. -/
structure FirstWrite (acts : List Act) (t : XID) (e : Entry) (s₀ : Db) (a₀ : Act) : Prop where
  split : ∃ acts₀ acts₁ s₁, acts = acts₀ ++ a₀ :: acts₁ ∧ Reached acts₀ s₀ ∧
    step s₀ a₀ = some s₁ ∧ e ∈ (s₁.txn t).entries
  fresh : e ∉ (s₀.txn t).entries

theorem FirstWrite.snoc {acts : List Act} {t : XID} {e : Entry} {s₀ : Db} {a₀ a : Act}
    (h : FirstWrite acts t e s₀ a₀) : FirstWrite (acts ++ [a]) t e s₀ a₀ := by
  obtain ⟨⟨acts₀, acts₁, s₁, rfl, h₀, h₁, he⟩, hf⟩ := h
  exact ⟨⟨acts₀, acts₁ ++ [a], s₁, by simp, h₀, h₁, he⟩, hf⟩

/-- Below the head of an entry that a transaction has still to handle is the
head from before its first write, which was committed. -/
theorem firstWrite_of_dirty {acts : List Act} {s : Db} (hr : Reached acts s) :
    ∀ {t : XID} {e : Entry}, e ∈ (s.txn t).todo →
      ∃ s₀ a₀ p l, FirstWrite acts t e s₀ a₀ ∧ s.entry e = some p ∧ s.next p = s₀.entry e ∧
        IsChain s₀.next (s₀.entry e) l ∧ (∀ q ∈ l, s₀.Stamped q) ∧ Grows s₀ s := by
  refine run_induction (P := fun acts s => ∀ {t : XID} {e : Entry}, e ∈ (s.txn t).todo →
      ∃ s₀ a₀ p l, FirstWrite acts t e s₀ a₀ ∧ s.entry e = some p ∧ s.next p = s₀.entry e ∧
        IsChain s₀.next (s₀.entry e) l ∧ (∀ q ∈ l, s₀.Stamped q) ∧ Grows s₀ s) ?_ ?_ hr
  · intro t e he
    cases he
  · intro acts m a m' hrm hs ih t e he'
    obtain ⟨ch, h, -⟩ := reached_inv hrm
    have hmove := step_move hs
    obtain ⟨ch', k⟩ := h.move hmove
    by_cases he : e ∈ (m.txn t).todo
    · obtain ⟨s₀, a₀, p, l, hfw, hp, hn, hc, hst, g⟩ := ih he
      obtain ⟨q, p', hq, hp', hn'⟩ := dirty_next_step h hmove he he'
      rw [hp, Option.some_inj] at hq
      subst hq
      exact ⟨s₀, a₀, p', l, hfw.snoc, hp', hn'.trans hn, hc, hst, g.trans k.grows⟩
    · obtain ⟨hf, hin, ⟨p', hp', hn'⟩, hst⟩ := first_write_step h hmove he he'
      exact ⟨m, a, p', ch e, ⟨⟨acts, [], m', rfl, hrm, hs, hin⟩, hf⟩, hp', hn', h.chain e, hst,
        k.grows⟩

/-! ### The loop of `Abort` -/

/-- The entry that an action of `t` unlinks. -/
def unlinkedEntry (t : XID) (s : Db) : Act → List Entry
  | .unlink u => if u = t then (((s.txn t).writeSet[(s.txn t).idx]?).map (·.entry)).toList else []
  | _ => []

theorem unlinkedEntry_of_ne {t : XID} {s : Db} {a : Act} (h : a.actor s ≠ t) :
    unlinkedEntry t s a = [] := by
  cases a <;> simp only [unlinkedEntry]
  exact if_neg h

/-- In the loop a transaction can only unlink, and release its XID at the end. -/
theorem act_of_aborting {s s' : Db} {a : Act} {t : XID} (hs : step s a = some s')
    (hpc : (s.txn t).pc = .aborting) (hlt : t < s.nextXid) (ha : a.actor s = t) :
    a = .unlink t ∨ a = .finish t := by
  cases a with
  | begin => exact absurd ha (Nat.ne_of_gt hlt)
  | unlink u => exact .inl (congrArg _ ha)
  | finish u => exact .inr (congrArg _ ha)
  | _ =>
    simp only [Act.actor] at ha
    subst ha
    simp [step, insert, update, readStep, drawCsn, allocBlock, stamp, publish, hpc,
      Pc.canCall] at hs

/-- Only the constructor opens a transaction. -/
theorem finished_step_of_ne_begin {s s' : Db} {a : Act} {t : XID} (hs : step s a = some s')
    (hpc : (s.txn t).pc = .finished) (hb : a ≠ .begin) : (s'.txn t).pc = .finished := by
  have ha : a.actor s ≠ t := by
    intro ha
    cases a with
    | begin => exact hb rfl
    | _ =>
      simp only [Act.actor] at ha
      subst ha
      simp [step, insert, update, readStep, drawCsn, allocBlock, stamp, publish, unlink, hpc,
        Pc.canCall] at hs
  obtain ⟨T, htxn, -⟩ := step_txn hs
  rw [htxn, update_of_ne (Ne.symm ha), hpc]

/-- A released XID stays released. -/
theorem finished_step {s s' : Db} {a : Act} {t : XID} (hs : step s a = some s')
    (hpc : (s.txn t).pc = .finished) (hlt : t < s.nextXid) : (s'.txn t).pc = .finished := by
  by_cases ha : a = .begin
  · subst ha
    cases hs
    show (Function.update s.txn s.nextXid _ t).pc = _
    rw [update_of_ne hlt.ne, hpc]
  · exact finished_step_of_ne_begin hs hpc ha

/-- One action of any transaction while `t` is in the loop. -/
theorem aborting_step {s s' : Db} {a : Act} {t : XID} (hs : step s a = some s')
    (hpc : (s.txn t).pc = .aborting) (hlt : t < s.nextXid) :
    (s'.txn t).pc = .finished ∨
      (s'.txn t).pc = .aborting ∧ unlinkedEntry t s a ++ (s'.txn t).todo = (s.txn t).todo ∧
        (s'.txn t).entries = (s.txn t).entries := by
  by_cases ha : a.actor s = t
  · rcases act_of_aborting hs hpc hlt ha with rfl | rfl
    · revert hs
      simp only [step]
      fun_cases unlink s t <;> rintro ⟨⟩
      case case3 T hT w hw p hp =>
        rw [Db.setTxn_txn, update_self]
        refine .inr ⟨hpc, ?_, rfl⟩
        rw [Txn.todo_eq_cons hw, unlinkedEntry, if_pos rfl, hw]
        rfl
    · simp only [step] at hs
      split_ifs at hs
      cases hs
      exact .inl (by simp)
  · obtain ⟨T, htxn, -⟩ := step_txn hs
    rw [htxn, update_of_ne (Ne.symm ha), unlinkedEntry_of_ne ha]
    exact .inr ⟨hpc, rfl, rfl⟩

/-- From the call of `Abort` on, the entries unlinked so far and those still to
do are the write set. -/
theorem unlinked_of_aborting {acts : List Act} {s s' : Db} {ch : Entry → List Ptr} {t : XID}
    (h : ChainInv s ch) (hpc : (s.txn t).pc = .aborting)
    (hr : run step s acts = some s') :
    (s'.txn t).pc = .finished ∨ (s'.txn t).pc = .aborting ∧
      trace step (unlinkedEntry t) s acts ++ (s'.txn t).todo = (s.txn t).todo ∧
      (s'.txn t).entries = (s.txn t).entries := by
  have hlt := h.lt_nextXid (show (s.txn t).pc ≠ .finished by simp [hpc])
  refine run_induction (P := fun acts m => (m.txn t).pc = .finished ∨
    (m.txn t).pc = .aborting ∧
      trace step (unlinkedEntry t) s acts ++ (m.txn t).todo = (s.txn t).todo ∧
      (m.txn t).entries = (s.txn t).entries) (.inr ⟨hpc, rfl, rfl⟩) ?_ hr
  intro as m a m' hrm hs hor
  obtain ⟨-, -, g⟩ := h.run hrm
  have hltm := hlt.trans_le g.nextXid
  rcases hor with hfin | ⟨hab, htodo, hent⟩
  · exact .inl (finished_step hs hfin hltm)
  · refine (aborting_step hs hab hltm).imp id ?_
    rintro ⟨hab', htodo', hent'⟩
    refine ⟨hab', ?_, hent'.trans hent⟩
    rw [trace_snoc hrm, List.append_assoc, htodo', htodo]

/-! ### The whole abort -/

/-- The entry `e` of `s'` has the head and the chain it had in `s₀`, all of it
committed and unchanged. -/
structure RestoredTo (s' s₀ : Db) (e : Entry) : Prop where
  entry : s'.entry e = s₀.entry e
  chain : ∃ l, IsChain s₀.next (s₀.entry e) l ∧ IsChain s'.next (s'.entry e) l ∧
    ∀ q ∈ l, s₀.Stamped q ∧ s'.heap q = s₀.heap q

/-- One iteration of the loop restores its entry and leaves the others alone. -/
theorem unlink_restores {acts : List Act} {s s' : Db} {t : XID} (hr : Reached acts s)
    (hs : step s (.unlink t) = some s') :
    ∃ e s₀ a₀, unlinkedEntry t s (.unlink t) = [e] ∧ FirstWrite acts t e s₀ a₀ ∧
      RestoredTo s' s₀ e ∧ ∀ e', e' ≠ e → s'.entry e' = s.entry e' := by
  obtain ⟨ch, h, -⟩ := reached_inv hr
  obtain ⟨ch', k⟩ := h.move (step_move hs)
  revert hs
  simp only [step]
  fun_cases unlink s t <;> rintro ⟨⟩
  case case3 T hpc w hw p hp =>
    have hin : w.entry ∈ (s.txn t).todo := by
      rw [Txn.todo_eq_cons hw]
      exact List.mem_cons_self
    obtain ⟨s₀, a₀, q, l, hfw, hq, hn, hc, hst, g⟩ := firstWrite_of_dirty hr hin
    rw [hp, Option.some_inj] at hq
    subst hq
    refine ⟨w.entry, s₀, a₀, ?_, hfw, ⟨(update_self ..).trans hn, l, hc, ?_,
      fun q hq => ⟨hst q hq, (g.trans k.grows).stamped q (hst q hq)⟩⟩,
      fun e' he' => update_of_ne he' _ _⟩
    · rw [unlinkedEntry, if_pos rfl, hw]
      rfl
    · rw [show (((s.setCsn p .null).setEntry w.entry (s.next p)).setTxn t _).entry w.entry
        = s₀.entry w.entry from (update_self ..).trans hn]
      -- stamped objects keep their next pointers
      refine hc.congr fun q hq => ?_
      rw [Db.next, (g.trans k.grows).stamped q (hst q hq)]
      rfl

/-- An insert writes to an entry that was empty. -/
theorem insert_entry_none {acts : List Act} {s s' : Db} {t : XID} {e : Entry} {v : List UInt8}
    (hr : Reached acts s) (hs : step s (.insert t e v) = some s') : s.entry e = none := by
  obtain ⟨ch, h, -⟩ := reached_inv hr
  simp only [step, insert] at hs
  split_ifs at hs with hg
  exact h.free e hg.2.1

/-- **Abort atomicity.**  Take any run in which `Abort` is called for `t` in `s`
and returns in `s'`.  Each of its unlink steps restores the entry to what it was
before `t`'s first write to it, empty for an insert, and changes no other entry.
The entries unlinked are the write set, each once, and these are the OIDs that
`t` wrote.  In the end no version of `t` can be reached. -/
theorem abort_atomic {acts acts' : List Act} {s s' : Db} {t : XID} (hr : Reached acts s)
    (hrun : run step s (.abort t :: acts') = some s')
    (hret : (s'.txn t).pc = .aborting ∧ (s'.txn t).idx = (s'.txn t).writeSet.length) :
    (∀ pre suf m m', acts' = pre ++ .unlink t :: suf →
      run step s (.abort t :: pre) = some m → step m (.unlink t) = some m' →
      ∃ e s₀ a₀, unlinkedEntry t m (.unlink t) = [e] ∧
        FirstWrite (acts ++ .abort t :: pre) t e s₀ a₀ ∧ RestoredTo m' s₀ e ∧
        (∀ v, a₀ = .insert t e v → s₀.entry e = none) ∧
        ∀ e', e' ≠ e → m'.entry e' = m.entry e') ∧
    (∀ m, step s (.abort t) = some m → m.entry = s.entry) ∧
    trace step (unlinkedEntry t) s (.abort t :: acts') = (s.txn t).entries ∧
    (s.txn t).entries.Nodup ∧
    (∀ e, e ∈ (s.txn t).entries ↔ ∃ p, (s.txn t).written e = some p) ∧
    ∀ e l, IsChain s'.next (s'.entry e) l → ∀ p ∈ l, (s'.heap p).creator ≠ t := by
  obtain ⟨ch, h, -⟩ := reached_inv hr
  obtain ⟨s₁, hs₁, hr₁⟩ := run_cons_eq_some.mp hrun
  have hcall : s₁ = s.setTxn t { s.txn t with state := .abrtd, pc := .aborting } ∧
      (s.txn t).todo = (s.txn t).entries := by
    simp only [step] at hs₁
    split_ifs at hs₁ with hg
    cases hs₁
    refine ⟨rfl, ?_⟩
    rcases hg with hg | hg
    · exact (h.wf t).todo_eq_entries hg
    · have := (h.wf t).2
      rw [hg] at this
      rw [Txn.todo, this.2.1, List.drop_zero]
  obtain ⟨h1, htodo⟩ := hcall
  obtain ⟨ch₁, k₁⟩ := h.move (step_move hs₁)
  have hpc₁ : (s₁.txn t).pc = .aborting := by simp [h1]
  have htodo₁ : (s₁.txn t).todo = (s.txn t).entries := by
    rw [h1, Db.setTxn_txn, update_self, ← htodo]
    rfl
  obtain ⟨ch', h', -⟩ := k₁.chainInv.run hr₁
  have hnil : (s'.txn t).todo = [] := by
    rw [Txn.todo, List.drop_eq_nil_iff, Txn.entries, List.length_map, hret.2]
  refine ⟨?_, ?_, ?_, h.nodup t, fun e => h.entries.symm, ?_⟩
  · rintro pre suf m m' - hm hs
    have hrm : Reached (acts ++ .abort t :: pre) m := run_append.mpr ⟨s, hr, hm⟩
    obtain ⟨e, s₀, a₀, he, hfw, hres, hother⟩ := unlink_restores hrm hs
    refine ⟨e, s₀, a₀, he, hfw, hres, ?_, hother⟩
    rintro v rfl
    obtain ⟨acts₀, acts₁, s₂, -, hr₀, hs₀, -⟩ := hfw.split
    exact insert_entry_none hr₀ hs₀
  · intro m hm
    rw [hs₁, Option.some_inj] at hm
    rw [← hm, h1]
    rfl
  · have htrace := unlinked_of_aborting k₁.chainInv hpc₁ hr₁
    rcases htrace with hfin | ⟨-, htr, -⟩
    · rw [hret.1] at hfin
      cases hfin
    · rw [hnil, List.append_nil, htodo₁] at htr
      simp only [trace, hs₁, Option.map_some, Option.getD_some, htr]
      rfl
  · intro e l hl p hp hcr
    obtain rfl := (h'.chain e).unique hl
    rcases (h'.version hp).2 with ⟨-, hin⟩ | ⟨-, hs, -⟩
    · rw [hcr, hnil] at hin
      cases hin
    · -- an aborting transaction is not sealed
      have hwf := (h'.wf t).2
      rw [hret.1] at hwf
      rw [hcr, hwf.2] at hs
      cases hs

/-- A transaction updates a committed record twice, inserts another one and
aborts. -/
def abortActs : List Act :=
  .begin :: .insert 0 roundEntry [7] :: commitActs 0 ++
    [.begin, .update 1 roundEntry [8], .update 1 roundEntry [9, 9], .insert 1 ⟨1, 2⟩ [5]]

theorem abort_atomic_twice :
    ∃ s s', Reached abortActs s ∧
      run step s [.abort 1, .unlink 1, .unlink 1] = some s' ∧
      s'.entry roundEntry = some 0 ∧ s'.entry ⟨1, 2⟩ = none ∧
      trace step (unlinkedEntry 1) s [.abort 1, .unlink 1, .unlink 1]
        = [roundEntry, ⟨1, 2⟩] ∧
      ∀ e l, IsChain s'.next (s'.entry e) l → ∀ p ∈ l, (s'.heap p).creator ≠ 1 := by
  refine ⟨_, _, rfl, rfl, rfl, rfl, ?_⟩
  have h := abort_atomic (show Reached abortActs _ from rfl)
    (show run step _ [.abort 1, .unlink 1, .unlink 1] = some _ from rfl) ⟨rfl, rfl⟩
  exact ⟨h.2.2.1, h.2.2.2.2.2⟩

end PreemptDB
