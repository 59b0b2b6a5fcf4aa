/-
Snapshot reads.

`oid_get_version` walks a chain that other transactions change under it.
`Cursor s t e p` is what keeps a reader `t` at version `p` right: every version
it may have to return is `p` or lies below it.  Every step of another
transaction keeps this (`PcOk.grows`), because what a snapshot can see is fixed
once it is taken (`eligible_iff`), and the reader's own steps lead from one
cursor to the next or to the right result (`readStep_ok`).

The comparison with an already stamped CSN is `<=` where the comparison with the
holder's `end` is `<`.  A version stamped with exactly the reader's snapshot
belongs to a transaction that committed after the reader had begun, and it is
returned all the same: `reads_see_later_commit`.  Runs in which no read meets
such a version return what the snapshot holds: `reads_of_snapshot`.
-/
import PreemptDB.FirstUpdater

open LinkedChain StepRun

namespace PreemptDB

/-! ### What a snapshot can see -/

section

variable {s s' : Db} {ch ch' : Entry → List Ptr}

theorem Grows.versionEnd (g : Grows s s') (h : ChainInv s ch) {e : Entry} {p : Ptr}
    (hp : p ∈ s.committedVersions e) : s'.versionEnd p = s.versionEnd p := by
  obtain ⟨hmem, hs⟩ := h.mem_committedVersions.mp hp
  rw [Db.versionEnd, (g.object p (h.member hmem).1).2.1, (g.sealed _ hs).2.1, Db.versionEnd]

/-- The committed versions before a snapshot are fixed when it is taken. -/
theorem eligible_iff (g : Grows s s') (h : ChainInv s ch) (h' : ChainInv s' ch') {b : ℕ}
    (hb : b ≤ s.currentCsn) {e : Entry} {p : Ptr} :
    p ∈ s.committedVersions e ∧ s.versionEnd p < b ↔
      p ∈ s'.committedVersions e ∧ s'.versionEnd p < b := by
  constructor
  · rintro ⟨hp, hlt⟩
    refine ⟨?_, by rwa [g.versionEnd h hp]⟩
    obtain ⟨u, hu, hw⟩ := hp
    obtain ⟨hs, -, -, hwr⟩ := g.sealed u hu
    exact ⟨u, hs, by rw [hwr, hw]⟩
  · rintro ⟨⟨u, hu, hw⟩, hlt⟩
    have hcr := (h'.written hw).2.1
    cases hs : (s.txn u).isSealed with
    | true =>
      have hp : p ∈ s.committedVersions e := ⟨u, hs, by rw [← (g.sealed u hs).2.2.2, hw]⟩
      exact ⟨hp, by rwa [← g.versionEnd h hp]⟩
    | false =>
      -- a CSN taken in between is not below the snapshot
      rcases g.newly u hs hu with hnil | hge
      · have hin := h'.entries.mp ⟨p, hw⟩
        rw [Txn.entries, hnil] at hin
        cases hin
      · rw [Db.versionEnd, hcr] at hlt
        omega

theorem Db.SnapshotVersion.grows (g : Grows s s') (h : ChainInv s ch) (h' : ChainInv s' ch')
    {b : ℕ} (hb : b ≤ s.currentCsn) {e : Entry} {r : Option Ptr} (hr : s.SnapshotVersion e b r) :
    s'.SnapshotVersion e b r :=
  IsNewestBelow.congr hr (fun _ => eligible_iff g h h' hb) fun _ hp _ => g.versionEnd h hp

end

/-! ### Cursors -/

/-- What `oid_get_version(e)` should return to transaction `t`: its own latest
version, or what its snapshot holds. -/
def ReadSpec (s : Db) (t : XID) (e : Entry) (r : Option Ptr) : Prop :=
  match (s.txn t).written e with
  | some p => r = some p
  | none => s.SnapshotVersion e (s.txn t).beginCsn r

/-- A reader `t` of `e` that has come to version `p` has passed over nothing it
should return. -/
structure Cursor (s : Db) (t : XID) (e : Entry) (p : Ptr) : Prop where
  lt : p < s.nextPtr
  home : (s.heap p).home = e
  wrote : (s.txn (s.heap p).creator).writeSet ≠ []
  mine : (s.heap p).creator = t → (s.txn t).written e = some p
  own : ∀ {q}, (s.txn t).written e = some q → p = q
  final : s.Committed (s.heap p).creator → s.versionEnd p < (s.txn t).beginCsn →
    p ∈ s.committedVersions e
  cover : ∀ {v}, v ∈ s.committedVersions e ∧ s.versionEnd v < (s.txn t).beginCsn →
    v = p ∨ ∃ l, IsChain s.next (s.next p) l ∧ v ∈ l

/-- What the reader's program counter promises. -/
def PcOk (s : Db) (t : XID) : Pc → Prop
  | .readNext e p => Cursor s t e p
  | .readCsn e p next => Cursor s t e p ∧ next = s.next p
  | .readHolder e p next x => Cursor s t e p ∧ next = s.next p ∧ (s.heap p).creator = x ∧ x ≠ t
  | .returned e r => ReadSpec s t e r
  | _ => True

section

variable {s s' : Db} {ch ch' : Entry → List Ptr} {t : XID} {e : Entry} {p : Ptr}

/-- The rest of a chain below an object is the same later. -/
theorem ChainInv.chain_grows (h : ChainInv s ch) (g : Grows s s') (hp : p < s.nextPtr)
    {l : List Ptr} (hl : IsChain s.next (s.next p) l) : IsChain s'.next (s'.next p) l := by
  obtain ⟨l', hl', hsuf, -⟩ := h.below hp
  obtain rfl := hl'.unique hl
  have hnext : s'.next p = s.next p := (g.object p hp).1
  rw [hnext]
  exact hl'.congr fun q hq => (g.object q (h.member (hsuf.subset hq)).1).1

/-- A cursor survives whatever does not write for its reader. -/
theorem Cursor.grows (k : Cursor s t e p) (g : Grows s s') (h : ChainInv s ch)
    (h' : ChainInv s' ch') (hb : (s.txn t).beginCsn ≤ s.currentCsn)
    (hbegin : (s'.txn t).beginCsn = (s.txn t).beginCsn)
    (hwr : (s'.txn t).written = (s.txn t).written) : Cursor s' t e p := by
  obtain ⟨hnext, hcr, hhome, -⟩ := g.object p k.lt
  refine ⟨k.lt.trans_le g.nextPtr, hhome.trans k.home, ?_, ?_, ?_, ?_, ?_⟩
  · rw [hcr]
    exact g.writes _ k.wrote
  · rw [hcr, hwr]
    exact k.mine
  · rw [hwr]
    exact k.own
  · rw [hcr, hbegin]
    intro hs hlt
    cases hold : (s.txn (s.heap p).creator).isSealed with
    | true =>
      have hend : s'.versionEnd p = s.versionEnd p := by
        rw [Db.versionEnd, hcr, (g.sealed _ hold).2.1, Db.versionEnd]
      rw [hend] at hlt
      exact ((eligible_iff g h h' hb).mp ⟨k.final hold hlt, hlt⟩).1
    | false =>
      rcases g.newly _ hold hs with hnil | hge
      · exact absurd hnil (g.writes _ k.wrote)
      · rw [Db.versionEnd, hcr] at hlt
        omega
  · rw [hbegin]
    intro v hv
    refine (k.cover ((eligible_iff g h h' hb).mpr hv)).imp id ?_
    rintro ⟨l, hl, hvl⟩
    exact ⟨l, h.chain_grows g k.lt hl, hvl⟩

theorem ReadSpec.grows {r : Option Ptr} (k : ReadSpec s t e r) (g : Grows s s')
    (h : ChainInv s ch) (h' : ChainInv s' ch') (hb : (s.txn t).beginCsn ≤ s.currentCsn)
    (hbegin : (s'.txn t).beginCsn = (s.txn t).beginCsn)
    (hwr : (s'.txn t).written e = (s.txn t).written e) : ReadSpec s' t e r := by
  rw [ReadSpec] at k ⊢
  rw [hwr, hbegin]
  split at k
  · exact k
  · exact k.grows g h h' hb

theorem PcOk.grows {pc : Pc} (k : PcOk s t pc) (g : Grows s s') (h : ChainInv s ch)
    (h' : ChainInv s' ch') (hb : (s.txn t).beginCsn ≤ s.currentCsn)
    (hbegin : (s'.txn t).beginCsn = (s.txn t).beginCsn)
    (hwr : (s'.txn t).written = (s.txn t).written) : PcOk s' t pc := by
  cases pc with
  | readNext e p => exact Cursor.grows k g h h' hb hbegin hwr
  | readCsn e p next =>
    exact ⟨k.1.grows g h h' hb hbegin hwr, k.2.trans (g.object p k.1.lt).1.symm⟩
  | readHolder e p next x =>
    obtain ⟨hk, hn, hx, hne⟩ := k
    obtain ⟨hnext, hcr, -⟩ := g.object p hk.lt
    exact ⟨hk.grows g h h' hb hbegin hwr, hn.trans hnext.symm, hcr.trans hx, hne⟩
  | returned e r => exact ReadSpec.grows k g h h' hb hbegin (by rw [hwr])
  | _ => trivial

/-! ### The reader's own steps -/

/-- A running transaction's own version is the dirty head. -/
theorem ChainInv.written_running (h : ChainInv s ch) (hrun : (s.txn t).pc.running)
    (hw : (s.txn t).written e = some p) :
    s.entry e = some p ∧ (s.heap p).csn = .xid t := by
  have htodo : e ∈ (s.txn t).todo := by
    rw [Txn.todo, ((h.wf t).of_running hrun).2.1, List.drop_zero]
    exact h.entries.mp ⟨p, hw⟩
  obtain ⟨q, l, hq, -, -, hx, -, hwq⟩ := h.dirty_head htodo
  rw [hw, Option.some_inj] at hwq
  subst hwq
  exact ⟨hq, hx⟩

theorem ReadSpec.of_none {r : Option Ptr} (hw : (s.txn t).written e = none)
    (hr : s.SnapshotVersion e (s.txn t).beginCsn r) : ReadSpec s t e r := by
  rw [ReadSpec, hw]
  exact hr

/-- The walk starts at the head. -/
theorem cursor_head (h : ChainInv s ch) (hrun : (s.txn t).pc.running) (hp : s.entry e = some p) :
    Cursor s t e p := by
  obtain ⟨l, hl, hchain⟩ := h.mem_of_entry hp
  have hmem : p ∈ ch e := hl ▸ List.mem_cons_self
  refine ⟨(h.member hmem).1, (h.member hmem).2, h.writeSet_ne_nil hmem, fun hcr => ?_,
    fun hw => ?_, fun hs _ => h.mem_committedVersions.mpr ⟨hmem, hs⟩, fun hv => ?_⟩
  · rw [← hcr]
    exact (h.version hmem).1
  · have := (h.written_running hrun hw).1
    rwa [hp, Option.some_inj] at this
  · have hv := (h.mem_committedVersions.mp hv.1).1
    rw [hl] at hv
    exact (List.mem_cons.mp hv).imp id fun hin => ⟨l, hchain, hin⟩

/-- An empty entry has no committed version. -/
theorem readSpec_empty (h : ChainInv s ch) (hrun : (s.txn t).pc.running)
    (hp : s.entry e = none) : ReadSpec s t e none := by
  have hnil : ch e = [] := by
    have := h.chain e
    rwa [hp, isChain_none] at this
  refine ReadSpec.of_none ?_ fun v hv => ?_
  · cases hw : (s.txn t).written e with
    | none => rfl
    | some q =>
      have := (h.written_running hrun hw).1
      rw [hp] at this
      cases this
  · have hin := (h.mem_committedVersions.mp hv).1
    rw [hnil] at hin
    cases hin

/-- If the version at the cursor is visible, it is the one to return: what lies
below ended before its writer began. -/
theorem Cursor.readSpec (k : Cursor s t e p) (h : ChainInv s ch) (hc : CsnInv s)
    (ho : OrderInv s ch) (hw : (s.txn t).written e = none) (hs : s.Committed (s.heap p).creator)
    (hlt : s.versionEnd p < (s.txn t).beginCsn) : ReadSpec s t e (some p) := by
  have hp := k.final hs hlt
  have hmem := (h.mem_committedVersions.mp hp).1
  refine ReadSpec.of_none hw ⟨hp, hlt, fun v hv hvlt => ?_⟩
  rcases k.cover ⟨hv, hvlt⟩ with rfl | ⟨l, hl, hvl⟩
  · exact le_rfl
  · obtain ⟨pre, l', hch⟩ := List.append_of_mem hmem
    have hchain := h.chain e
    rw [hch] at hchain
    obtain rfl := hchain.drop.2.unique hl
    have hpw := h.versionEnd_pairwise hc ho e
    rw [hch] at hpw
    have hrest := (List.pairwise_append.mp hpw).2.1
    exact ((List.pairwise_cons.mp hrest).1 v hvl hs).le

/-- If it is not to be returned, the walk goes on below it. -/
theorem Cursor.skip (k : Cursor s t e p) (h : ChainInv s ch)
    (hw : (s.txn t).written e = none)
    (hno : ¬ (p ∈ s.committedVersions e ∧ s.versionEnd p < (s.txn t).beginCsn)) :
    PcOk s t (skipVersion e (s.next p)) := by
  obtain ⟨l, hl, hsuf, hst⟩ := h.below k.lt
  rw [k.home] at hsuf
  have hcover : ∀ {v}, v ∈ s.committedVersions e ∧ s.versionEnd v < (s.txn t).beginCsn →
      v ∈ l := by
    intro v hv
    rcases k.cover hv with rfl | ⟨l', hl', hvl⟩
    · exact absurd hv hno
    · rwa [hl.unique hl']
  cases hn : s.next p with
  | none =>
    rw [hn, isChain_none] at hl
    refine ReadSpec.of_none hw fun v hv => ?_
    by_contra hlt
    have := hcover ⟨hv, not_le.mp hlt⟩
    rw [hl] at this
    cases this
  | some q =>
    rw [hn] at hl
    obtain ⟨l', rfl, hl'⟩ := isChain_some.mp hl
    have hmem : q ∈ ch e := hsuf.subset List.mem_cons_self
    refine ⟨(h.member hmem).1, (h.member hmem).2, h.writeSet_ne_nil hmem, fun hcr => ?_,
      fun hw' => ?_, fun hs _ => h.mem_committedVersions.mpr ⟨hmem, hs⟩, fun hv => ?_⟩
    · rw [← hcr]
      exact (h.version hmem).1
    · rw [hw] at hw'
      cases hw'
    · exact (List.mem_cons.mp (hcover hv)).imp id fun hin => ⟨l', hl', hin⟩

/-- A stamped version is nobody's dirty one. -/
theorem Cursor.written_none (k : Cursor s t e p) (h : ChainInv s ch)
    (hrun : (s.txn t).pc.running) (hx : (s.heap p).csn ≠ .xid t) :
    (s.txn t).written e = none := by
  cases hw : (s.txn t).written e with
  | none => rfl
  | some q =>
    obtain rfl := k.own hw
    exact absurd (h.written_running hrun hw).2 hx

/-- The step that reads the CSN of a version. -/
theorem testCsn_ok (k : Cursor s t e p) (h : ChainInv s ch) (hc : CsnInv s) (ho : OrderInv s ch)
    (hle : s.currentCsn ≤ CSN.limit) (hrun : (s.txn t).pc.running)
    (htie : (s.heap p).csn ≠ .csn (s.txn t).beginCsn) : PcOk s t (testCsn s t e p (s.next p)) := by
  fun_cases testCsn s t e p (s.next p)
  case case1 => trivial
  case case2 hx =>
    rw [PcOk, ReadSpec, k.mine (h.tagged hx)]
  case case3 x hx hne => exact ⟨k, rfl, h.tagged hx, hne⟩
  case case4 c hcsn hcle =>
    have hmem : p ∈ ch e := k.home ▸ h.stamped ⟨c, hcsn⟩
    have hend : s.versionEnd p = c := h.stamp_eq hc hle hmem hcsn
    refine k.readSpec h hc ho (k.written_none h hrun (by rw [hcsn]; rintro ⟨⟩))
      (h.of_stamped hmem ⟨c, hcsn⟩).2.1 ?_
    -- the comparison is `<=`; the two sides differ by assumption
    rw [hend]
    refine lt_of_le_of_ne hcle ?_
    rintro rfl
    exact htie hcsn
  case case5 c hcsn hcgt =>
    have hmem : p ∈ ch e := k.home ▸ h.stamped ⟨c, hcsn⟩
    have hend : s.versionEnd p = c := h.stamp_eq hc hle hmem hcsn
    refine k.skip h (k.written_none h hrun (by rw [hcsn]; rintro ⟨⟩)) fun hv => ?_
    rw [hend] at hv
    exact hcgt hv.2.le

/-- The step that looks at the holder of a dirty version. -/
theorem testHolder_ok {x : XID} {pc : Pc} (k : Cursor s t e p) (h : ChainInv s ch) (hc : CsnInv s)
    (ho : OrderInv s ch) (hx : (s.heap p).creator = x) (hne : x ≠ t)
    (hpc : testHolder s t e p (s.next p) x = some pc) : PcOk s t pc := by
  have hw : (s.txn t).written e = none := by
    cases hw : (s.txn t).written e with
    | none => rfl
    | some q =>
      obtain rfl := k.own hw
      exact absurd (hx.symm.trans (h.written hw).2.1) hne
  have hend : s.versionEnd p = (s.txn x).endCsn := by rw [Db.versionEnd, hx]
  revert hpc
  fun_cases testHolder s t e p (s.next p) x <;> rintro ⟨⟩
  case case2 hst hlt =>
    exact k.readSpec h hc ho hw (hx ▸ (h.wf x).isSealed_of_cmmtd hst) (hend ▸ hlt)
  case case3 hst hge => exact k.skip h hw fun hv => hge (hend ▸ hv.2)
  case case4 hcommitting hcmmtd =>
    -- neither committing nor committed, so not sealed
    refine k.skip h hw fun hv => ?_
    have hs := (h.mem_committedVersions.mp hv.1).2
    rw [hx] at hs
    rcases (h.wf x).state_of_sealed hs with hst | hst
    · exact hcommitting hst
    · exact hcmmtd hst
  case case5 => trivial

/-- Every step of `oid_get_version` that meets no version stamped with exactly
the reader's snapshot keeps the promise. -/
theorem readStep_ok (h : ChainInv s ch) (hc : CsnInv s) (ho : OrderInv s ch)
    (hle : s.currentCsn ≤ CSN.limit) (k : PcOk s t (s.txn t).pc)
    (htie : ∀ e p next, (s.txn t).pc = .readCsn e p next →
      (s.heap p).csn ≠ .csn (s.txn t).beginCsn)
    (hs : readStep s t = some s') :
    ∃ pc, s' = s.setTxn t { s.txn t with pc := pc } ∧ PcOk s t pc := by
  have hrun : (s.txn t).pc.running := by
    obtain ⟨pc, -, hr, -⟩ := readStep_goto hs
    exact hr
  revert hs
  fun_cases readStep s t
  case case1 e hpc hp => rintro ⟨⟩; exact ⟨_, rfl, readSpec_empty h hrun hp⟩
  case case2 e hpc p hp => rintro ⟨⟩; exact ⟨_, rfl, cursor_head h hrun hp⟩
  case case3 e p hpc =>
    rintro ⟨⟩
    rw [hpc] at k
    exact ⟨_, rfl, k, rfl⟩
  case case4 e p next hpc =>
    rintro ⟨⟩
    rw [hpc] at k
    obtain ⟨hk, rfl⟩ := k
    exact ⟨_, rfl, testCsn_ok hk h hc ho hle hrun (htie e p _ hpc)⟩
  case case5 e p next x hpc =>
    intro hs
    rw [hpc] at k
    obtain ⟨hk, rfl, hx, hne⟩ := k
    obtain ⟨pc, hpc', rfl⟩ := Option.map_eq_some_iff.mp hs
    exact ⟨pc, rfl, testHolder_ok hk h hc ho hx hne hpc'⟩
  case case6 => rintro ⟨⟩

end

/-! ### Whole runs -/

/-- The reader and the version whose CSN an action loads. -/
def csnLoad (s : Db) : Act → Option (XID × Ptr)
  | .readStep t =>
    match (s.txn t).pc with
    | .readCsn _ p _ => some (t, p)
    | _ => none
  | _ => none

/-- The action does not load a CSN that is exactly the reader's snapshot. -/
def NoTie (s : Db) (a : Act) : Prop :=
  ∀ x ∈ csnLoad s a, (s.heap x.2).csn ≠ .csn (s.txn x.1).beginCsn

instance (s : Db) (a : Act) : Decidable (NoTie s a) :=
  inferInstanceAs (Decidable (∀ x ∈ csnLoad s a, (s.heap x.2).csn ≠ .csn (s.txn x.1).beginCsn))

/-- Chains, CSNs and readers of a state. -/
structure ReadInv (s : Db) (ch : Entry → List Ptr) : Prop where
  chain : ChainInv s ch
  csn : CsnInv s
  order : OrderInv s ch
  readers : ∀ t, PcOk s t (s.txn t).pc

theorem readInv_init : ReadInv Db.init fun _ => [] :=
  ⟨chainInv_init, csnInv_init, fun _ => List.Pairwise.nil, fun _ => trivial⟩

theorem readInv_step {s s' : Db} {ch : Entry → List Ptr} {a : Act} (i : ReadInv s ch)
    (htie : NoTie s a) (hs : step s a = some s') (hle : s.currentCsn ≤ CSN.limit) :
    ∃ ch', Kept s s' ch ch' ∧ ReadInv s' ch' := by
  obtain ⟨ch', k⟩ := i.chain.move (step_move hs)
  refine ⟨ch', k, k.chainInv, k.csnInv i.csn, k.orderInv i.order i.csn hle, fun u => ?_⟩
  -- a promise of `s` about `u` is still good if `u` keeps its snapshot and its writes
  have hkeep : ∀ pc, PcOk s u pc → (s'.txn u).beginCsn = (s.txn u).beginCsn →
      (s'.txn u).written = (s.txn u).written → PcOk s' u pc := fun pc hpc hb hw =>
    hpc.grows k.grows i.chain k.chainInv (i.csn.begin_le u) hb hw
  obtain ⟨T, htxn, hor⟩ := step_txn hs
  by_cases hu : u = a.actor s
  · rw [← hu] at htxn hor
    rcases hor with rfl | hq
    · have htie' : ∀ e p next, (s.txn u).pc = .readCsn e p next →
          (s.heap p).csn ≠ .csn (s.txn u).beginCsn := by
        intro e p next hpc
        exact htie (u, p) (by simp [csnLoad, hpc])
      obtain ⟨pc, rfl, hpc⟩ := readStep_ok i.chain i.csn i.order hle (i.readers u) htie' hs
      rw [Db.setTxn_txn, Function.update_self] at hkeep ⊢
      exact hkeep pc hpc rfl rfl
    · rw [htxn, Function.update_self]
      revert hq
      cases T.pc <;> simp [Pc.quiet, PcOk]
  · have hsame : s'.txn u = s.txn u := by rw [htxn, Function.update_of_ne hu]
    rw [hsame] at hkeep ⊢
    exact hkeep _ (i.readers u) rfl rfl

/-- Runs without ties keep the invariant as long as no CSN is truncated. -/
theorem readInv_run {acts : List Act} {s s' : Db} {ch : Entry → List Ptr} (i : ReadInv s ch)
    (hok : Along step NoTie s acts) (hr : run step s acts = some s')
    (hle : s'.currentCsn ≤ CSN.limit) : ∃ ch', Grows s s' ∧ ReadInv s' ch' := by
  have hinv := run_invariant_along
    (I := fun m => ∃ ch', Grows s m ∧ ChainInv m ch' ∧
      (m.currentCsn ≤ CSN.limit → ReadInv m ch')) ?_ hok hr
    ⟨ch, Grows.refl s, i.chain, fun _ => i⟩
  · obtain ⟨ch', g, -, i'⟩ := hinv
    exact ⟨ch', g, i' hle⟩
  · rintro m a m' htie hs ⟨chm, g, hc, im⟩
    by_cases hm : m.currentCsn ≤ CSN.limit
    · obtain ⟨ch', k, i'⟩ := readInv_step (im hm) htie hs hm
      exact ⟨ch', g.trans k.grows, i'.chain, fun _ => i'⟩
    · obtain ⟨ch', k⟩ := hc.move (step_move hs)
      exact ⟨ch', g.trans k.grows, k.chainInv,
        fun hm' => absurd (k.grows.currentCsn.trans hm') hm⟩

/-- **Snapshot reads.**  Take a run in which no read meets a version stamped with
exactly the reader's snapshot and no CSN is truncated.  Whenever
`oid_get_version` has returned, the result is the reader's own latest version
or else the newest version committed before its snapshot; and a later read of
the same OID, with no write of the reader to it in between, returns the same. -/
theorem reads_of_snapshot {acts acts' : List Act} {s s' : Db} (hr : Reached acts s)
    (hr' : run step s acts' = some s')
    (hok : Along step NoTie Db.init (acts ++ acts'))
    (hle : s'.currentCsn ≤ CSN.limit) {t : XID} {e : Entry} {r : Option Ptr}
    (hpc : (s.txn t).pc = .returned e r) :
    ReadSpec s t e r ∧ ∀ r', (s'.txn t).pc = .returned e r' →
      (s'.txn t).written e = (s.txn t).written e → r' = r := by
  obtain ⟨hok₁, hok₂⟩ := hok.append hr
  have hle₁ : s.currentCsn ≤ CSN.limit := by
    obtain ⟨ch, h, -⟩ := reached_inv hr
    obtain ⟨-, -, g⟩ := h.run hr'
    exact g.currentCsn.trans hle
  obtain ⟨ch, -, i⟩ := readInv_run readInv_init hok₁ hr hle₁
  obtain ⟨ch', g, i'⟩ := readInv_run i hok₂ hr' hle
  have hspec : ReadSpec s t e r := by
    have := i.readers t
    rwa [hpc] at this
  refine ⟨hspec, fun r' hpc' hw => ?_⟩
  have hspec' : ReadSpec s' t e r' := by
    have := i'.readers t
    rwa [hpc'] at this
  have hlt := i.chain.lt_nextXid (show (s.txn t).pc ≠ .finished by simp [hpc])
  have hold := hspec.grows g i.chain i'.chain (i.csn.begin_le t) (g.beginCsn t hlt) hw
  rw [ReadSpec] at hold hspec'
  split at hold
  · rename_i p hp
    rw [hp] at hspec'
    rw [hold, hspec']
  · rename_i hp
    rw [hp] at hspec'
    exact IsNewestBelow.unique (i'.chain.versionEnd_injOn i'.csn e) hspec' hold

/-- One call of `oid_get_version` that loads `n` times. -/
def readActs (t : XID) (n : ℕ) : List Act :=
  .readCall t roundEntry :: List.replicate n (.readStep t)

/-- A reader and a writer begin after the record has been committed; the reader
passes over the writer's dirty version. -/
def dirtyReadActs : List Act :=
  .begin :: .insert 0 roundEntry [] :: commitActs 0 ++
    [.begin, .begin, .update 2 roundEntry []] ++ readActs 1 6

/-- The reader passes over the dirty version again while the writer is active. -/
theorem reads_of_snapshot_dirty :
    ∃ s s', Reached dirtyReadActs s ∧ run step s (readActs 1 6) = some s' ∧
      Along step NoTie Db.init (dirtyReadActs ++ readActs 1 6) ∧
      s'.currentCsn ≤ CSN.limit ∧ (s.txn 1).pc = .returned roundEntry (some 0) ∧
      ReadSpec s 1 roundEntry (some 0) ∧ ∀ r', (s'.txn 1).pc = .returned roundEntry r' →
        (s'.txn 1).written roundEntry = (s.txn 1).written roundEntry → r' = some 0 := by
  have hok : Along step NoTie Db.init (dirtyReadActs ++ readActs 1 6) := by decide
  refine ⟨_, _, rfl, rfl, hok, ?_, rfl, ?_⟩
  · decide
  · exact reads_of_snapshot (show Reached dirtyReadActs _ from rfl) rfl hok (by decide) rfl

/-- **A read that is not of the snapshot.**  The same reader calls
`oid_get_version` before and after the writer commits.  The writer's CSN is the
reader's snapshot, 1; the first call passes over its version, the second one
returns it. -/
theorem reads_see_later_commit :
    ∃ s s', Reached dirtyReadActs s ∧
      run step s (commitActs 2 ++ readActs 1 3) = some s' ∧
      s'.currentCsn ≤ CSN.limit ∧ (s.txn 1).pc = .returned roundEntry (some 0) ∧
      (s'.txn 1).pc = .returned roundEntry (some 1) ∧
      (s'.txn 1).written roundEntry = none ∧ (s'.txn 1).beginCsn = 1 ∧
      (s'.txn 2).written roundEntry = some 1 ∧ (s'.txn 2).endCsn = 1 ∧
      ¬ ReadSpec s' 1 roundEntry (some 1) := by
  refine ⟨_, _, rfl, rfl, ?_, rfl, rfl, rfl, rfl, rfl, rfl, ?_⟩
  · decide
  · rintro ⟨-, hlt, -⟩
    revert hlt
    decide

end PreemptDB
